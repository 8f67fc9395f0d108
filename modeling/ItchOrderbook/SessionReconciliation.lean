import ItchOrderbook.FifoRefinement
import ItchOrderbook.SessionCensus
import Mathlib.Algebra.Order.BigOperators.Group.Finset

/-!
# The books of a session and its census

A session is for thousands of symbols, and a book takes the messages of one
locate. Feed the whole session to a book for every locate there is: each message
is counted by one of them, and together they count what the census counts.
-/

namespace Itch

open ByteFields CheckedRuns PrefixCode

/-- The tally a message is for, at any locate. -/
def Message.tally? (m : Message) : Option Tally := m.action?.map BookAction.tally

/-- The types of the records that a tally counts. -/
def Tally.types : Tally → List UInt8
  | adds => ['A'.toUInt8, 'F'.toUInt8]
  | executions => ['E'.toUInt8, 'C'.toUInt8]
  | cancels => ['X'.toUInt8]
  | deletes => ['D'.toUInt8]
  | replaces => ['U'.toUInt8]
  | trades => ['P'.toUInt8]

/-- The tally of a type. -/
def typeTally? (type : UInt8) : Option Tally :=
  [Tally.adds, .executions, .cancels, .deletes, .replaces, .trades].find? fun t => type ∈ t.types

theorem tally?_ofRecord (type : UInt8) (record : List UInt8) :
    (Message.ofRecord type record).tally? = typeTally? type := by
  rw [Message.ofRecord]
  repeat' split
  all_goals first
    | (subst_vars; rfl)
    | simp_all [typeTally?, Tally.types, Message.tally?, Message.action?]

/-- Every type of a tally is listed once, and for that tally only. -/
theorem typeTally?_types (t : Tally) : ∀ type,
    (if typeTally? type = some t then 1 else 0) =
      (t.types.map fun listed => if type = listed then 1 else 0).sum := by
  apply forall_byte
  cases t <;> decide +kernel

/-- A message that is a replace and whose original is in the book of its locate, sent the earlier
messages. -/
def findsOriginal (earlier : List Message) (m : Message) : Bool :=
  match m.action?, run (OrderBook.on .relWithDebInfo) (OrderBook.located m.stockLocate) earlier with
  | some (.replace original _ _ _), .ok b => (b.orders[original]?).isSome
  | _, _ => false

/-- A message that the book of its locate counts for a tally: a replace only if it finds its
original. -/
def countsFor (t : Tally) (earlier : List Message) (m : Message) : Bool :=
  m.tally? = some t && (t ≠ .replaces || findsOriginal earlier m)

/-- How many of the messages a book at locate `l` counts for a tally. -/
def tallyCount (l : UInt16) (t : Tally) (ms : List Message) : ℕ :=
  countAfter (fun earlier m => m.stockLocate = l && countsFor t earlier m) [] ms

/-- A message has one locate, so the counts of all locates add up. -/
theorem sum_tallyCount (t : Tally) (ms : List Message) :
    ∑ i : Fin (2 ^ 16), tallyCount (UInt16.ofFin i) t ms = countAfter (countsFor t) [] ms := by
  simp only [tallyCount]
  generalize ([] : List Message) = seen
  induction ms generalizing seen with
  | nil => simp [countAfter]
  | cons m ms ih =>
    have hiff : ∀ i : Fin (2 ^ 16), m.stockLocate = UInt16.ofFin i ↔ m.stockLocate.toFin = i :=
      fun i => ⟨fun heq => by rw [heq, UInt16.toFin_ofFin],
        fun heq => by rw [← heq, UInt16.ofFin_toFin]⟩
    have hone : ∑ i : Fin (2 ^ 16), (if m.stockLocate = UInt16.ofFin i ∧ countsFor t seen m = true
        then 1 else 0) = if countsFor t seen m then 1 else 0 := by
      by_cases ht : countsFor t seen m = true
      · simp only [ht, and_true, hiff, Finset.sum_ite_eq, Finset.mem_univ, if_true]
      · simp [ht]
    simp only [countAfter, Finset.sum_add_distrib, ih, Bool.and_eq_true, decide_eq_true_eq, hone]

/-- Only of the replaces some may not be counted. -/
theorem countAfter_countsFor {t : Tally} (ht : t ≠ .replaces) (ms : List Message) :
    countAfter (countsFor t) [] ms = ms.countP fun m => m.tally? = some t := by
  have hplain : countsFor t = fun _ m => decide (m.tally? = some t) := by
    funext earlier m
    simp [countsFor, ht]
  rw [hplain, countAfter_eq_countP]

theorem countsFor_replaces : countsFor .replaces = findsOriginal := by
  funext earlier m
  cases haction : m.action? with
  | none => simp [countsFor, findsOriginal, Message.tally?, haction]
  | some a =>
    cases a <;> simp [countsFor, findsOriginal, Message.tally?, haction, BookAction.tally]

namespace OrderBook

/-- The tallies after one message: it is counted if it is for this book, and a replace if its
original is there. -/
theorem stats_received {b : OrderBook} (h : b.Linked) {earlier : List Message}
    (hrun : run (OrderBook.on .relWithDebInfo) (located b.locate) earlier = .ok b) (m : Message)
    (t : Tally) : (b.received m).stats.get t = b.stats.get t +
      UInt64.ofNat (if m.stockLocate = b.locate ∧ countsFor t earlier m = true then 1 else 0) := by
  have htallied : ∀ (c : OrderBook) u, c.stats = b.stats → (c.tallied u).stats.get t =
      b.stats.get t + UInt64.ofNat (if u = t then 1 else 0) := by
    intro c u hc
    rw [tallied, get_bump, hc]
    split <;> rfl
  rw [received, Message.actionAt?]
  by_cases hgate : m.stockLocate = b.locate
  · simp only [hgate, if_true, true_and]
    cases haction : m.action? with
    | none => simp [countsFor, Message.tally?, haction]
    | some a =>
      have hcounts : countsFor t earlier m = true ↔ a.tally = t ∧ (t = .replaces →
          findsOriginal earlier m = true) := by
        simp [countsFor, Message.tally?, haction, or_iff_not_imp_left]
      have hplain : a.tally ≠ .replaces → (if a.tally = t then 1 else 0) =
          if countsFor t earlier m = true then 1 else 0 := by
        intro hne
        refine if_congr ?_ rfl rfl
        rw [hcounts]
        exact ⟨fun heq => ⟨heq, fun hreplaces => absurd (heq.trans hreplaces) hne⟩, And.left⟩
      cases a with
      | replace original new price shares =>
        have hfinds : findsOriginal earlier m = true ↔ b.find? original ≠ none := by
          rw [ne_eq, h.followable.find?_eq_none, findsOriginal, haction, hgate, hrun]
          exact Option.isSome_iff_ne_none
        simp only [hcounts, effect]
        cases hfind : b.find? original with
        | none =>
          rw [if_neg fun hboth => hfinds.mp (hboth.2 hboth.1.symm) hfind]
          exact (add_zero _).symm
        | some f =>
          have hfound := hfinds.mpr (by rw [hfind]; exact Option.some_ne_none f)
          simp only [hfound, implies_true, and_true]
          exact htallied _ _ (by simp)
      | add side reference price shares =>
        rw [← hplain Tally.noConfusion]
        exact htallied _ _ (by simp)
      | execute reference shares =>
        rw [← hplain Tally.noConfusion]
        exact htallied _ _ (by simp)
      | cancel reference shares =>
        rw [← hplain Tally.noConfusion]
        exact htallied _ _ (by simp)
      | delete reference =>
        rw [← hplain Tally.noConfusion]
        exact htallied _ _ (by simp)
      | trade =>
        rw [← hplain Tally.noConfusion]
        exact htallied _ _ rfl
  · simp [hgate]

/-- A linked book at one locate that has been sent these messages: its tallies count them. -/
structure Counts (l : UInt16) (b : OrderBook) (seen : List Message) : Prop where
  linked : b.Linked
  locate : b.locate = l
  sent : run (OrderBook.on .relWithDebInfo) (located l) seen = .ok b
  tallies : ∀ t, b.stats.get t = UInt64.ofNat (tallyCount l t seen)

theorem counts_located (l : UInt16) : Counts l (located l) [] where
  linked := linked_located l
  locate := rfl
  sent := rfl
  tallies := by
    intro t
    cases t <;> rfl

theorem Counts.received {l : UInt16} {b : OrderBook} {seen : List Message}
    (h : Counts l b seen) (m : Message) : Counts l (b.received m) (seen ++ [m]) where
  linked := h.linked.received m
  locate := (h.linked.received_locate m).trans h.locate
  sent := by
    rw [run_append_ok h.sent, run_singleton]
    exact h.linked.on Build.noConfusion
  tallies := by
    intro t
    have hsent := h.sent
    rw [← h.locate] at hsent
    rw [stats_received h.linked hsent, h.tallies, tallyCount, tallyCount, countAfter_concat,
      UInt64.ofNat_add, h.locate]
    simp only [List.nil_append, Bool.and_eq_true, decide_eq_true_eq]

/-- A book sent any messages at all counts those of its locate. -/
theorem run_counts (l : UInt16) (ms : List Message) :
    ∃ b, run (OrderBook.on .relWithDebInfo) (located l) ms = .ok b ∧ Counts l b ms := by
  have hstep : ∀ b seen m, m ∈ ms → Counts l b seen →
      ∃ b', b.on .relWithDebInfo m = .ok b' ∧ Counts l b' (seen ++ [m]) :=
    fun b seen m _ h => ⟨_, h.linked.on Build.noConfusion, h.received m⟩
  exact run_history hstep (counts_located l)

end OrderBook

/-- The records of the types of a tally are the messages for it. -/
theorem countP_tally (frames : List (List UInt8)) (t : Tally) :
    (frames.map frameMessage).countP (fun m => m.tally? = some t) =
      (t.types.map fun type => frames.countP fun f => frameType f = type).sum := by
  induction frames with
  | nil => cases t <;> rfl
  | cons f frames ih =>
    simp only [List.map_cons, List.countP_cons, ih, frameMessage, tally?_ofRecord,
      decide_eq_true_eq, typeTally?_types, List.sum_map_add]

/-- A 64-bit sum is the sum, cut once. -/
theorem ofNat_sum {ι : Type} (s : Finset ι) (f : ι → ℕ) :
    UInt64.ofNat (∑ i ∈ s, f i) = ∑ i ∈ s, UInt64.ofNat (f i) := by
  let cut : ℕ →+ UInt64 := { toFun := UInt64.ofNat, map_zero' := rfl, map_add' := UInt64.ofNat_add }
  exact map_sum cut f s

/-- Feed a file to the census and to a book for every locate. All of them finish, with the same
outcome, and their tallies add up, in 64 bits, to the counts of the census, but for the replaces:
of these they count the ones whose original is, when they arrive, in the book of their locate. -/
theorem books_reconcile_with_census (file : List UInt8) :
    ∃ frames rest outcome census, ∃ books : UInt16 → OrderBook,
      Parses itchCode frames rest file ∧
      parseAll .relWithDebInfo SessionCensus.on file {} = .ok (outcome, census) ∧
      (∀ l, parseAll .relWithDebInfo (OrderBook.handler .relWithDebInfo) file
        (OrderBook.located l) = .ok (outcome, books l)) ∧
      (∀ t, t ≠ .replaces → ∑ i : Fin (2 ^ 16), (books (UInt16.ofFin i)).stats.get t =
        UInt64.ofNat (t.types.map census.count).sum) ∧
      ∑ i : Fin (2 ^ 16), (books (UInt16.ofFin i)).stats.replaces =
        UInt64.ofNat (countAfter findsOriginal [] (frames.map frameMessage)) ∧
      countAfter findsOriginal [] (frames.map frameMessage) ≤ census.count 'U'.toUInt8 := by
  obtain ⟨frames, rest, h⟩ := parses_exists (C := itchCode) file
  obtain ⟨census, hcensus, hsum⟩ := run_census h.isWord
  choose books hbooks hcounts using
    fun l => OrderBook.run_counts l (frames.map frameMessage)
  have hcensused : ∀ t, (frames.map frameMessage).countP (fun m => m.tally? = some t) =
      (t.types.map census.count).sum := by
    intro t
    rw [countP_tally]
    congr 1
    refine List.map_congr_left fun type _ => ?_
    rw [hsum.counts, List.countP_map]
    refine List.countP_congr fun f hf => ?_
    rw [Function.comp, (h.isWord f hf).body_type]
  have hreported : ∀ t, ∑ i : Fin (2 ^ 16), (books (UInt16.ofFin i)).stats.get t =
      UInt64.ofNat (countAfter (countsFor t) [] (frames.map frameMessage)) := by
    intro t
    rw [← sum_tallyCount, ofNat_sum]
    exact Finset.sum_congr rfl fun i _ => (hcounts (UInt16.ofFin i)).tallies t
  refine ⟨frames, rest, sessionOutcome frames.length frames.flatten.length rest, census, books, h,
    ?_, ?_, ?_, ?_, ?_⟩
  · rw [parseAll_default SessionCensus.on h, hcensus]
    rfl
  · intro l
    rw [parseAll_default _ h]
    exact congrArg (Except.map _) (hbooks l)
  · intro t ht
    rw [hreported, countAfter_countsFor ht, hcensused]
  · rw [← countsFor_replaces]
    exact hreported .replaces
  · have hone : (Tally.replaces.types.map census.count).sum = census.count 'U'.toUInt8 := by
      simp [Tally.types]
    rw [← hone, ← hcensused, ← countsFor_replaces]
    refine countAfter_le_countP (fun earlier m hm => ?_) _ _
    rw [countsFor, Bool.and_eq_true] at hm
    exact hm.1

end Itch
