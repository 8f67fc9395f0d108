import ItchOrderbook.BookRep

/-!
# Reductions with the assert compiled out

The default build subtracts modulo the width. An executed or cancelled share
count wraps exactly when it exceeds the order it names, or the total of that
order's level; nothing else in a run can make a resting order grow.
-/

namespace Itch

open NodeQueue CheckedRuns

namespace Message

/-- Executed, Executed-with-price and Cancel: a share count off the wire is subtracted. -/
def reduces : Message → Bool
  | orderExecuted _ => true
  | orderExecutedWithPrice _ => true
  | orderCancel _ => true
  | _ => false

end Message

namespace OrderBook

/-- No resting order and no level total is larger after the step than before it. -/
structure NoneGrows (b b' : OrderBook) : Prop where
  orders : ∀ {s t p q n o o'}, b.Rests s p n o → b'.Rests t q n o' → o'.shares ≤ o.shares
  levels : ∀ {s p level level'}, b.level? s p = some level → b'.level? s p = some level' →
    level'.totalShares ≤ level.totalShares

/-- Along the messages, node `n` was allocated for an order inserted with these shares. -/
def InsertedWith (l : UInt16) (ms : List Message) (n : NodeId) (reference : UInt64)
    (shares : UInt32) : Prop :=
  ∃ before m after b side price, ms = before ++ m :: after ∧
    run (OrderBook.on .relWithDebInfo) (located l) before = .ok b ∧ b.nextNode = n ∧
    b.insertion? m = some (side, price, ⟨reference, shares⟩)

/-- Along the messages no reduction wraps, no order outgrows what it was inserted with, and
every level total stays the sum of its queue. -/
structure NeverWraps (l : UInt16) (ms : List Message) : Prop where
  reductions : ∀ pre m, pre ++ [m] <+: ms → m.reduces = true → ∃ b b',
    run (OrderBook.on .relWithDebInfo) (located l) pre = .ok b ∧
    b.on .relWithDebInfo m = .ok b' ∧ NoneGrows b b'
  bounded : ∀ pre, pre <+: ms → ∃ b,
    run (OrderBook.on .relWithDebInfo) (located l) pre = .ok b ∧
    ∀ s p n o, b.Rests s p n o →
      ∃ shares, InsertedWith l pre n o.orderReference shares ∧ o.shares ≤ shares
  totals : Throughout (OrderBook.on .relWithDebInfo) TotalsHold (located l) ms

/-- The shares a reduction carries are at most those of the resting order it names, and at
most the total of that order's level. -/
def Covered (b : OrderBook) : BookAction → Prop
  | .execute reference shares => ∀ f ∈ b.find? reference,
    shares ≤ f.order.shares ∧ shares.toUInt64 ≤ f.level.totalShares
  | .cancel reference shares => ∀ f ∈ b.find? reference,
    shares ≤ f.order.shares ∧ shares.toUInt64 ≤ f.level.totalShares
  | _ => True

instance decidableCovered (b : OrderBook) : ∀ a, Decidable (b.Covered a)
  | .execute reference shares => inferInstanceAs (Decidable (∀ f ∈ b.find? reference,
      shares ≤ f.order.shares ∧ shares.toUInt64 ≤ f.level.totalShares))
  | .cancel reference shares => inferInstanceAs (Decidable (∀ f ∈ b.find? reference,
      shares ≤ f.order.shares ∧ shares.toUInt64 ≤ f.level.totalShares))
  | .add _ _ _ _ => inferInstanceAs (Decidable True)
  | .delete _ => inferInstanceAs (Decidable True)
  | .replace _ _ _ _ => inferInstanceAs (Decidable True)
  | .trade => inferInstanceAs (Decidable True)

def CoveredBy (b : OrderBook) (m : Message) : Prop := ∀ a ∈ m.actionAt? b.locate, b.Covered a

instance decidableCoveredBy (b : OrderBook) (m : Message) : Decidable (b.CoveredBy m) :=
  inferInstanceAs (Decidable (∀ a ∈ m.actionAt? b.locate, b.Covered a))

theorem CoveredBy.fits {b : OrderBook} {m : Message} (h : b.CoveredBy m) : b.Fits m := by
  intro a ha
  have hcovered := h a ha
  cases a with
  | execute reference shares => exact fun f hf => (hcovered f hf).1
  | cancel reference shares => exact fun f hf => (hcovered f hf).1
  | add side reference price shares => trivial
  | delete reference => trivial
  | replace original new price shares => trivial
  | trade => trivial

theorem sub32_le_self_iff {a c : UInt32} : a - c ≤ a ↔ c ≤ a := by
  have ha := a.toNat_lt
  have hc := c.toNat_lt
  simp only [UInt32.le_iff_toNat_le, UInt32.toNat_sub]
  omega

theorem sub64_le_self_iff {a c : UInt64} : a - c ≤ a ↔ c ≤ a := by
  have ha := a.toNat_lt
  have hc := c.toNat_lt
  simp only [UInt64.le_iff_toNat_le, UInt64.toNat_sub]
  omega

section Reduction

variable {b : OrderBook} {r : UInt64} {s : BookSide} {f : Found} {removed : UInt32}
  {removeAll : Bool}

/-- What rests after a reduction is what rested on that node before, with the same reference
and no more shares. -/
theorem Linked.rests_shrunk (h : b.Linked) (hf : b.FoundAt r s f)
    (hfits : removed ≤ f.order.shares) {t : BookSide} {q : PriceTicks} {n : NodeId}
    {o : RestingOrder} (hrest : (b.afterReduction r f removed removeAll).Rests t q n o) :
    ∃ x, b.Rests t q n x ∧ x.orderReference = o.orderReference ∧ o.shares ≤ x.shares := by
  by_cases hgone : Gone f removed removeAll
  · exact ⟨o, ((h.rests_removed hf hgone).mp hrest).2, rfl, UInt32.le_refl _⟩
  · rcases (h.rests_reduced hf hgone).mp hrest with ⟨rfl, rfl, rfl, rfl⟩ | ⟨_, hold⟩
    · exact ⟨f.order, hf.rests, rfl, sub32_le_self_iff.mpr hfits⟩
    · exact ⟨o, hold, rfl, UInt32.le_refl _⟩

/-- Less than a whole level is taken off, so the level is still there afterwards. -/
theorem FoundAt.level_stays (hf : b.FoundAt r s f) (h : b.Linked)
    (htotals : b.TotalsHold) (hover : ¬ removed.toUInt64 ≤ f.level.totalShares) :
    ∃ level, (b.afterReduction r f removed false).level? s f.location.price = some level ∧
      level.totalShares = f.level.totalShares - removed.toUInt64 := by
  rw [level?_afterReduction, hf.side, book_tag, if_pos ⟨rfl, rfl⟩]
  by_cases hgone : Gone f removed false
  · have hsum := total_unlink RestingOrder.counted (h.distinct hf.level) hf.node
    have hempty : ¬ (unlink f.level.orders f.location.position).isEmpty = true := by
      intro hnil
      have hall : removed = f.order.shares :=
        sub_eq_zero_imp (hgone.resolve_left Bool.false_ne_true)
      rw [List.isEmpty_iff.mp hnil, total_nil, zero_add, ← htotals hf.level] at hsum
      rw [hall] at hover
      exact hover (hsum ▸ UInt64.le_refl _)
    rw [if_pos (gone_iff.mpr hgone), unlinked, if_neg hempty]
    exact ⟨_, rfl, rfl⟩
  · rw [if_neg (mt gone_iff.mp hgone)]
    exact ⟨_, rfl, rfl⟩

/-- A reduction makes nothing grow exactly when neither subtraction wraps. -/
theorem FoundAt.noneGrows_iff (hf : b.FoundAt r s f) (h : b.Linked)
    (htotals : b.TotalsHold) :
    NoneGrows b (b.afterReduction r f removed false) ↔
      removed ≤ f.order.shares ∧ removed.toUInt64 ≤ f.level.totalShares := by
  constructor
  · intro hgrows
    constructor
    · by_contra hover
      have hstays : ¬ Gone f removed false := by
        rintro (hall | hzero)
        · exact Bool.false_ne_true hall
        · exact hover (sub_eq_zero_imp hzero ▸ UInt32.le_refl _)
      have hrest := (h.rests_reduced hf hstays).mpr (Or.inl ⟨rfl, rfl, rfl, rfl⟩)
      exact hover (sub32_le_self_iff.mp (hgrows.orders hf.rests hrest))
    · by_contra hover
      obtain ⟨level, hlevel, hshares⟩ := hf.level_stays h htotals hover
      have hle := hgrows.levels hf.level hlevel
      rw [hshares] at hle
      exact hover (sub64_le_self_iff.mp hle)
  · rintro ⟨horder, hlevel⟩
    constructor
    · intro s' t p q n o o' hrest hrest'
      obtain ⟨x, hold, _, hle⟩ := h.rests_shrunk hf horder hrest'
      rw [h.rests_unique hrest hold]
      exact hle
    · intro t p level level' hbefore hafter
      rw [level?_afterReduction, hf.side, book_tag] at hafter
      by_cases hplace : s = t ∧ f.location.price = p
      · obtain ⟨rfl, rfl⟩ := hplace
        obtain rfl := Option.some.inj (hf.level.symm.trans hbefore)
        have hsub := sub64_le_self_iff.mpr hlevel
        rw [if_pos ⟨rfl, rfl⟩] at hafter
        split at hafter
        · rw [unlinked] at hafter
          split at hafter
          · cases hafter
          · obtain rfl := Option.some.inj hafter
            exact hsub
        · obtain rfl := Option.some.inj hafter
          exact hsub
      · rw [if_neg hplace] at hafter
        obtain rfl := Option.some.inj (hbefore.symm.trans hafter)
        exact UInt64.le_refl _

end Reduction

section Messages

variable {b : OrderBook} {m : Message}

theorem NoneGrows.of_levels {b' c : OrderBook} (h : NoneGrows b b')
    (hlevel : ∀ s p, c.level? s p = b'.level? s p) : NoneGrows b c where
  orders := by
    intro s t p q n o o' hrest hrest'
    rw [rests_congr hlevel] at hrest'
    exact h.orders hrest hrest'
  levels := by
    intro s p level level' hbefore hafter
    exact h.levels hbefore ((hlevel s p).symm.trans hafter)

theorem Linked.noneGrows_self (h : b.Linked) : NoneGrows b b where
  orders := by
    intro s t p q n o o' hrest hrest'
    rw [h.rests_unique hrest hrest']
    exact UInt32.le_refl _
  levels := by
    intro s p level level' hbefore hafter
    rw [Option.some.inj (hbefore.symm.trans hafter)]
    exact UInt64.le_refl _

theorem Linked.noneGrows_takeOff_iff (h : b.Linked) (htotals : b.TotalsHold) (r : UInt64)
    (shares : UInt32) : NoneGrows b (b.takeOff r shares false) ↔
      ∀ f ∈ b.find? r, shares ≤ f.order.shares ∧ shares.toUInt64 ≤ f.level.totalShares := by
  rw [OrderBook.takeOff]
  cases hfind : b.find? r with
  | none => exact iff_of_true h.noneGrows_self fun f hf => absurd hf (Option.not_mem_none f)
  | some f =>
    obtain ⟨s, hf⟩ := h.foundAt hfind
    simp only [Option.mem_def, Option.some.injEq, forall_eq']
    exact hf.noneGrows_iff h htotals

theorem reduces_action {l : UInt16} {a : BookAction} (hm : m.reduces = true)
    (ha : m.actionAt? l = some a) :
    (∃ r shares, a = .execute r shares) ∨ ∃ r shares, a = .cancel r shares := by
  rw [Message.actionAt?] at ha
  split at ha
  · cases m with
    | orderExecuted m => exact Or.inl ⟨_, _, (Option.some.inj ha).symm⟩
    | orderExecutedWithPrice m => exact Or.inl ⟨_, _, (Option.some.inj ha).symm⟩
    | orderCancel m => exact Or.inr ⟨_, _, (Option.some.inj ha).symm⟩
    | addOrder m => cases hm
    | addOrderWithMpid m => cases hm
    | orderDelete m => cases hm
    | orderReplace m => cases hm
    | tradeNonCross m => cases hm
    | systemEvent m => cases hm
    | stockDirectory m => cases hm
    | other type record => cases hm
  · cases ha

/-- The other messages carry no share count to subtract. -/
theorem covered_of_not_reduces (hm : m.reduces = false) : b.CoveredBy m := by
  intro a ha
  rw [Message.actionAt?] at ha
  split at ha
  · cases m with
    | orderExecuted m => cases hm
    | orderExecutedWithPrice m => cases hm
    | orderCancel m => cases hm
    | addOrder m =>
      cases ha
      trivial
    | addOrderWithMpid m =>
      cases ha
      trivial
    | orderDelete m =>
      cases ha
      trivial
    | orderReplace m =>
      cases ha
      trivial
    | tradeNonCross m =>
      cases ha
      trivial
    | systemEvent m => cases ha
    | stockDirectory m => cases ha
    | other type record => cases ha
  · cases ha

/-- A message that reduces makes nothing grow exactly when what it carries is covered. -/
theorem Linked.noneGrows_received_iff (h : b.Linked) (htotals : b.TotalsHold)
    (hm : m.reduces = true) : NoneGrows b (b.received m) ↔ b.CoveredBy m := by
  rw [OrderBook.received, CoveredBy]
  cases hact : m.actionAt? b.locate with
  | none => exact iff_of_true h.noneGrows_self fun a ha => absurd ha (Option.not_mem_none a)
  | some a =>
    simp only [Option.mem_def, Option.some.injEq, forall_eq']
    rcases reduces_action hm hact with ⟨r, shares, rfl⟩ | ⟨r, shares, rfl⟩
    · refine Iff.trans ⟨?_, ?_⟩ (h.noneGrows_takeOff_iff htotals r shares)
      · exact fun hg => hg.of_levels fun s p => (tallied_level? _ _ s p).symm
      · exact fun hg => hg.of_levels fun s p => tallied_level? _ _ s p
    · refine Iff.trans ⟨?_, ?_⟩ (h.noneGrows_takeOff_iff htotals r shares)
      · exact fun hg => hg.of_levels fun s p => (tallied_level? _ _ s p).symm
      · exact fun hg => hg.of_levels fun s p => tallied_level? _ _ s p

end Messages

section Insertions

variable {b : OrderBook}

@[simp] theorem nextNode_takeOff (r : UInt64) (shares : UInt32) (removeAll : Bool) :
    (b.takeOff r shares removeAll).nextNode = b.nextNode := by
  rw [OrderBook.takeOff]
  split <;> simp

theorem Linked.rests_takeOff (h : b.Linked) {r : UInt64} {shares : UInt32} {removeAll : Bool}
    (hfits : removeAll = false → ∀ f ∈ b.find? r, shares ≤ f.order.shares) {s : BookSide}
    {p : PriceTicks} {n : NodeId} {o : RestingOrder}
    (hrest : (b.takeOff r shares removeAll).Rests s p n o) :
    ∃ x, b.Rests s p n x ∧ x.orderReference = o.orderReference ∧ o.shares ≤ x.shares := by
  rw [OrderBook.takeOff] at hrest
  cases hfind : b.find? r with
  | none =>
    rw [hfind] at hrest
    exact ⟨o, hrest, rfl, UInt32.le_refl _⟩
  | some f =>
    rw [hfind] at hrest
    obtain ⟨t, hf⟩ := h.foundAt hfind
    refine h.rests_shrunk hf ?_ hrest
    cases removeAll with
    | true => exact UInt32.le_refl _
    | false => exact hfits rfl f hfind

theorem rests_tallied {t : Tally} : (b.tallied t).Rests = b.Rests :=
  rests_congr fun s p => tallied_level? b t s p

/-- After a message that fits, an order rests that rested before with at least its shares, or
it is the one the message inserted. -/
theorem Linked.rests_received (h : b.Linked) {m : Message} (hfits : b.Fits m) {s : BookSide}
    {p : PriceTicks} {n : NodeId} {o : RestingOrder} (hrest : (b.received m).Rests s p n o) :
    (∃ x, b.Rests s p n x ∧ x.orderReference = o.orderReference ∧ o.shares ≤ x.shares) ∨
      (n = b.nextNode ∧ b.insertion? m = some (s, p, o)) := by
  rw [OrderBook.received] at hrest
  rw [insertion?]
  cases hact : m.actionAt? b.locate with
  | none =>
    rw [hact] at hrest
    exact Or.inl ⟨o, hrest, rfl, UInt32.le_refl _⟩
  | some a =>
    rw [hact] at hrest
    have hwithin := hfits a hact
    cases a with
    | add side reference price shares =>
      simp only [OrderBook.effect, rests_tallied] at hrest
      rcases (rests_insert _ _ _ _).mp hrest with hold | ⟨rfl, rfl, rfl, rfl⟩
      · exact Or.inl ⟨o, hold, rfl, UInt32.le_refl _⟩
      · exact Or.inr ⟨rfl, by rw [book_tag]⟩
    | execute reference shares =>
      simp only [OrderBook.effect, rests_tallied] at hrest
      exact Or.inl (h.rests_takeOff (fun _ => hwithin) hrest)
    | cancel reference shares =>
      simp only [OrderBook.effect, rests_tallied] at hrest
      exact Or.inl (h.rests_takeOff (fun _ => hwithin) hrest)
    | delete reference =>
      simp only [OrderBook.effect, rests_tallied] at hrest
      exact Or.inl (h.rests_takeOff (fun hall => absurd hall.symm Bool.false_ne_true) hrest)
    | replace original new price shares =>
      simp only [OrderBook.effect] at hrest
      cases hfind : b.find? original with
      | none =>
        rw [hfind] at hrest
        exact Or.inl ⟨o, hrest, rfl, UInt32.le_refl _⟩
      | some f =>
        simp only [hfind, rests_tallied] at hrest
        rcases (rests_insert _ _ _ _).mp hrest with hold | ⟨rfl, rfl, hnode, rfl⟩
        · exact Or.inl (h.rests_takeOff (fun hall => absurd hall.symm Bool.false_ne_true) hold)
        · rw [nextNode_takeOff] at hnode
          refine Or.inr ⟨hnode, ?_⟩
          simp only [(find?_eq_some.mp hfind).1, Option.map_some]
    | trade =>
      simp only [OrderBook.effect, rests_tallied] at hrest
      exact Or.inl ⟨o, hrest, rfl, UInt32.le_refl _⟩

end Insertions

section Runs

variable {l : UInt16} {ms : List Message}

theorem InsertedWith.append {seen : List Message} {n : NodeId} {reference : UInt64}
    {shares : UInt32} (h : InsertedWith l seen n reference shares) (more : List Message) :
    InsertedWith l (seen ++ more) n reference shares := by
  obtain ⟨before, m, after, b, side, price, rfl, hrun, hnode, hinsert⟩ := h
  exact ⟨before, m, after ++ more, b, side, price, by simp, hrun, hnode, hinsert⟩

/-- What holds of the book after the messages seen, while every reduction is covered. -/
structure Traced (l : UInt16) (b : OrderBook) (seen : List Message) : Prop where
  reached : run (OrderBook.on .relWithDebInfo) (located l) seen = .ok b
  linked : b.Linked
  accounted : b.Accounted
  bounded : ∀ s p n o, b.Rests s p n o →
    ∃ shares, InsertedWith l seen n o.orderReference shares ∧ o.shares ≤ shares

theorem Traced.step {b : OrderBook} {seen : List Message} (h : Traced l b seen) {m : Message}
    (hfits : b.Fits m) (hfresh : b.ReferencesFresh m) :
    ∃ b', b.on .relWithDebInfo m = .ok b' ∧ Traced l b' (seen ++ [m]) := by
  have hon : b.on .relWithDebInfo m = .ok (b.received m) := h.linked.on fun _ => hfits
  refine ⟨_, hon, ⟨?_, h.linked.received m, (h.accounted.received_iff h.linked hfits).mpr hfresh,
    ?_⟩⟩
  · rw [run_append_ok h.reached, run_singleton, hon]
  · intro s p n o hrest
    rcases h.linked.rests_received hfits hrest with ⟨x, hold, href, hle⟩ | ⟨rfl, hinsert⟩
    · obtain ⟨shares, hfrom, hbound⟩ := h.bounded s p n x hold
      rw [← href]
      exact ⟨shares, hfrom.append [m], UInt32.le_trans hle hbound⟩
    · exact ⟨o.shares, ⟨seen, m, [], b, s, p, rfl, h.reached, rfl, hinsert⟩, UInt32.le_refl _⟩

theorem traced_located (l : UInt16) : Traced l (located l) [] where
  reached := rfl
  linked := linked_located l
  accounted := accounted_fresh.of_containers (fun s p => by cases s <;> rfl) rfl
  bounded := by
    rintro s p n o ⟨level, hlevel, _⟩
    cases s <;> simp [level?, located] at hlevel

theorem traced_run (hcovered : Along (OrderBook.on .relWithDebInfo) CoveredBy (located l) ms)
    (hfresh : Along (OrderBook.on .relWithDebInfo) ReferencesFresh (located l) ms)
    {pre : List Message} (hpre : pre <+: ms) :
    ∃ b, run (OrderBook.on .relWithDebInfo) (located l) pre = .ok b ∧ Traced l b pre :=
  run_history_along (fun _ _ _ h hm => h.step hm.1.fits hm.2) (traced_located l)
    (along_initial hpre (along_and hcovered hfresh))

theorem neverWraps_of_covered
    (hcovered : Along (OrderBook.on .relWithDebInfo) CoveredBy (located l) ms)
    (hfresh : Along (OrderBook.on .relWithDebInfo) ReferencesFresh (located l) ms) :
    NeverWraps l ms where
  reductions := by
    intro pre m hpre hm
    obtain ⟨b, hb, htraced⟩ := traced_run hcovered hfresh ((List.prefix_append pre [m]).trans hpre)
    have hm_covered : b.CoveredBy m :=
      ((along_append.mp (along_initial hpre hcovered)).2 b hb).1
    have htotals : b.TotalsHold := htraced.accounted.totals
    exact ⟨b, _, hb, htraced.linked.on fun _ => hm_covered.fits,
      (htraced.linked.noneGrows_received_iff htotals hm).mpr hm_covered⟩
  bounded := by
    intro pre hpre
    obtain ⟨b, hb, htraced⟩ := traced_run hcovered hfresh hpre
    exact ⟨b, hb, htraced.bounded⟩
  totals := by
    intro pre hpre
    obtain ⟨b, hb, htraced⟩ := traced_run hcovered hfresh hpre
    exact ⟨b, hb, htraced.accounted.totals⟩

theorem NeverWraps.covered (h : NeverWraps l ms) :
    Along (OrderBook.on .relWithDebInfo) CoveredBy (located l) ms := by
  rw [along_iff_forall]
  rintro pre m post rfl b hb
  cases hm : m.reduces with
  | false => exact covered_of_not_reduces hm
  | true =>
    -- with the asserts compiled out nothing stops the run, so the book is linked
    obtain ⟨c, hc, hlinked⟩ : ∃ c, run (OrderBook.on .relWithDebInfo) (located l) pre = .ok c ∧
        c.Linked := by
      refine run_invariant (P := fun _ _ => True)
        (fun b m hlinked _ => ⟨_, hlinked.on Build.noConfusion, hlinked.received m⟩)
        (linked_located l) ?_
      exact along_iff_forall.mpr fun _ _ _ _ _ _ => trivial
    obtain rfl := Except.ok.inj (hb.symm.trans hc)
    obtain ⟨d, hd, htotals⟩ := h.totals pre (List.prefix_append pre _)
    obtain rfl := Except.ok.inj (hb.symm.trans hd)
    obtain ⟨d, d', hd, hd', hgrows⟩ := h.reductions pre m ⟨post, by simp⟩ hm
    obtain rfl := Except.ok.inj (hb.symm.trans hd)
    rw [hlinked.on Build.noConfusion] at hd'
    obtain rfl := Except.ok.inj hd'
    exact (hlinked.noneGrows_received_iff htotals hm).mp hgrows

end Runs

/-- Where inserted references are fresh, a run never wraps exactly when every executed or
cancelled count is covered by the order it names and by that order's level. -/
theorem never_wraps_iff (l : UInt16) (ms : List Message) (hl : l ≠ 0)
    (hfresh : Along (OrderBook.on .relWithDebInfo) ReferencesFresh (located l) ms) :
    OrderBook.setLocate .relWithDebInfo {} l = .ok (located l) ∧
      (NeverWraps l ms ↔ Along (OrderBook.on .relWithDebInfo) CoveredBy (located l) ms) :=
  ⟨setLocate_fresh _ hl, NeverWraps.covered, fun h => neverWraps_of_covered h hfresh⟩

theorem never_wraps_partial_fill :
    OrderBook.setLocate .relWithDebInfo {} 7 = .ok (located 7) ∧
      (NeverWraps 7 [.bid 7 1 100 5000, .executing 7 1 40] ↔
        Along (OrderBook.on .relWithDebInfo) CoveredBy (located 7)
          [.bid 7 1 100 5000, .executing 7 1 40]) :=
  never_wraps_iff 7 _ (by decide) (by decide)

/-- Executing 150 shares of an order of 100 leaves 2^32 - 50 shares resting. -/
theorem over_execution_wraps :
    Along (OrderBook.on .relWithDebInfo) ReferencesFresh (located 7)
        [.bid 7 1 100 5000, .executing 7 1 150] ∧
      (run (OrderBook.on .relWithDebInfo) (located 7)
          [.bid 7 1 100 5000, .executing 7 1 150]).map (fun b => (b.find? 1).map Found.order) =
        .ok (some ⟨1, 4294967246⟩) ∧
      ¬ NeverWraps 7 [.bid 7 1 100 5000, .executing 7 1 150] :=
  ⟨by decide, by decide, fun h => absurd h.covered (by decide)⟩

end OrderBook

end Itch
