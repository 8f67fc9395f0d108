import ItchOrderbook.BookLinks

/-!
# A replace is a delete and an add

Every replace that finds its original can be written as a delete followed by an
add on the same side; one that does not can be left out. Written so, a run does
the same to every container, whatever its messages are, and stops where it would
have stopped; only the tallies show the difference.
-/

namespace Itch

open NodeQueue CheckedRuns

namespace Message

/-- A delete at one locate, its other fields left at zero. -/
def deleting (locate : UInt16) (reference : UInt64) : Message :=
  orderDelete
    { header :=
        { type := 'D'.toUInt8, stockLocate := locate, trackingNumber := 0, timestampNs := 0 }
      orderReference := reference }

/-- An order for either side at one locate. -/
def adding (locate : UInt16) (side : Side) (reference : UInt64) (shares : UInt32)
    (price : PriceTicks) : Message :=
  addOrder
    { header :=
        { type := 'A'.toUInt8, stockLocate := locate, trackingNumber := 0, timestampNs := 0 }
      orderReference := reference
      side
      shares
      stock := Vector.replicate 8 0
      price }

end Message

/-- Each replace counted as the delete and the add it stands for. -/
def Stats.unfolded (stats : Stats) : Stats where
  adds := stats.adds + stats.replaces
  executions := stats.executions
  cancels := stats.cancels
  deletes := stats.deletes + stats.replaces
  replaces := 0
  trades := stats.trades

theorem unfolded_bump (stats : Stats) {t : Tally} (h : t ≠ .replaces) :
    (stats.bump t).unfolded = stats.unfolded.bump t := by
  cases t with
  | adds =>
    simp only [Stats.unfolded, Stats.bump, UInt64.add_assoc, UInt64.add_comm 1]
  | deletes =>
    simp only [Stats.unfolded, Stats.bump, UInt64.add_assoc, UInt64.add_comm 1]
  | replaces => exact absurd rfl h
  | executions => rfl
  | cancels => rfl
  | trades => rfl

theorem unfolded_bump_replaces (stats : Stats) :
    (stats.bump .replaces).unfolded = (stats.unfolded.bump .deletes).bump .adds := by
  simp only [Stats.unfolded, Stats.bump, UInt64.add_assoc]

namespace OrderBook

/-- The message as the book could have been sent it without replaces. -/
def unfoldReplace (b : OrderBook) (m : Message) : List Message :=
  match m.actionAt? b.locate with
  | some (.replace original new price shares) =>
    match b.find? original with
    | none => []
    | some f => [.deleting b.locate original, .adding b.locate f.location.side new shares price]
  | _ => [m]

/-- The messages of a run, each as of the state the run meets it in. -/
def unfoldReplaces : OrderBook → List Message → List Message
  | _, [] => []
  | b, m :: ms => b.unfoldReplace m ++ (b.received m).unfoldReplaces ms

/-- The book with its replaces counted as deletes and adds. -/
def unfolded (b : OrderBook) : OrderBook := { b with stats := b.stats.unfolded }

section Unfolded

variable (b : OrderBook)

@[simp] theorem unfolded_locate : b.unfolded.locate = b.locate := rfl

@[simp] theorem find?_unfolded (r : UInt64) : b.unfolded.find? r = b.find? r := rfl

theorem level?_unfolded (s : BookSide) (p : PriceTicks) : b.unfolded.level? s p = b.level? s p := by
  cases s <;> rfl

variable {b} in
theorem Linked.unfolded (h : b.Linked) : b.unfolded.Linked :=
  h.of_containers (level?_unfolded b) rfl rfl

theorem tallied_unfolded {t : Tally} (ht : t ≠ .replaces) :
    (b.tallied t).unfolded = b.unfolded.tallied t := by
  simp only [OrderBook.unfolded, tallied, unfolded_bump b.stats ht]

theorem tallied_replaces_unfolded :
    (b.tallied .replaces).unfolded = (b.unfolded.tallied .deletes).tallied .adds := by
  simp only [OrderBook.unfolded, tallied, unfolded_bump_replaces]

theorem insert_unfolded (side : Side) (r : UInt64) (p : PriceTicks) (n : UInt32) :
    b.unfolded.insert side r p n = (b.insert side r p n).unfolded := by
  rw [insert, insert]
  split <;> rfl

theorem insert_tallied (t : Tally) (side : Side) (r : UInt64) (p : PriceTicks) (n : UInt32) :
    (b.tallied t).insert side r p n = (b.insert side r p n).tallied t := by
  rw [insert, insert]
  split <;> rfl

theorem takeOff_unfolded (r : UInt64) (n : UInt32) (removeAll : Bool) :
    b.unfolded.takeOff r n removeAll = (b.takeOff r n removeAll).unfolded := by
  rw [takeOff, takeOff, find?_unfolded]
  cases b.find? r with
  | none => rfl
  | some f =>
    simp only [afterReduction]
    split
    · cases f.location.side.book <;> rfl
    · cases f.location.side.book <;> rfl

theorem effect_unfolded {a : BookAction}
    (h : ∀ original new price shares, a ≠ .replace original new price shares) :
    b.unfolded.effect a = (b.effect a).unfolded := by
  cases a with
  | add side reference price shares =>
    rw [effect, effect, insert_unfolded, tallied_unfolded _ (by decide)]
  | execute reference shares =>
    rw [effect, effect, takeOff_unfolded, tallied_unfolded _ (by decide)]
  | cancel reference shares =>
    rw [effect, effect, takeOff_unfolded, tallied_unfolded _ (by decide)]
  | delete reference =>
    rw [effect, effect, takeOff_unfolded, tallied_unfolded _ (by decide)]
  | replace original new price shares => exact absurd rfl (h original new price shares)
  | trade => rw [effect, effect, tallied_unfolded _ (by decide)]

theorem effect_replace_unfolded {original : UInt64} {f : Found} (hf : b.find? original = some f)
    (new : UInt64) (price : PriceTicks) (shares : UInt32) :
    (b.unfolded.effect (.delete original)).effect
        (.add f.location.side.book new price shares) =
      (b.effect (.replace original new price shares)).unfolded := by
  simp only [effect, hf]
  rw [insert_book_tag, insert_tallied, tallied_replaces_unfolded, takeOff_unfolded,
    insert_unfolded]

end Unfolded

section Runs

variable {b : OrderBook}

theorem actionAt?_deleting (l : UInt16) (r : UInt64) :
    (Message.deleting l r).actionAt? l = some (.delete r) := if_pos rfl

theorem actionAt?_adding (l : UInt16) (side : Side) (r : UInt64) (n : UInt32) (p : PriceTicks) :
    (Message.adding l side r n p).actionAt? l = some (.add side.book r p n) := if_pos rfl

/-- A message on the book, and the messages it stands for on the book that counts them. -/
theorem Linked.run_unfoldReplace (h : b.Linked) (build : Build) (m : Message) :
    run (OrderBook.on build) b.unfolded (b.unfoldReplace m) =
      (b.on build m).map OrderBook.unfolded := by
  by_cases hreplace : ∃ original new price shares,
      m.actionAt? b.locate = some (.replace original new price shares)
  · obtain ⟨original, new, price, shares, hact⟩ := hreplace
    have hon : b.on build m = .ok (b.received m) := by
      refine h.on fun _ a ha => ?_
      obtain rfl := Option.some.inj (hact.symm.trans ha)
      trivial
    have hreceived : b.received m = b.effect (.replace original new price shares) := by
      simp only [OrderBook.received, hact]
    rw [hon, hreceived]
    cases hf : b.find? original with
    | none =>
      simp only [unfoldReplace, hact, OrderBook.effect, hf]
      rfl
    | some f =>
      simp only [unfoldReplace, hact, hf]
      have hdelete : b.unfolded.on build (.deleting b.locate original) =
          .ok (b.unfolded.effect (.delete original)) := by
        rw [on_eq, unfolded_locate, actionAt?_deleting]
        exact h.unfolded.followable.apply fun _ => trivial
      have hlocate := on_locate hdelete
      have hadd : (b.unfolded.effect (.delete original)).on build
          (.adding b.locate f.location.side new shares price) =
          .ok ((b.unfolded.effect (.delete original)).effect
            (.add f.location.side.book new price shares)) := by
        rw [on_eq, hlocate, unfolded_locate, actionAt?_adding]
        rfl
      rw [run_cons_ok hdelete, run_cons_ok hadd, effect_replace_unfolded b hf]
      rfl
  · have hsame : b.unfoldReplace m = [m] := by
      rw [unfoldReplace]
      split
      · rename_i original new price shares hact
        exact absurd ⟨original, new, price, shares, hact⟩ hreplace
      · rfl
    rw [hsame, run_singleton]
    by_cases hfits : build = .debug → b.Fits m
    · rw [h.on hfits, h.unfolded.on hfits, OrderBook.received, OrderBook.received,
        unfolded_locate]
      cases hact : m.actionAt? b.locate with
      | none => rfl
      | some a =>
        simp only [Except.map, Except.ok.injEq]
        refine effect_unfolded b fun original new price shares heq => ?_
        exact hreplace ⟨original, new, price, shares, heq ▸ hact⟩
    · obtain ⟨rfl, hover⟩ : build = .debug ∧ ¬ b.Fits m := by simpa using hfits
      have hover' : ¬ b.unfolded.Fits m := hover
      rw [on_over hover, on_over hover']
      rfl

theorem Linked.run_unfoldReplaces (h : b.Linked) (build : Build) (ms : List Message) :
    run (OrderBook.on build) b.unfolded (b.unfoldReplaces ms) =
      (run (OrderBook.on build) b ms).map OrderBook.unfolded := by
  induction ms generalizing b with
  | nil => rfl
  | cons m ms ih =>
    rw [unfoldReplaces, run_append, h.run_unfoldReplace build m]
    by_cases hfits : build = .debug → b.Fits m
    · rw [h.on hfits, run_cons_ok (h.on hfits)]
      exact ih (h.received m)
    · obtain ⟨rfl, hover⟩ : build = .debug ∧ ¬ b.Fits m := by simpa using hfits
      rw [on_over hover, run_cons_error (on_over hover)]
      rfl

/-- What a message is rewritten to holds no replace for this book. -/
theorem unfoldReplace_no_replace {m m' : Message} (hm' : m' ∈ b.unfoldReplace m)
    {original new : UInt64} {price : PriceTicks} {shares : UInt32} :
    m'.actionAt? b.locate ≠ some (.replace original new price shares) := by
  rw [unfoldReplace] at hm'
  split at hm'
  · split at hm'
    · cases hm'
    · rcases List.mem_pair.mp hm' with rfl | rfl
      · simp [actionAt?_deleting]
      · simp [actionAt?_adding]
  · rename_i hother
    obtain rfl := List.mem_singleton.mp hm'
    exact hother original new price shares

theorem Linked.unfoldReplaces_no_replace (h : b.Linked) {ms : List Message} {m : Message}
    (hm : m ∈ b.unfoldReplaces ms) {original new : UInt64} {price : PriceTicks}
    {shares : UInt32} : m.actionAt? b.locate ≠ some (.replace original new price shares) := by
  induction ms generalizing b with
  | nil => cases hm
  | cons x ms ih =>
    rcases List.mem_append.mp hm with hm | hm
    · exact unfoldReplace_no_replace hm
    · rw [← h.received_locate x]
      exact ih (h.received x) hm

end Runs

/-- A run without replaces does everything a run with them does. For any messages, in either
build, sending the book a delete and an add where a replace would have found its original,
and nothing where it would not, leads to the same levels, queues, nodes and index, or to the
same assert; the tallies count a delete and an add for each replace. -/
theorem replaces_unfold (build : Build) (l : UInt16) (ms : List Message) :
    run (OrderBook.on build) (located l) ((located l).unfoldReplaces ms) =
        (run (OrderBook.on build) (located l) ms).map unfolded ∧
      ∀ m ∈ (located l).unfoldReplaces ms, ∀ original new price shares,
        m.actionAt? l ≠ some (.replace original new price shares) :=
  ⟨(linked_located l).run_unfoldReplaces build ms, fun _ hm _ _ _ _ =>
    (linked_located l).unfoldReplaces_no_replace hm⟩

end OrderBook

end Itch
