import ItchOrderbook.FifoRefinement

/-!
# The references an action names

On the list of orders an action rewrites the entries it names, in place, and
may append one entry it names. Actions that name different references therefore
commute up to the order of what they append, and neither sees the other.
-/

namespace Itch

open KeyedList

def BookAction.references : BookAction → List UInt64
  | add _ reference _ _ => [reference]
  | execute reference _ => [reference]
  | cancel reference _ => [reference]
  | delete reference => [reference]
  | replace original new _ _ => [original, new]
  | trade => []

/-- The references a message carries, both of them for a replace. -/
def Message.references : Message → List UInt64
  | addOrder m => [m.orderReference]
  | addOrderWithMpid m => [m.order.orderReference]
  | orderExecuted m => [m.orderReference]
  | orderExecutedWithPrice m => [m.executed.orderReference]
  | orderCancel m => [m.orderReference]
  | orderDelete m => [m.orderReference]
  | orderReplace m => [m.originalOrderReference, m.newOrderReference]
  | tradeNonCross m => [m.orderReference]
  | systemEvent _ => []
  | stockDirectory _ => []
  | other _ _ => []

/-- What an action does to the entries already there. -/
def shrink (L : List Entry) : BookAction → List Entry
  | .execute reference shares => update Entry.reference reference (Entry.less shares.toNat) L
  | .cancel reference shares => update Entry.reference reference (Entry.less shares.toNat) L
  | .delete reference => update Entry.reference reference (fun _ => none) L
  | .replace original _ _ _ => update Entry.reference original (fun _ => none) L
  | .add _ _ _ _ => L
  | .trade => L

/-- The entry an action appends, if it appends one. -/
def placed (L : List Entry) : BookAction → Option Entry
  | .add side reference price shares => some ⟨reference, side, price, shares.toNat⟩
  | .replace original new price shares =>
    (L.find? fun e => e.reference = original).map fun e => ⟨new, e.side, price, shares.toNat⟩
  | _ => none

theorem fifo_eq (L : List Entry) (a : BookAction) :
    fifo L a = shrink L a ++ (placed L a).toList := by
  cases a with
  | replace original new price shares =>
    rw [fifo, shrink, placed]
    cases hfind : L.find? fun e => e.reference = original with
    | none =>
      have habsent : Absent Entry.reference original L := by
        simpa [Absent] using hfind
      simp [update_of_absent habsent]
    | some e => rfl
  | add side reference price shares => rfl
  | execute reference shares => simp [fifo, shrink, placed]
  | cancel reference shares => simp [fifo, shrink, placed]
  | delete reference => simp [fifo, shrink, placed]
  | trade => simp [fifo, shrink, placed]

/-- A reference neither of two actions shares with the other. -/
def BookAction.Apart (a c : BookAction) : Prop := ∀ r ∈ a.references, r ∉ c.references

theorem BookAction.Apart.symm {a c : BookAction} (h : a.Apart c) : c.Apart a :=
  fun r hc ha => h r ha hc

/-- All an action does to the entries there is one update at a reference it names. -/
theorem shrink_eq (a : BookAction) : (∀ L, shrink L a = L) ∨
    ∃ r ∈ a.references, ∃ g, InPlace g ∧ ∀ L, shrink L a = update Entry.reference r g L := by
  cases a with
  | execute reference shares =>
    exact Or.inr ⟨reference, List.mem_singleton_self _, _, inPlace_less _, fun _ => rfl⟩
  | cancel reference shares =>
    exact Or.inr ⟨reference, List.mem_singleton_self _, _, inPlace_less _, fun _ => rfl⟩
  | delete reference =>
    exact Or.inr ⟨reference, List.mem_singleton_self _, _, inPlace_drop, fun _ => rfl⟩
  | replace original new price shares =>
    exact Or.inr ⟨original, List.mem_cons_self, _, inPlace_drop, fun _ => rfl⟩
  | add side reference price shares => exact Or.inl fun _ => rfl
  | trade => exact Or.inl fun _ => rfl

theorem shrink_append (L L' : List Entry) (a : BookAction) :
    shrink (L ++ L') a = shrink L a ++ shrink L' a := by
  rcases shrink_eq a with hid | ⟨r, _, g, _, hupdate⟩
  · simp only [hid]
  · simp only [hupdate, update_append]

/-- Entries an action does not name stay as they are. -/
theorem shrink_unnamed {L : List Entry} {a : BookAction}
    (h : ∀ e ∈ L, e.reference ∉ a.references) : shrink L a = L := by
  rcases shrink_eq a with hid | ⟨r, hr, g, _, hupdate⟩
  · exact hid L
  · rw [hupdate]
    apply update_of_absent
    rintro e he rfl
    exact h e he hr

theorem mem_shrink {L : List Entry} {a : BookAction} {e : Entry}
    (h : e.reference ∉ a.references) : e ∈ shrink L a ↔ e ∈ L := by
  rcases shrink_eq a with hid | ⟨r, hr, g, hg, hupdate⟩
  · rw [hid]
  · have hne : e.reference ≠ r := by
      rintro rfl
      exact h hr
    rw [hupdate, mem_update]
    constructor
    · rintro (⟨he, _⟩ | ⟨x, _, hx, heq⟩)
      · exact he
      · exact absurd ((hg.reference x e heq).trans hx) hne
    · exact fun he => Or.inl ⟨he, hne⟩

theorem shrink_comm {a c : BookAction} (h : a.Apart c) (L : List Entry) :
    shrink (shrink L a) c = shrink (shrink L c) a := by
  rcases shrink_eq a with hid | ⟨r, hr, g, hg, hupdate⟩
  · simp only [hid]
  · rcases shrink_eq c with hid' | ⟨r', hr', g', hg', hupdate'⟩
    · simp only [hid']
    · have hne : r' ≠ r := by
        rintro rfl
        exact h r' hr hr'
      simp only [hupdate, hupdate']
      exact update_comm hne hg'.reference hg.reference L

theorem find?_shrink {L : List Entry} {a : BookAction} {r : UInt64} (h : r ∉ a.references) :
    (shrink L a).find? (fun e => e.reference = r) = L.find? fun e => e.reference = r := by
  rcases shrink_eq a with hid | ⟨r', hr', g, hg, hupdate⟩
  · rw [hid]
  · have hne : r' ≠ r := by
      rintro rfl
      exact h hr'
    rw [hupdate]
    exact find?_update hne hg.reference L

theorem placed_reference {L : List Entry} {a : BookAction} {e : Entry}
    (h : placed L a = some e) : e.reference ∈ a.references := by
  cases a with
  | add side reference price shares =>
    cases h
    exact List.mem_singleton_self _
  | replace original new price shares =>
    obtain ⟨x, _, rfl⟩ := Option.map_eq_some_iff.mp h
    exact List.mem_cons_of_mem _ (List.mem_singleton_self _)
  | execute reference shares => cases h
  | cancel reference shares => cases h
  | delete reference => cases h
  | trade => cases h

/-- The entries of references an action does not name. -/
theorem mem_fifo {L : List Entry} {a : BookAction} {e : Entry} (h : e.reference ∉ a.references) :
    e ∈ fifo L a ↔ e ∈ L := by
  rw [fifo_eq, List.mem_append, mem_shrink h, Option.mem_toList]
  constructor
  · rintro (he | he)
    · exact he
    · exact absurd (placed_reference he) h
  · exact Or.inl

theorem placed_fifo {a c : BookAction} (h : a.Apart c) (L : List Entry) :
    placed (fifo L a) c = placed L c := by
  cases c with
  | replace original new price shares =>
    have horiginal : original ∉ a.references := fun ha => h original ha List.mem_cons_self
    have hother : (placed L a).toList.find? (fun e => e.reference = original) = none := by
      rw [List.find?_eq_none]
      intro e he heq
      have href : e.reference = original := by simpa using heq
      exact horiginal (href ▸ placed_reference (Option.mem_toList.mp he))
    rw [placed, placed, fifo_eq, List.find?_append, find?_shrink horiginal, hother,
      Option.or_none]
  | add side reference price shares => rfl
  | execute reference shares => rfl
  | cancel reference shares => rfl
  | delete reference => rfl
  | trade => rfl

/-- One after the other: both rewrite in place, and each appends what it would append first. -/
theorem fifo_fifo {a c : BookAction} (h : a.Apart c) (L : List Entry) :
    fifo (fifo L a) c =
      shrink (shrink L a) c ++ ((placed L a).toList ++ (placed L c).toList) := by
  have hkept : shrink (placed L a).toList c = (placed L a).toList := by
    apply shrink_unnamed
    intro e he
    exact h _ (placed_reference (Option.mem_toList.mp he))
  rw [fifo_eq (fifo L a) c, placed_fifo h, fifo_eq L a, shrink_append, hkept, List.append_assoc]

/-- Whether an action is admissible depends on the entries it names. -/
theorem admissible_congr {L L' : List Entry} {a : BookAction}
    (h : ∀ e : Entry, e.reference ∈ a.references → (e ∈ L ↔ e ∈ L')) :
    Admissible L a ↔ Admissible L' a := by
  have habsent : ∀ r ∈ a.references,
      (Absent Entry.reference r L ↔ Absent Entry.reference r L') := by
    intro r hr
    constructor
    · rintro hL e he rfl
      exact hL e ((h e hr).mpr he) rfl
    · rintro hL e he rfl
      exact hL e ((h e hr).mp he) rfl
  have hbound : ∀ r ∈ a.references, ∀ n : ℕ,
      ((∀ e ∈ L, e.reference = r → n ≤ e.shares) ↔
        ∀ e ∈ L', e.reference = r → n ≤ e.shares) := by
    intro r hr n
    constructor
    · rintro hL e he rfl
      exact hL e ((h e hr).mpr he) rfl
    · rintro hL e he rfl
      exact hL e ((h e hr).mp he) rfl
  cases a with
  | add side reference price shares => exact habsent reference (List.mem_singleton_self _)
  | execute reference shares => exact hbound reference (List.mem_singleton_self _) _
  | cancel reference shares => exact hbound reference (List.mem_singleton_self _) _
  | delete reference => exact Iff.rfl
  | replace original new price shares =>
    have horiginal := habsent original List.mem_cons_self
    have hnew := habsent new (List.mem_cons_of_mem _ (List.mem_singleton_self _))
    simp only [Admissible, horiginal, hnew]
  | trade => exact Iff.rfl

theorem admissible_fifo {a c : BookAction} (h : a.Apart c) (L : List Entry) :
    Admissible (fifo L a) c ↔ Admissible L c :=
  admissible_congr fun e he => mem_fifo (h.symm e.reference he)

section Messages

variable {l : UInt16} {m m' : Message} {L : List Entry}

/-- An action names references its message carries. -/
theorem references_action {a : BookAction} (h : m.actionAt? l = some a) :
    ∀ r ∈ a.references, r ∈ m.references := by
  rw [Message.actionAt?] at h
  split at h
  · cases m with
    | tradeNonCross m =>
      cases h
      simp [BookAction.references]
    | addOrder m => cases h; exact fun _ hr => hr
    | addOrderWithMpid m => cases h; exact fun _ hr => hr
    | orderExecuted m => cases h; exact fun _ hr => hr
    | orderExecutedWithPrice m => cases h; exact fun _ hr => hr
    | orderCancel m => cases h; exact fun _ hr => hr
    | orderDelete m => cases h; exact fun _ hr => hr
    | orderReplace m => cases h; exact fun _ hr => hr
    | systemEvent m => cases h
    | stockDirectory m => cases h
    | other type record => cases h
  · cases h

/-- Two messages that carry no reference in common. -/
def Message.Apart (m m' : Message) : Prop := ∀ r ∈ m.references, r ∉ m'.references

-- Over the references of the message, not over all references.
instance decidableApart (m m' : Message) : Decidable (m.Apart m') :=
  List.decidableBAll (fun r => r ∉ m'.references) m.references

theorem Message.Apart.actions (h : m.Apart m') {a c : BookAction} (ha : m.actionAt? l = some a)
    (hc : m'.actionAt? l = some c) : a.Apart c :=
  fun r hr hr' => h r (references_action ha r hr) (references_action hc r hr')

theorem valid_fifoStep (h : m.Apart m') : Valid l (fifoStep l L m) m' ↔ Valid l L m' := by
  rw [Valid, Valid, fifoStep]
  cases ha : m.actionAt? l with
  | none => exact Iff.rfl
  | some a =>
    cases hc : m'.actionAt? l with
    | none => simp
    | some c =>
      simp only [Option.mem_def, Option.some.injEq, forall_eq']
      exact admissible_fifo (h.actions ha hc) L

/-- The entry a message appends. -/
def placedBy (l : UInt16) (L : List Entry) (m : Message) : Option Entry :=
  (m.actionAt? l).bind (placed L)

/-- Two messages apart leave the same entries in either order, and append theirs in turn. -/
theorem fifoStep_fifoStep (h : m.Apart m') (L : List Entry) : ∃ rest,
    fifoStep l (fifoStep l L m) m' =
      rest ++ ((placedBy l L m).toList ++ (placedBy l L m').toList) ∧
    fifoStep l (fifoStep l L m') m =
      rest ++ ((placedBy l L m').toList ++ (placedBy l L m).toList) := by
  simp only [fifoStep, placedBy]
  cases ha : m.actionAt? l with
  | none =>
    cases hc : m'.actionAt? l with
    | none => exact ⟨L, by simp, by simp⟩
    | some c => exact ⟨shrink L c, by simp [fifo_eq], by simp [fifo_eq]⟩
  | some a =>
    cases hc : m'.actionAt? l with
    | none => exact ⟨shrink L a, by simp [fifo_eq], by simp [fifo_eq]⟩
    | some c =>
      have hapart := h.actions ha hc
      refine ⟨shrink (shrink L a) c, fifo_fifo hapart L, ?_⟩
      rw [shrink_comm hapart]
      exact fifo_fifo hapart.symm L

/-- The tally a message adds to. -/
def tallyBy (l : UInt16) (L : List Entry) (m : Message) : Option Tally :=
  (m.actionAt? l).bind (tallyOf L)

theorem tallyBy_fifoStep (h : m.Apart m') (L : List Entry) :
    tallyBy l (fifoStep l L m) m' = tallyBy l L m' := by
  simp only [tallyBy, fifoStep]
  cases ha : m.actionAt? l with
  | none => rfl
  | some a =>
    cases hc : m'.actionAt? l with
    | none => rfl
    | some c =>
      have hapart := h.actions ha hc
      cases c with
      | replace original new price shares =>
        have hsame : Absent Entry.reference original (fifo L a) ↔
            Absent Entry.reference original L := by
          simp only [Absent]
          constructor
          · rintro hL e he rfl
            exact hL e ((mem_fifo (hapart.symm _ List.mem_cons_self)).mpr he) rfl
          · rintro hL e he rfl
            exact hL e ((mem_fifo (hapart.symm _ List.mem_cons_self)).mp he) rfl
        simp only [Option.bind_some, tallyOf, hsame]
      | add side reference price shares => rfl
      | execute reference shares => rfl
      | cancel reference shares => rfl
      | delete reference => rfl
      | trade => rfl

end Messages

/-- The order a message inserts is the entry it appends. -/
theorem OrderBook.RefinesAt.placedBy_eq {l : UInt16} {b : OrderBook} {L : List Entry}
    (h : OrderBook.RefinesAt l b L) (m : Message) :
    placedBy l L m = (b.insertion? m).map fun x => x.2.2.entry x.1 x.2.1 := by
  rw [placedBy, OrderBook.insertion?, h.locate]
  cases hact : m.actionAt? l with
  | none => rfl
  | some a =>
    cases a with
    | replace original new price shares =>
      simp only [Option.bind_some, placed]
      cases hloc : b.orders[original]? with
      | none =>
        rw [h.toRefines.find?_absent hloc]
        rfl
      | some location =>
        obtain ⟨s, f, hf, rfl⟩ := h.linked.foundAt_of_index hloc
        simp only [h.toRefines.find?_found hf, Option.map_some, hf.side, book_tag]
        rfl
    | add side reference price shares => rfl
    | execute reference shares => rfl
    | cancel reference shares => rfl
    | delete reference => rfl
    | trade => rfl

end Itch
