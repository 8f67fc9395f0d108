import Mathlib.Data.List.Nodup
import Mathlib.Algebra.BigOperators.Group.List.Basic

/-!
# Lists whose elements have keys

An ordered collection with distinct keys is a list that is appended to and in
which the element of one key is rewritten or dropped, in place. Both are one
operation, `update`, whose laws say what it commutes with.
-/

namespace KeyedList

universe u v w x
variable {α : Type u} {β : Type v} {κ : Type w} [DecidableEq κ]

/-- Rewrite the elements of key `k` by `f`, or drop them. -/
def update (key : α → κ) (k : κ) (f : α → Option α) (l : List α) : List α :=
  l.filterMap fun a => if key a = k then f a else some a

/-- Every element of the list has another key. -/
def Absent (key : α → κ) (k : κ) (l : List α) : Prop := ∀ a ∈ l, key a ≠ k

instance (key : α → κ) (k : κ) (l : List α) : Decidable (Absent key k l) :=
  inferInstanceAs (Decidable (∀ a ∈ l, key a ≠ k))

/-- A rewriting that leaves a feature of the elements alone. -/
def Keeps (feature : α → β) (f : α → Option α) : Prop :=
  ∀ a b, f a = some b → feature b = feature a

theorem keeps_none (feature : α → β) : Keeps feature fun _ => none :=
  fun _ _ h => nomatch h

section Update

variable {key : α → κ} {k : κ} {f : α → Option α}

theorem update_cons (a : α) (l : List α) : update key k f (a :: l) =
    if key a = k then (f a).toList ++ update key k f l else a :: update key k f l := by
  by_cases ha : key a = k
  · cases hf : f a <;> simp [update, ha, hf]
  · simp [update, ha]

theorem update_of_absent {l : List α} (h : Absent key k l) : update key k f l = l := by
  induction l with
  | nil => rfl
  | cons a l ih =>
    rw [update_cons, if_neg (h a List.mem_cons_self),
      ih fun b hb => h b (List.mem_cons_of_mem a hb)]

theorem update_congr {g : α → Option α} {l : List α} (h : ∀ a ∈ l, key a = k → f a = g a) :
    update key k f l = update key k g l := by
  apply List.filterMap_congr
  intro a ha
  by_cases hk : key a = k
  · rw [if_pos hk, if_pos hk, h a ha hk]
  · rw [if_neg hk, if_neg hk]

theorem mem_update {l : List α} {b : α} : b ∈ update key k f l ↔
    (b ∈ l ∧ key b ≠ k) ∨ ∃ a ∈ l, key a = k ∧ f a = some b := by
  simp only [update, List.mem_filterMap]
  constructor
  · rintro ⟨a, ha, heq⟩
    by_cases hk : key a = k
    · rw [if_pos hk] at heq
      exact Or.inr ⟨a, ha, hk, heq⟩
    · rw [if_neg hk] at heq
      cases heq
      exact Or.inl ⟨ha, hk⟩
  · rintro (⟨hb, hk⟩ | ⟨a, ha, hk, heq⟩)
    · exact ⟨b, hb, if_neg hk⟩
    · exact ⟨a, ha, (if_pos hk).trans heq⟩

/-- Where keys are distinct, one element is all an update can touch. -/
theorem mem_update_of_mem {l : List α} (h : (l.map key).Nodup) {a b : α} (ha : a ∈ l) :
    b ∈ update key (key a) f l ↔ (b ∈ l ∧ key b ≠ key a) ∨ f a = some b := by
  rw [mem_update]
  constructor
  · rintro (hb | ⟨c, hc, hkey, hb⟩)
    · exact Or.inl hb
    · rw [List.inj_on_of_nodup_map h hc ha hkey] at hb
      exact Or.inr hb
  · rintro (hb | hb)
    · exact Or.inl hb
    · exact Or.inr ⟨a, ha, rfl, hb⟩

theorem length_update_le (l : List α) : (update key k f l).length ≤ l.length :=
  List.length_filterMap_le _ _

/-- An update only touches elements of its key, so it cannot repeat a key. -/
theorem keys_update_sublist (hkeep : Keeps key f) (l : List α) :
    ((update key k f l).map key).Sublist (l.map key) := by
  induction l with
  | nil => exact List.Sublist.slnil
  | cons a l ih =>
    rw [update_cons]
    by_cases ha : key a = k
    · rw [if_pos ha]
      cases hf : f a with
      | none => exact ih.cons _
      | some b =>
        rw [Option.toList_some, List.singleton_append, List.map_cons, List.map_cons, hkeep a b hf]
        exact ih.cons_cons _
    · rw [if_neg ha]
      exact ih.cons_cons _

theorem nodup_update (hkeep : Keeps key f) {l : List α} (h : (l.map key).Nodup) :
    ((update key k f l).map key).Nodup :=
  h.sublist (keys_update_sublist hkeep l)

omit [DecidableEq κ] in
theorem nodup_append {l : List α} (h : (l.map key).Nodup) {a : α} (ha : Absent key (key a) l) :
    ((l ++ [a]).map key).Nodup := by
  rw [List.map_append, List.nodup_append]
  refine ⟨h, List.nodup_singleton _, ?_⟩
  intro k hk j hj heq
  obtain ⟨b, hb, rfl⟩ := List.mem_map.mp hk
  simp only [List.map_cons, List.map_nil, List.mem_singleton] at hj
  exact ha b hb (heq.trans hj)

/-- Dropping a key makes it absent. -/
theorem absent_drop (l : List α) : Absent key k (update key k (fun _ => none) l) := by
  intro a ha
  rcases mem_update.mp ha with ⟨_, hne⟩ | ⟨_, _, _, heq⟩
  · exact hne
  · cases heq

theorem absent_update {j : κ} (hkeep : Keeps key f) {l : List α} (h : Absent key j l) :
    Absent key j (update key k f l) := by
  intro a ha
  rcases mem_update.mp ha with ⟨hmem, _⟩ | ⟨b, hb, _, heq⟩
  · exact h a hmem
  · rw [hkeep b a heq]
    exact h b hb

/-- Selecting by a feature that the rewriting keeps commutes with the update. -/
theorem filter_update (p : α → Bool) (hkeep : Keeps p f) (l : List α) :
    (update key k f l).filter p = update key k f (l.filter p) := by
  induction l with
  | nil => rfl
  | cons a l ih =>
    rw [update_cons]
    by_cases ha : key a = k
    · rw [if_pos ha, List.filter_append, ih]
      by_cases hp : p a = true
      · rw [List.filter_cons_of_pos hp, update_cons, if_pos ha]
        cases hf : f a with
        | none => rfl
        | some b => simp [hkeep a b hf, hp]
      · rw [List.filter_cons_of_neg hp]
        cases hf : f a with
        | none => rfl
        | some b => simp [hkeep a b hf, hp]
    · rw [if_neg ha]
      by_cases hp : p a = true
      · rw [List.filter_cons_of_pos hp, List.filter_cons_of_pos hp, update_cons, if_neg ha, ih]
      · rw [List.filter_cons_of_neg hp, List.filter_cons_of_neg hp, ih]

/-- An update of a list and of its image agree when the rewritings do on the elements met. -/
theorem update_map {key' : β → κ} {g : α → β} {f' : β → Option β} {l : List α}
    (hkey : ∀ a ∈ l, key' (g a) = key a) (hf : ∀ a ∈ l, key a = k → f' (g a) = (f a).map g) :
    update key' k f' (l.map g) = (update key k f l).map g := by
  induction l with
  | nil => rfl
  | cons a l ih =>
    have hrest := ih (fun b hb => hkey b (List.mem_cons_of_mem a hb))
      (fun b hb => hf b (List.mem_cons_of_mem a hb))
    rw [List.map_cons, update_cons, update_cons, hkey a List.mem_cons_self, hrest]
    by_cases ha : key a = k
    · rw [if_pos ha, if_pos ha, hf a List.mem_cons_self ha]
      cases f a <;> simp
    · rw [if_neg ha, if_neg ha, List.map_cons]

theorem find?_key {l : List α} (h : (l.map key).Nodup) {a : α} (ha : a ∈ l) :
    l.find? (fun b => key b = key a) = some a := by
  cases hfind : l.find? (fun b => key b = key a) with
  | none => simpa using List.find?_eq_none.mp hfind a ha
  | some b =>
    have hkey : key b = key a := by simpa using List.find?_some hfind
    rw [List.inj_on_of_nodup_map h (List.mem_of_find?_eq_some hfind) ha hkey]

theorem update_append (l l' : List α) :
    update key k f (l ++ l') = update key k f l ++ update key k f l' :=
  List.filterMap_append

/-- Updates of two keys commute. -/
theorem update_comm {j : κ} {g : α → Option α} (hne : k ≠ j) (hf : Keeps key f)
    (hg : Keeps key g) (l : List α) :
    update key k f (update key j g l) = update key j g (update key k f l) := by
  induction l with
  | nil => rfl
  | cons a l ih =>
    rw [update_cons, update_cons]
    by_cases hj : key a = j
    · have hk : ¬ key a = k := fun hk => hne (hk.symm.trans hj)
      have hkept : update key k f (g a).toList = (g a).toList := by
        apply update_of_absent
        intro b hb
        rw [hg a b (Option.mem_toList.mp hb)]
        exact hk
      rw [if_pos hj, if_neg hk, update_append, hkept, ih, update_cons, if_pos hj]
    · rw [if_neg hj, update_cons]
      by_cases hk : key a = k
      · have hkept : update key j g (f a).toList = (f a).toList := by
          apply update_of_absent
          intro b hb
          rw [hf a b (Option.mem_toList.mp hb)]
          exact hj
        rw [if_pos hk, if_pos hk, update_append, hkept, ih]
      · rw [if_neg hk, if_neg hk, update_cons, if_neg hj, ih]

/-- Dropping a key undoes any update of it. -/
theorem drop_update (hf : Keeps key f) (l : List α) :
    update key k (fun _ => none) (update key k f l) = update key k (fun _ => none) l := by
  induction l with
  | nil => rfl
  | cons a l ih =>
    rw [update_cons, update_cons]
    by_cases hk : key a = k
    · have hgone : update key k (fun _ => none) (f a).toList = [] := by
        cases hfa : f a with
        | none => rfl
        | some b => simp [update, hf a b hfa, hk]
      rw [if_pos hk, if_pos hk, update_append, hgone, ih]
      rfl
    · rw [if_neg hk, if_neg hk, update_cons, if_neg hk, ih]

/-- An update of another key does not change what is found under this one. -/
theorem find?_update {j : κ} (hne : k ≠ j) (hf : Keeps key f) (l : List α) :
    (update key k f l).find? (fun a => key a = j) = l.find? fun a => key a = j := by
  induction l with
  | nil => rfl
  | cons a l ih =>
    rw [update_cons]
    by_cases hk : key a = k
    · have hother : ∀ b, key b = k → ¬ key b = j := fun b hb heq => hne (hb.symm.trans heq)
      have hnone : (f a).toList.find? (fun a => key a = j) = none := by
        rw [List.find?_eq_none]
        intro b hb
        simpa using hother b ((hf a b (Option.mem_toList.mp hb)).trans hk)
      rw [if_pos hk, List.find?_append, hnone, Option.none_or, ih,
        List.find?_cons_of_neg (by simpa using hother a hk)]
    · rw [if_neg hk]
      by_cases hj : key a = j
      · rw [List.find?_cons_of_pos (by simpa using hj), List.find?_cons_of_pos (by simpa using hj)]
      · rw [List.find?_cons_of_neg (by simpa using hj), List.find?_cons_of_neg (by simpa using hj),
          ih]

end Update

section Sums

variable {M : Type x} [AddCommMonoid M] (weight : α → M) {key : α → κ} {k : κ}
  {f : α → Option α}

/-- Rewriting one element exchanges its weight for the weight of what replaces it. -/
theorem sum_update {l : List α} (h : (l.map key).Nodup) {a : α} (ha : a ∈ l) (hk : key a = k) :
    ((update key k f l).map weight).sum + weight a =
      (l.map weight).sum + ((f a).map weight).getD 0 := by
  induction l with
  | nil => cases ha
  | cons b l ih =>
    rw [List.map_cons, List.nodup_cons] at h
    rw [update_cons, List.map_cons, List.sum_cons]
    rcases List.mem_cons.mp ha with rfl | hmem
    · have habsent : Absent key k l := fun c hc heq =>
        h.1 (List.mem_map.mpr ⟨c, hc, heq.trans hk.symm⟩)
      rw [if_pos hk, update_of_absent habsent]
      cases f a with
      | none => simp [add_comm]
      | some c => simp [add_comm, add_left_comm]
    · have hne : key b ≠ k := fun heq =>
        h.1 (List.mem_map.mpr ⟨a, hmem, hk.trans heq.symm⟩)
      rw [if_neg hne, List.map_cons, List.sum_cons, add_assoc, ih h.2 hmem, add_assoc]

end Sums

end KeyedList
