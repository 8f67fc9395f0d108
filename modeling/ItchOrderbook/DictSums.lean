import Mathlib.Algebra.BigOperators.Group.List.Basic
import Mathlib.Algebra.Order.BigOperators.Group.List
import Mathlib.Data.List.Nodup

/-!
# Sums over a dictionary

A dictionary is a finite map; its total is the sum of a weight over its values.
One entry can be split off, so assigning or deleting a key moves the total by
the weight of what it writes and of what it removes.
-/

namespace DictSums

universe u v w
variable {κ : Type u} {ν : Type v} {M : Type w} {cmp : κ → κ → Ordering}
variable [Std.TransCmp cmp] [Std.LawfulEqCmp cmp]

/-- The entries with one of them in front. -/
theorem toList_perm {m : Std.ExtTreeMap κ ν cmp} {k : κ} {v : ν} (h : m[k]? = some v) :
    m.toList.Perm ((k, v) :: (m.erase k).toList) := by
  have hnodup : ∀ d : Std.ExtTreeMap κ ν cmp, d.toList.Nodup := by
    intro d
    refine d.distinct_keys_toList.imp ?_
    rintro e e' hne rfl
    exact hne Std.ReflCmp.compare_self
  rw [List.perm_ext_iff_of_nodup (hnodup m) ?_]
  · rintro ⟨j, x⟩
    simp only [List.mem_cons, Prod.mk.injEq, Std.ExtTreeMap.mem_toList_iff_getElem?_eq_some,
      Std.ExtTreeMap.getElem?_erase, Std.LawfulEqCmp.compare_eq_iff_eq]
    by_cases hj : k = j
    · subst hj
      simp [h, eq_comm]
    · have hne : j ≠ k := fun heq => hj heq.symm
      simp [hj, hne]
  · rw [List.nodup_cons]
    refine ⟨?_, hnodup _⟩
    simp [Std.ExtTreeMap.mem_toList_iff_getElem?_eq_some]

theorem erase_insert (m : Std.ExtTreeMap κ ν cmp) (k : κ) (v : ν) :
    (m.insert k v).erase k = m.erase k := by
  apply Std.ExtTreeMap.ext_getElem?
  intro j
  simp only [Std.ExtTreeMap.getElem?_erase, Std.ExtTreeMap.getElem?_insert]
  split <;> rfl

theorem erase_absent {m : Std.ExtTreeMap κ ν cmp} {k : κ} (h : m[k]? = none) :
    m.erase k = m := by
  apply Std.ExtTreeMap.ext_getElem?
  intro j
  rw [Std.ExtTreeMap.getElem?_erase]
  by_cases hj : k = j
  · rw [if_pos (Std.LawfulEqCmp.compare_eq_iff_eq.mpr hj), ← hj, h]
  · rw [if_neg (mt Std.LawfulEqCmp.compare_eq_iff_eq.mp hj)]

section Sum

variable [AddCommMonoid M] (weight : ν → M)

/-- The weights of the values, summed. -/
def sumOver (m : Std.ExtTreeMap κ ν cmp) : M := (m.toList.map fun e => weight e.2).sum

/-- The sum with one entry split off. -/
theorem sumOver_split {m : Std.ExtTreeMap κ ν cmp} {k : κ} {v : ν} (h : m[k]? = some v) :
    sumOver weight m = weight v + sumOver weight (m.erase k) := by
  rw [sumOver, ((toList_perm h).map _).sum_eq, List.map_cons, List.sum_cons, sumOver]

theorem sumOver_insert (m : Std.ExtTreeMap κ ν cmp) (k : κ) (v : ν) :
    sumOver weight (m.insert k v) = weight v + sumOver weight (m.erase k) := by
  rw [sumOver_split weight (Std.ExtTreeMap.getElem?_insert_self), erase_insert]

theorem sumOver_insert_new {m : Std.ExtTreeMap κ ν cmp} {k : κ} (h : m[k]? = none) (v : ν) :
    sumOver weight (m.insert k v) = weight v + sumOver weight m := by
  rw [sumOver_insert, erase_absent h]

/-- Where every value weighs nothing there is no sum. -/
theorem sumOver_eq_zero {m : Std.ExtTreeMap κ ν cmp}
    (h : ∀ (k : κ) (v : ν), m[k]? = some v → weight v = 0) : sumOver weight m = 0 := by
  rw [sumOver]
  apply List.sum_eq_zero
  intro x hx
  obtain ⟨⟨k, v⟩, he, rfl⟩ := List.mem_map.mp hx
  exact h k v (Std.ExtTreeMap.mem_toList_iff_getElem?_eq_some.mp he)

end Sum

/-- A single value weighs no more than all of them, when none weighs less than nothing. -/
theorem le_sumOver {weight : ν → ℤ} {m : Std.ExtTreeMap κ ν cmp}
    (hnonneg : ∀ (k : κ) (v : ν), m[k]? = some v → 0 ≤ weight v) {k : κ} {v : ν}
    (h : m[k]? = some v) : weight v ≤ sumOver weight m := by
  have hrest : 0 ≤ sumOver weight (m.erase k) := by
    apply List.sum_nonneg
    intro x hx
    obtain ⟨⟨j, y⟩, he, rfl⟩ := List.mem_map.mp hx
    rw [Std.ExtTreeMap.mem_toList_iff_getElem?_eq_some, Std.ExtTreeMap.getElem?_erase] at he
    split at he
    · cases he
    · exact hnonneg j y he
  rw [sumOver_split weight h]
  omega

end DictSums
