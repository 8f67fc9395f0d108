import Mathlib.Data.Finset.Basic
import Mathlib.Logic.Function.Basic

/-!
# Exclusive ownership of resources

Owners hold at most one resource each. Of the live resources some lie outside,
and every other one is held, by one owner only. Acquiring a new resource, passing
one on and releasing one keep this, and nothing held at the end means nothing
left over.
-/

namespace Ownership

universe u v
variable {Owner : Type u} {Resource : Type v}

/-- What is live is what is outside and what is held; nothing is held twice. -/
structure Exclusive (outside : Finset Resource) (holds : Owner → Option Resource)
    (live : Finset Resource) : Prop where
  live_iff : ∀ r, r ∈ live ↔ r ∈ outside ∨ ∃ o, holds o = some r
  inside : ∀ o r, holds o = some r → r ∉ outside
  unique : ∀ o o' r, holds o = some r → holds o' = some r → o = o'

/-- Who holds what after one owner's holding is set. -/
theorem update_eq_some [DecidableEq Owner] {holds : Owner → Option Resource} {o p : Owner}
    {v : Option Resource} {r : Resource} :
    Function.update holds o v p = some r ↔ p = o ∧ v = some r ∨ p ≠ o ∧ holds p = some r := by
  by_cases hp : p = o
  · subst hp
    simp
  · simp [hp]

namespace Exclusive

variable {outside live : Finset Resource} {holds : Owner → Option Resource}

/-- At first nothing is held. -/
theorem nothing_held (outside : Finset Resource) :
    Exclusive outside (fun _ : Owner => none) outside where
  live_iff := by simp
  inside := by
    rintro o r ⟨⟩
  unique := by
    rintro o o' r ⟨⟩

theorem live_of_held (h : Exclusive outside holds live) {o : Owner} {r : Resource}
    (hheld : holds o = some r) : r ∈ live :=
  (h.live_iff r).mpr (Or.inr ⟨o, hheld⟩)

/-- Nothing held any more, nothing left over. -/
theorem nothing_left (h : Exclusive outside holds live) (hnone : ∀ o, holds o = none) :
    live = outside := by
  ext r
  simp [h.live_iff, hnone]

variable [DecidableEq Owner] [DecidableEq Resource]

theorem acquire (h : Exclusive outside holds live) {o : Owner} {r : Resource}
    (hfree : holds o = none) (hnew : r ∉ live) :
    Exclusive outside (Function.update holds o (some r)) (insert r live) where
  live_iff := by
    intro x
    rw [Finset.mem_insert, h.live_iff]
    constructor
    · rintro (rfl | hout | ⟨p, hp⟩)
      · exact Or.inr ⟨o, update_eq_some.mpr (Or.inl ⟨rfl, rfl⟩)⟩
      · exact Or.inl hout
      · refine Or.inr ⟨p, update_eq_some.mpr (Or.inr ⟨?_, hp⟩)⟩
        rintro rfl
        rw [hfree] at hp
        cases hp
    · rintro (hout | ⟨p, hp⟩)
      · exact Or.inr (Or.inl hout)
      · rcases update_eq_some.mp hp with ⟨-, hx⟩ | ⟨-, hx⟩
        · exact Or.inl (Option.some.inj hx).symm
        · exact Or.inr (Or.inr ⟨p, hx⟩)
  inside := by
    intro p x hp
    rcases update_eq_some.mp hp with ⟨-, hx⟩ | ⟨-, hx⟩
    · obtain rfl := Option.some.inj hx
      exact fun hout => hnew ((h.live_iff _).mpr (Or.inl hout))
    · exact h.inside p x hx
  unique := by
    -- the new resource is not among those held before
    have hold : ∀ p, holds p ≠ some r := fun p hp => hnew (h.live_of_held hp)
    intro p q x hp hq
    rcases update_eq_some.mp hp with ⟨rfl, hx⟩ | ⟨-, hx⟩
    · obtain rfl := Option.some.inj hx
      rcases update_eq_some.mp hq with ⟨rfl, -⟩ | ⟨-, hy⟩
      · rfl
      · exact absurd hy (hold q)
    · rcases update_eq_some.mp hq with ⟨rfl, hy⟩ | ⟨-, hy⟩
      · obtain rfl := Option.some.inj hy
        exact absurd hx (hold p)
      · exact h.unique p q x hx hy

theorem release (h : Exclusive outside holds live) {o : Owner} {r : Resource}
    (hheld : holds o = some r) :
    Exclusive outside (Function.update holds o none) (live.erase r) where
  live_iff := by
    intro x
    rw [Finset.mem_erase, h.live_iff]
    constructor
    · rintro ⟨hne, hout | ⟨p, hp⟩⟩
      · exact Or.inl hout
      · refine Or.inr ⟨p, update_eq_some.mpr (Or.inr ⟨?_, hp⟩)⟩
        rintro rfl
        exact hne (Option.some.inj (hp.symm.trans hheld))
    · rintro (hout | ⟨p, hp⟩)
      · refine ⟨?_, Or.inl hout⟩
        rintro rfl
        exact h.inside o _ hheld hout
      · rcases update_eq_some.mp hp with ⟨-, hx⟩ | ⟨hne, hx⟩
        · cases hx
        · refine ⟨?_, Or.inr ⟨p, hx⟩⟩
          rintro rfl
          exact hne (h.unique p o _ hx hheld)
  inside := by
    intro p x hp
    rcases update_eq_some.mp hp with ⟨-, hx⟩ | ⟨-, hx⟩
    · cases hx
    · exact h.inside p x hx
  unique := by
    intro p q x hp hq
    rcases update_eq_some.mp hp with ⟨-, hx⟩ | ⟨-, hx⟩
    · cases hx
    · rcases update_eq_some.mp hq with ⟨-, hy⟩ | ⟨-, hy⟩
      · cases hy
      · exact h.unique p q x hx hy

/-- What one owner holds, an owner that holds nothing takes over. -/
theorem transfer (h : Exclusive outside holds live) {source target : Owner}
    (hne : target ≠ source) (hfree : holds target = none) :
    Exclusive outside (Function.update (Function.update holds source none) target (holds source))
      live := by
  cases hheld : holds source with
  | none =>
    have hsource : Function.update holds source none = holds :=
      Function.update_eq_self_iff.mpr hheld.symm
    rwa [hsource, Function.update_eq_self_iff.mpr hfree.symm]
  | some r =>
    have hstill : Function.update holds source none target = none := by
      rw [Function.update_of_ne hne, hfree]
    have hboth := (h.release hheld).acquire hstill (Finset.notMem_erase r live)
    rwa [Finset.insert_erase (h.live_of_held hheld)] at hboth

end Exclusive

end Ownership
