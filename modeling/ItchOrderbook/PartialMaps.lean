import Mathlib.Data.Set.Function
import Mathlib.Data.List.Nodup

/-!
# Partial maps up to a change of keys

One partial map is the image of another when the keys are sent to new keys, one
to one on the keys in use, and the values along with them. Updates at
corresponding keys keep this, and what is counted or ordered by keys carries
over.
-/

namespace PartialMaps

universe u v w x
variable {κ : Type u} {κ' : Type v} {β : Type w} {β' : Type x}

/-- `m'` holds what `m` holds, at the new keys; no key outside `K` is in use. -/
structure Image (f : κ → κ') (g : β → β') (K : Set κ) (m : κ → Option β) (m' : κ' → Option β') :
    Prop where
  value : ∀ k ∈ K, m' (f k) = (m k).map g
  domain : ∀ k, (m k).isSome → k ∈ K
  onto : ∀ k', (m' k').isSome → ∃ k ∈ K, f k = k'

namespace Image

variable {f : κ → κ'} {g : β → β'} {K : Set κ} {m : κ → Option β} {m' : κ' → Option β'}

theorem empty (f : κ → κ') (g : β → β') (K : Set κ) :
    Image f g K (fun _ => none) fun _ => none where
  value := fun _ _ => rfl
  domain := fun _ h => Bool.noConfusion h
  onto := fun _ h => Bool.noConfusion h

theorem isSome (h : Image f g K m m') {k : κ} (hk : k ∈ K) : (m' (f k)).isSome = (m k).isSome := by
  rw [h.value k hk, Option.isSome_map]

/-- Every entry of the image comes from one of the map. -/
theorem preimage (h : Image f g K m m') {k' : κ'} {b' : β'} (hk' : m' k' = some b') :
    ∃ k ∈ K, f k = k' ∧ ∃ b, m k = some b ∧ g b = b' := by
  obtain ⟨k, hk, rfl⟩ := h.onto k' (by rw [hk']; rfl)
  rw [h.value k hk, Option.map_eq_some_iff] at hk'
  exact ⟨k, hk, rfl, hk'⟩

/-- An update of the map and one of its image, at keys that correspond. -/
theorem update [DecidableEq κ] [DecidableEq κ'] (h : Image f g K m m') (hf : Set.InjOn f K)
    {k : κ} (hk : k ∈ K) (o : Option β) :
    Image f g K (Function.update m k o) (Function.update m' (f k) (o.map g)) where
  value := by
    intro l hl
    by_cases hlk : l = k
    · subst hlk
      rw [Function.update_self, Function.update_self]
    · have hne : f l ≠ f k := fun heq => hlk (hf hl hk heq)
      rw [Function.update_of_ne hlk, Function.update_of_ne hne]
      exact h.value l hl
  domain := by
    intro l hl
    by_cases hlk : l = k
    · exact hlk ▸ hk
    · rw [Function.update_of_ne hlk] at hl
      exact h.domain l hl
  onto := by
    intro l' hl'
    by_cases hlk : l' = f k
    · exact ⟨k, hk, hlk.symm⟩
    · rw [Function.update_of_ne hlk] at hl'
      exact h.onto l' hl'

/-- The keys of the image, listed. -/
theorem keys (h : Image f g K m m') (hf : Set.InjOn f K) {ks : List κ} (hnodup : ks.Nodup)
    (hks : ∀ k, (m k).isSome ↔ k ∈ ks) :
    (ks.map f).Nodup ∧ ∀ k', (m' k').isSome ↔ k' ∈ ks.map f := by
  have hK : ∀ k ∈ ks, k ∈ K := fun k hk => h.domain k ((hks k).mpr hk)
  refine ⟨hnodup.map_on fun k hk l hl heq => hf (hK k hk) (hK l hl) heq, fun k' => ?_⟩
  rw [List.mem_map]
  constructor
  · intro hk'
    obtain ⟨k, hk, rfl⟩ := h.onto k' hk'
    exact ⟨k, (hks k).mp ((h.isSome hk).symm.trans hk'), rfl⟩
  · rintro ⟨k, hk, rfl⟩
    rw [h.isSome (hK k hk)]
    exact (hks k).mpr hk

/-- A key that comes before all others is sent to one that does, if the order is kept. -/
theorem first (h : Image f g K m m') {r : κ → κ → Prop} {r' : κ' → κ' → Prop}
    (hr : ∀ k ∈ K, ∀ l ∈ K, r k l → r' (f k) (f l)) {k : κ} (hk : k ∈ K)
    (hfirst : ∀ l, (m l).isSome → r k l) {l' : κ'} (hl' : (m' l').isSome) : r' (f k) l' := by
  obtain ⟨l, hl, rfl⟩ := h.onto l' hl'
  exact hr k hk l hl (hfirst l ((h.isSome hl).symm.trans hl'))

end Image

end PartialMaps
