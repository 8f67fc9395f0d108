import Mathlib.Data.List.Basic
import Mathlib.Algebra.Group.Basic

/-!
# Runs of a step that can fault

A step takes a state and an input and either yields the next state or faults.
A run feeds a finite list of inputs and ends at the first fault. `Along` states
a side condition on every state and input met on the way; `Throughout` states
what holds after every prefix of the inputs, fault-freedom included.
-/

namespace CheckedRuns

universe u v w
variable {σ τ : Type u} {μ : Type v} {ε δ : Type w}

/-- Feed the inputs in order; the first fault ends the run. -/
def run (step : σ → μ → Except ε σ) : σ → List μ → Except ε σ
  | s, [] => .ok s
  | s, m :: ms => match step s m with
    | .ok s' => run step s' ms
    | .error e => .error e

/-- `P` holds of every state and input met along the run. -/
def Along (step : σ → μ → Except ε σ) (P : σ → μ → Prop) : σ → List μ → Prop
  | _, [] => True
  | s, m :: ms => P s m ∧ match step s m with
    | .ok s' => Along step P s' ms
    | .error _ => True

instance decidableAlong (step : σ → μ → Except ε σ) (P : σ → μ → Prop)
    [∀ s m, Decidable (P s m)] : ∀ s ms, Decidable (Along step P s ms)
  | _, [] => .isTrue trivial
  | s, m :: ms =>
    match h : step s m with
    | .ok s' =>
      have := decidableAlong step P s' ms
      decidable_of_iff (P s m ∧ Along step P s' ms) (by simp [Along, h])
    | .error _ => decidable_of_iff (P s m) (by simp [Along, h])

/-- No prefix of the inputs faults, and `Q` holds of the state after each of them. -/
def Throughout (step : σ → μ → Except ε σ) (Q : σ → Prop) (s : σ) (ms : List μ) : Prop :=
  ∀ pre, pre <+: ms → ∃ s', run step s pre = .ok s' ∧ Q s'

@[simp] theorem run_nil (step : σ → μ → Except ε σ) (s : σ) : run step s [] = .ok s := rfl

theorem run_cons_ok {step : σ → μ → Except ε σ} {s s' : σ} {m : μ}
    (h : step s m = .ok s') (ms : List μ) : run step s (m :: ms) = run step s' ms := by
  simp only [run, h]

theorem run_cons_error {step : σ → μ → Except ε σ} {s : σ} {m : μ} {e : ε}
    (h : step s m = .error e) (ms : List μ) : run step s (m :: ms) = .error e := by
  simp only [run, h]

theorem run_singleton (step : σ → μ → Except ε σ) (s : σ) (m : μ) :
    run step s [m] = step s m := by
  simp only [run]
  cases step s m <;> rfl

theorem run_append (step : σ → μ → Except ε σ) (s : σ) (xs ys : List μ) :
    run step s (xs ++ ys) = (run step s xs).bind fun t => run step t ys := by
  induction xs generalizing s with
  | nil => rfl
  | cons m ms ih =>
    cases hm : step s m with
    | error e =>
      rw [List.cons_append, run_cons_error hm, run_cons_error hm]
      rfl
    | ok t =>
      rw [List.cons_append, run_cons_ok hm, run_cons_ok hm]
      exact ih t

theorem run_append_ok {step : σ → μ → Except ε σ} {s s' : σ} {xs : List μ}
    (h : run step s xs = .ok s') (ys : List μ) :
    run step s (xs ++ ys) = run step s' ys := by
  rw [run_append, h]
  rfl

theorem run_map {ν : Type v} (step : σ → μ → Except ε σ) (g : ν → μ) (s : σ) (ms : List ν) :
    run step s (ms.map g) = run (fun s m => step s (g m)) s ms := by
  induction ms generalizing s with
  | nil => rfl
  | cons m ms ih =>
    simp only [List.map_cons, run]
    cases step s (g m) with
    | error e => rfl
    | ok t => exact ih t

/-- Inputs on which the step is the identity, wherever the invariant holds, can be left out. -/
theorem run_filter {step : σ → μ → Except ε σ} {Inv : σ → Prop} (keep : μ → Bool)
    (hstep : ∀ s m s', Inv s → step s m = .ok s' → Inv s')
    (skip : ∀ s m, Inv s → keep m = false → step s m = .ok s) {s : σ} (hs : Inv s)
    (ms : List μ) : run step s (ms.filter keep) = run step s ms := by
  induction ms generalizing s with
  | nil => rfl
  | cons m ms ih =>
    cases hk : keep m with
    | false =>
      rw [List.filter_cons_of_neg (by simp [hk]), ih hs, run_cons_ok (skip s m hs hk)]
    | true =>
      rw [List.filter_cons_of_pos hk]
      cases hm : step s m with
      | error e => rw [run_cons_error hm, run_cons_error hm]
      | ok t =>
        rw [run_cons_ok hm, run_cons_ok hm]
        exact ih (hstep s m t hs hm)

/-- The same with an invariant that speaks of the inputs still to come. -/
theorem run_filter_ahead {step : σ → μ → Except ε σ} (keep : μ → Bool) (Inv : σ → List μ → Prop)
    (hstep : ∀ s m ms s', Inv s (m :: ms) → step s m = .ok s' → Inv s' ms)
    (skip : ∀ s m ms, Inv s (m :: ms) → keep m = false → step s m = .ok s) {s : σ}
    {ms : List μ} (hs : Inv s ms) : run step s (ms.filter keep) = run step s ms := by
  induction ms generalizing s with
  | nil => rfl
  | cons m ms ih =>
    cases hkeep : keep m with
    | true =>
      rw [List.filter_cons_of_pos hkeep]
      cases hm : step s m with
      | error e => rw [run_cons_error hm, run_cons_error hm]
      | ok t =>
        rw [run_cons_ok hm, run_cons_ok hm]
        exact ih (hstep s m ms t hs hm)
    | false =>
      have hm := skip s m ms hs hkeep
      rw [List.filter_cons_of_neg (by simp [hkeep]), run_cons_ok hm]
      exact ih (hstep s m ms s hs hm)

theorem along_cons_ok {step : σ → μ → Except ε σ} {P : σ → μ → Prop} {s s' : σ} {m : μ}
    (h : step s m = .ok s') (ms : List μ) :
    Along step P s (m :: ms) ↔ P s m ∧ Along step P s' ms := by
  simp only [Along, h]

theorem along_append {step : σ → μ → Except ε σ} {P : σ → μ → Prop} {s : σ}
    {xs ys : List μ} : Along step P s (xs ++ ys) ↔
      Along step P s xs ∧ ∀ s', run step s xs = .ok s' → Along step P s' ys := by
  induction xs generalizing s with
  | nil => simp [Along]
  | cons m ms ih =>
    cases hm : step s m with
    | error e => simp [Along, run, hm]
    | ok t => simp only [List.cons_append, Along, run, hm, ih, and_assoc]

/-- A prefix of the inputs meets the side condition that the whole list meets. -/
theorem along_initial {step : σ → μ → Except ε σ} {P : σ → μ → Prop} {s : σ}
    {pre ms : List μ} (hpre : pre <+: ms) (h : Along step P s ms) :
    Along step P s pre := by
  obtain ⟨post, rfl⟩ := hpre
  exact (along_append.mp h).1

/-- `Along` read position by position: `P` holds wherever the run gets to. -/
theorem along_iff_forall {step : σ → μ → Except ε σ} {P : σ → μ → Prop} {s : σ}
    {ms : List μ} : Along step P s ms ↔
      ∀ pre m post, ms = pre ++ m :: post → ∀ s', run step s pre = .ok s' → P s' m := by
  constructor
  · rintro h pre m post rfl s' hs'
    exact ((along_append.mp h).2 s' hs').1
  · intro h
    induction ms generalizing s with
    | nil => trivial
    | cons m ms ih =>
      refine ⟨h [] m ms rfl s rfl, ?_⟩
      cases hm : step s m with
      | error e => trivial
      | ok t =>
        apply ih
        rintro pre x post rfl s' hs'
        exact h (m :: pre) x post rfl s' (by rw [run_cons_ok hm]; exact hs')

theorem along_and {step : σ → μ → Except ε σ} {P Q : σ → μ → Prop} {s : σ} {ms : List μ}
    (hP : Along step P s ms) (hQ : Along step Q s ms) :
    Along step (fun s m => P s m ∧ Q s m) s ms := by
  rw [along_iff_forall] at *
  exact fun pre m post heq s' hs' => ⟨hP pre m post heq s' hs', hQ pre m post heq s' hs'⟩

/-- A condition on the inputs alone can be added where it holds of each of them. -/
theorem along_and_forall {step : σ → μ → Except ε σ} {P : σ → μ → Prop} {Q : μ → Prop} {s : σ}
    {ms : List μ} (hP : Along step P s ms) (hQ : ∀ m ∈ ms, Q m) :
    Along step (fun s m => P s m ∧ Q m) s ms := by
  rw [along_iff_forall] at *
  rintro pre m post rfl s' hs'
  exact ⟨hP pre m post rfl s' hs', hQ m (by simp)⟩

/-- What grows by at most one with every input is bounded by their number. -/
theorem foldl_le_length (size : τ → ℕ) {next : τ → μ → τ}
    (hstep : ∀ t m, size (next t m) ≤ size t + 1) (t : τ) (ms : List μ) :
    size (ms.foldl next t) ≤ size t + ms.length := by
  induction ms generalizing t with
  | nil => exact Nat.le_refl _
  | cons m ms ih =>
    have hone := hstep t m
    have hrest := ih (next t m)
    rw [List.foldl_cons, List.length_cons]
    omega

/-- The number of inputs that meet a condition on them and on those before them. -/
def countAfter (P : List μ → μ → Bool) : List μ → List μ → ℕ
  | _, [] => 0
  | seen, m :: ms => (if P seen m then 1 else 0) + countAfter P (seen ++ [m]) ms

theorem countAfter_concat (P : List μ → μ → Bool) (seen ms : List μ) (m : μ) :
    countAfter P seen (ms ++ [m]) =
      countAfter P seen ms + if P (seen ++ ms) m then 1 else 0 := by
  induction ms generalizing seen with
  | nil => simp [countAfter]
  | cons x ms ih => simp [countAfter, ih, Nat.add_assoc]

theorem countAfter_le_countP {P : List μ → μ → Bool} {Q : μ → Bool}
    (h : ∀ seen m, P seen m = true → Q m = true) (seen ms : List μ) :
    countAfter P seen ms ≤ ms.countP Q := by
  induction ms generalizing seen with
  | nil => exact Nat.le_refl _
  | cons m ms ih =>
    have hrest := ih (seen ++ [m])
    rw [countAfter, List.countP_cons]
    by_cases hm : P seen m = true
    · rw [if_pos hm, if_pos (h seen m hm)]
      omega
    · rw [if_neg hm]
      omega

/-- A condition that does not look back counts as usual. -/
theorem countAfter_eq_countP (Q : μ → Bool) (seen ms : List μ) :
    countAfter (fun _ m => Q m) seen ms = ms.countP Q := by
  induction ms generalizing seen with
  | nil => rfl
  | cons m ms ih => rw [countAfter, List.countP_cons, ih, Nat.add_comm]

/-- A run stays at its starting state after every input exactly when no input moves it. -/
theorem throughout_still {step : σ → μ → Except ε σ} {s : σ} {ms : List μ} :
    Throughout step (· = s) s ms ↔ ∀ m ∈ ms, step s m = .ok s := by
  constructor
  · intro h m hm
    obtain ⟨pre, post, rfl⟩ := List.append_of_mem hm
    obtain ⟨t, ht, rfl⟩ := h pre (List.prefix_append pre _)
    obtain ⟨u, hu, rfl⟩ := h (pre ++ [m]) ⟨post, by simp⟩
    rw [run_append_ok ht, run_singleton] at hu
    exact hu
  · intro h
    induction ms with
    | nil =>
      intro pre hpre
      rw [List.prefix_nil.mp hpre]
      exact ⟨s, rfl, rfl⟩
    | cons m ms ih =>
      intro pre hpre
      rcases List.prefix_cons_iff.mp hpre with rfl | ⟨rest, rfl, hrest⟩
      · exact ⟨s, rfl, rfl⟩
      · rw [run_cons_ok (h m List.mem_cons_self)]
        exact ih (fun x hx => h x (List.mem_cons_of_mem m hx)) rest hrest

section Induction

variable {step : σ → μ → Except ε σ} {P : σ → μ → Prop} {Inv : σ → Prop}

/-- An invariant about the inputs seen so far, kept by every step that meets the side
condition, holds of the whole run. -/
theorem run_history_along {R : σ → List μ → Prop}
    (hstep : ∀ s seen m, R s seen → P s m → ∃ s', step s m = .ok s' ∧ R s' (seen ++ [m]))
    {s : σ} {seen ms : List μ} (hR : R s seen) (h : Along step P s ms) :
    ∃ s', run step s ms = .ok s' ∧ R s' (seen ++ ms) := by
  induction ms generalizing s seen with
  | nil => exact ⟨s, rfl, by rwa [List.append_nil]⟩
  | cons m ms ih =>
    obtain ⟨t, ht, hRt⟩ := hstep s seen m hR h.1
    rw [run_cons_ok ht, ← List.singleton_append, ← List.append_assoc]
    exact ih hRt ((along_cons_ok ht ms).mp h).2

theorem run_history {R : σ → List μ → Prop} {ms : List μ}
    (hstep : ∀ s seen m, m ∈ ms → R s seen → ∃ s', step s m = .ok s' ∧ R s' (seen ++ [m]))
    {s : σ} {seen : List μ} (hR : R s seen) :
    ∃ s', run step s ms = .ok s' ∧ R s' (seen ++ ms) := by
  refine run_history_along (P := fun _ m => m ∈ ms)
    (fun s seen m hR hm => hstep s seen m hm hR) hR ?_
  rw [along_iff_forall]
  rintro pre m post rfl _ _
  simp

/-- One step that cannot fault and keeps the invariant gives whole runs of that kind. -/
theorem run_invariant (hstep : ∀ s m, Inv s → P s m → ∃ s', step s m = .ok s' ∧ Inv s')
    {s : σ} (hs : Inv s) {ms : List μ} (h : Along step P s ms) :
    ∃ s', run step s ms = .ok s' ∧ Inv s' :=
  @run_history_along σ μ ε step P (fun s _ => Inv s) (fun s _ m hs hm => hstep s m hs hm)
    s [] ms hs h

theorem throughout_invariant
    (hstep : ∀ s m, Inv s → P s m → ∃ s', step s m = .ok s' ∧ Inv s')
    {s : σ} (hs : Inv s) {ms : List μ} (h : Along step P s ms) :
    Throughout step Inv s ms :=
  fun _ hpre => run_invariant hstep hs (along_initial hpre h)

theorem throughout_mono {Q : σ → Prop} (hQ : ∀ s, Inv s → Q s) {s : σ} {ms : List μ}
    (h : Throughout step Inv s ms) : Throughout step Q s ms := by
  intro pre hpre
  obtain ⟨s', hs', hInv⟩ := h pre hpre
  exact ⟨s', hs', hQ s' hInv⟩

/-- Where each step keeps a property exactly under a condition, a run keeps it throughout
exactly when every step meets the condition. -/
theorem throughout_iff_along {Q : σ → Prop} {C : σ → μ → Prop}
    (hstep : ∀ s m, Inv s → Q s → P s m →
      ∃ s', step s m = .ok s' ∧ Inv s' ∧ (Q s' ↔ C s m))
    {s : σ} (hs : Inv s) (hQ : Q s) {ms : List μ} (h : Along step P s ms) :
    Throughout step Q s ms ↔ Along step C s ms := by
  constructor
  · intro hthroughout
    induction ms generalizing s with
    | nil => trivial
    | cons m ms ih =>
      obtain ⟨t, ht, hInv, hiff⟩ := hstep s m hs hQ h.1
      have htail := ((along_cons_ok ht ms).mp h).2
      have hafter : Throughout step Q t ms := by
        intro pre hpre
        have hrun := hthroughout (m :: pre) ((List.prefix_cons_inj m).mpr hpre)
        rwa [run_cons_ok ht] at hrun
      obtain ⟨u, hu, hQt⟩ := hafter [] List.nil_prefix
      obtain rfl := Except.ok.inj hu
      exact (along_cons_ok ht ms).mpr ⟨hiff.mp hQt, ih hInv hQt htail hafter⟩
  · intro hcond
    have hboth : Throughout step (fun s => Inv s ∧ Q s) s ms := by
      refine throughout_invariant ?_ ⟨hs, hQ⟩ (along_and h hcond)
      rintro s m ⟨hs, hQ⟩ ⟨hP, hC⟩
      obtain ⟨t, ht, hInv, hiff⟩ := hstep s m hs hQ hP
      exact ⟨t, ht, hInv, hiff.mpr hC⟩
    exact throughout_mono (fun s hs => hs.2) hboth

end Induction

/-- A step that only adds checks to another one: under the condition both do the same, and
without it the checks stop the run. The run with checks ends where the plain one does, or
at a check, and which of the two is decided by the states of the plain run. -/
theorem run_checked {checked plain : σ → μ → Except ε σ} {Inv : σ → Prop} {C : σ → μ → Prop}
    {Stops : ε → Prop} {ms : List μ}
    (hplain : ∀ s, ∀ m ∈ ms, Inv s → ∃ s', plain s m = .ok s' ∧ Inv s')
    (hsame : ∀ s, ∀ m ∈ ms, Inv s → C s m → checked s m = plain s m)
    (hstops : ∀ s, ∀ m ∈ ms, Inv s → ¬ C s m → ∃ e, checked s m = .error e ∧ Stops e)
    {s : σ} (hs : Inv s) :
    ∃ s', run plain s ms = .ok s' ∧ Inv s' ∧
      (Along plain C s ms ∧ run checked s ms = .ok s' ∨
        ¬ Along plain C s ms ∧ ∃ e, run checked s ms = .error e ∧ Stops e) := by
  induction ms generalizing s with
  | nil => exact ⟨s, rfl, hs, Or.inl ⟨trivial, rfl⟩⟩
  | cons m ms ih =>
    obtain ⟨t, ht, hInv⟩ := hplain s m List.mem_cons_self hs
    obtain ⟨s', hs', hInv', hcases⟩ :=
      ih (fun u x hx => hplain u x (List.mem_cons_of_mem m hx))
        (fun u x hx => hsame u x (List.mem_cons_of_mem m hx))
        (fun u x hx => hstops u x (List.mem_cons_of_mem m hx)) hInv
    refine ⟨s', (run_cons_ok ht ms).trans hs', hInv', ?_⟩
    rw [along_cons_ok ht]
    by_cases hC : C s m
    · have hchecked : checked s m = .ok t := (hsame s m List.mem_cons_self hs hC).trans ht
      rw [run_cons_ok hchecked]
      rcases hcases with ⟨halong, hrun⟩ | ⟨hbroken, hrun⟩
      · exact Or.inl ⟨⟨hC, halong⟩, hrun⟩
      · exact Or.inr ⟨fun hboth => hbroken hboth.2, hrun⟩
    · obtain ⟨e, he, hstop⟩ := hstops s m List.mem_cons_self hs hC
      exact Or.inr ⟨fun hboth => hC hboth.1, e, run_cons_error he ms, hstop⟩

section Balance

variable {M : Type*} [AddCommMonoid M]

/-- The sum of a quantity over every state and input met along the run. -/
def accumulate (step : σ → μ → Except ε σ) (f : σ → μ → M) : σ → List μ → M
  | _, [] => 0
  | s, m :: ms => f s m + match step s m with
    | .ok s' => accumulate step f s' ms
    | .error _ => 0

theorem accumulate_cons_ok {step : σ → μ → Except ε σ} {f : σ → μ → M} {s s' : σ} {m : μ}
    (h : step s m = .ok s') (ms : List μ) :
    accumulate step f s (m :: ms) = f s m + accumulate step f s' ms := by
  simp only [accumulate, h]

theorem accumulate_add (step : σ → μ → Except ε σ) (f g : σ → μ → M) (s : σ) (ms : List μ) :
    accumulate step (fun s m => f s m + g s m) s ms =
      accumulate step f s ms + accumulate step g s ms := by
  induction ms generalizing s with
  | nil => exact (add_zero 0).symm
  | cons m ms ih =>
    cases hm : step s m with
    | error e => simp [accumulate, hm]
    | ok t =>
      rw [accumulate_cons_ok hm, accumulate_cons_ok hm, accumulate_cons_ok hm, ih,
        add_add_add_comm]

/-- What every step relates, along with a quantity that adds up, a run relates along with the
quantity accumulated on the way. -/
theorem run_relates {step : σ → μ → Except ε σ} {f : σ → μ → M} {Inv : σ → Prop}
    {R : M → σ → σ → Prop} (hrefl : ∀ s, Inv s → R 0 s s)
    (htrans : ∀ x y s t u, Inv s → R x s t → R y t u → R (x + y) s u)
    (hstep : ∀ s m s', Inv s → step s m = .ok s' → Inv s' ∧ R (f s m) s s')
    {s s' : σ} {ms : List μ} (hs : Inv s) (h : run step s ms = .ok s') :
    Inv s' ∧ R (accumulate step f s ms) s s' := by
  induction ms generalizing s with
  | nil =>
    obtain rfl := Except.ok.inj h
    exact ⟨hs, hrefl s hs⟩
  | cons m ms ih =>
    cases hm : step s m with
    | error e =>
      rw [run_cons_error hm] at h
      cases h
    | ok t =>
      rw [run_cons_ok hm] at h
      obtain ⟨hInv, hR⟩ := hstep s m t hs hm
      obtain ⟨hInv', hR'⟩ := ih hInv h
      rw [accumulate_cons_ok hm]
      exact ⟨hInv', htrans _ _ s t s' hs hR hR'⟩

/-- Books that balance at every step balance over the run. -/
theorem run_balance {step : σ → μ → Except ε σ} {P : σ → μ → Prop} {Inv : σ → Prop}
    {measure : σ → M} {inflow outflow : σ → μ → M}
    (hstep : ∀ s m, Inv s → P s m → ∃ s', step s m = .ok s' ∧ Inv s' ∧
      measure s' + outflow s m = measure s + inflow s m)
    {s : σ} (hs : Inv s) {ms : List μ} (h : Along step P s ms) :
    ∃ s', run step s ms = .ok s' ∧ Inv s' ∧
      measure s' + accumulate step outflow s ms = measure s + accumulate step inflow s ms := by
  induction ms generalizing s with
  | nil => exact ⟨s, rfl, hs, rfl⟩
  | cons m ms ih =>
    obtain ⟨t, ht, hInv, hone⟩ := hstep s m hs h.1
    obtain ⟨s', hs', hInv', hrest⟩ := ih hInv ((along_cons_ok ht ms).mp h).2
    refine ⟨s', (run_cons_ok ht ms).trans hs', hInv', ?_⟩
    rw [accumulate_cons_ok ht, accumulate_cons_ok ht]
    calc measure s' + (outflow s m + accumulate step outflow t ms)
        = outflow s m + (measure s' + accumulate step outflow t ms) := add_left_comm _ _ _
      _ = measure t + outflow s m + accumulate step inflow t ms := by
        rw [hrest, add_left_comm, add_assoc]
      _ = measure s + (inflow s m + accumulate step inflow t ms) := by
        rw [hone, add_assoc]

end Balance

/-- A faulting step runs in lockstep with a plain fold that it refines. -/
theorem run_refinement {step : σ → μ → Except ε σ} {next : τ → μ → τ} {P : τ → μ → Prop}
    {R : σ → τ → Prop}
    (hstep : ∀ s t m, R s t → P t m → ∃ s', step s m = .ok s' ∧ R s' (next t m))
    {s : σ} {t : τ} (hR : R s t) {ms : List μ}
    (h : Along (fun t m => (.ok (next t m) : Except δ τ)) P t ms) :
    ∃ s', run step s ms = .ok s' ∧ R s' (ms.foldl next t) := by
  induction ms generalizing s t with
  | nil => exact ⟨s, rfl, hR⟩
  | cons m ms ih =>
    obtain ⟨s', hs', hR'⟩ := hstep s t m hR h.1
    rw [run_cons_ok hs']
    exact ih hR' h.2

/-- A call ends with a result that meets `Q`, or with a fault that meets `E`. -/
def Ends {α : Type*} (Q : α → Prop) (E : ε → Prop) : Except ε α → Prop
  | .ok a => Q a
  | .error e => E e

theorem Ends.bind {α β : Type u} {Q : α → Prop} {Q' : β → Prop} {E : ε → Prop}
    {call : Except ε α} (h : Ends Q E call) {next : α → Except ε β}
    (hnext : ∀ a, Q a → Ends Q' E (next a)) : Ends Q' E (call >>= next) := by
  cases call with
  | error e => exact h
  | ok a => exact hnext a h

/-- A step that ends well or with a fault it may end with, in lockstep with a plain fold. -/
theorem run_ends {step : σ → μ → Except ε σ} {next : τ → μ → τ} {R : σ → τ → Prop}
    {E : ε → Prop} {ms : List μ}
    (hstep : ∀ s t, ∀ m ∈ ms, R s t → Ends (fun s' => R s' (next t m)) E (step s m))
    {s : σ} {t : τ} (hR : R s t) :
    Ends (fun s' => R s' (ms.foldl next t)) E (run step s ms) := by
  induction ms generalizing s t with
  | nil => exact hR
  | cons m ms ih =>
    have hone := hstep s t m List.mem_cons_self hR
    cases hm : step s m with
    | error e =>
      rw [hm] at hone
      rw [run_cons_error hm]
      exact hone
    | ok s' =>
      rw [hm] at hone
      rw [run_cons_ok hm]
      exact ih (fun s t x hx => hstep s t x (List.mem_cons_of_mem m hx)) hone

/-- Two calls that both return, with results so related, or both stop at the same fault. -/
def Alike {α : Type*} {β : Type*} (R : α → β → Prop) : Except ε α → Except ε β → Prop
  | .ok a, .ok b => R a b
  | .error e, .error e' => e = e'
  | _, _ => False

theorem Alike.mono {α : Type*} {β : Type*} {R R' : α → β → Prop} {call : Except ε α}
    {call' : Except ε β} (h : Alike R call call') (hR : ∀ a b, R a b → R' a b) :
    Alike R' call call' := by
  cases call with
  | error e =>
    cases call' with
    | error e' => exact h
    | ok b => exact h.elim
  | ok a =>
    cases call' with
    | error e' => exact h.elim
    | ok b => exact hR a b h

/-- Steps alike on inputs that correspond make runs alike. -/
theorem run_alike {ν : Type*} {step : σ → μ → Except ε σ} {step' : τ → ν → Except ε τ}
    (R : σ → τ → Prop) (f : μ → ν) {ms : List μ}
    (hstep : ∀ s t, ∀ m ∈ ms, R s t → Alike R (step s m) (step' t (f m)))
    {s : σ} {t : τ} (hR : R s t) : Alike R (run step s ms) (run step' t (ms.map f)) := by
  induction ms generalizing s t with
  | nil => exact hR
  | cons m ms ih =>
    have hone := hstep s t m List.mem_cons_self hR
    rw [List.map_cons]
    cases hm : step s m with
    | error e =>
      cases hm' : step' t (f m) with
      | error e' =>
        rw [hm, hm'] at hone
        rw [run_cons_error hm, run_cons_error hm']
        exact hone
      | ok t' =>
        rw [hm, hm'] at hone
        exact hone.elim
    | ok s' =>
      cases hm' : step' t (f m) with
      | error e' =>
        rw [hm, hm'] at hone
        exact hone.elim
      | ok t' =>
        rw [hm, hm'] at hone
        rw [run_cons_ok hm, run_cons_ok hm']
        exact ih (fun s t k hk => hstep s t k (List.mem_cons_of_mem m hk)) hone

end CheckedRuns
