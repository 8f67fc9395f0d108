import Mathlib.Algebra.Order.Ring.Nat
import Mathlib.Data.List.Lex
import Mathlib.Data.Nat.Log

/-!
# Zero-padded decimals

The decimal digits of a number, most significant first, at a fixed width or at a
least width. At a fixed width the order of the texts is the order of the numbers,
and texts of several fixed-width blocks are compared block by block.
-/

namespace Decimals

/-- The last `w` digits. -/
def fixed : ℕ → ℕ → List Char
  | 0, _ => []
  | w + 1, n => Nat.digitChar (n / 10 ^ w % 10) :: fixed w n

/-- How many digits a number has. -/
def width (n : ℕ) : ℕ := Nat.log 10 n + 1

/-- All the digits, and zeros in front of them up to `w`; `%0wllu`. -/
def padded (w n : ℕ) : List Char := fixed (max w (width n)) n

theorem length_fixed (w n : ℕ) : (fixed w n).length = w := by
  induction w with
  | zero => rfl
  | succ w ih => rw [fixed, List.length_cons, ih]

theorem digitChar_lt_iff : ∀ d < 10, ∀ e < 10,
    (Nat.digitChar d < Nat.digitChar e ↔ d < e) ∧
      (Nat.digitChar d = Nat.digitChar e ↔ d = e) := by
  decide

/-- Two-digit comparison, with digits of the size of `p`. -/
theorem block_lt_iff {a b r s p : ℕ} (hr : r < p) (hs : s < p) :
    r + p * a < s + p * b ↔ a < b ∨ a = b ∧ r < s := by
  constructor
  · intro h
    rcases Nat.lt_trichotomy a b with hlt | rfl | hgt
    · exact Or.inl hlt
    · exact Or.inr ⟨rfl, Nat.lt_of_add_lt_add_right h⟩
    · have hmul : p * (b + 1) ≤ p * a := Nat.mul_le_mul_left p hgt
      rw [Nat.mul_add, Nat.mul_one] at hmul
      omega
  · rintro (hlt | ⟨rfl, hlt⟩)
    · have hmul : p * (a + 1) ≤ p * b := Nat.mul_le_mul_left p hlt
      rw [Nat.mul_add, Nat.mul_one] at hmul
      omega
    · omega

theorem fixed_lt_iff_mod (w n m : ℕ) :
    fixed w n < fixed w m ↔ n % 10 ^ w < m % 10 ^ w := by
  induction w with
  | zero => simp [fixed, Nat.mod_one]
  | succ w ih =>
    have hpos : 0 < 10 ^ w := Nat.pow_pos (by decide)
    obtain ⟨hlt, heq⟩ := digitChar_lt_iff _ (Nat.mod_lt (n / 10 ^ w) (by decide)) _
      (Nat.mod_lt (m / 10 ^ w) (by decide))
    rw [fixed, fixed, List.cons_lt_cons_iff, hlt, heq, ih, Nat.mod_pow_succ, Nat.mod_pow_succ,
      block_lt_iff (Nat.mod_lt n hpos) (Nat.mod_lt m hpos)]

/-- At a width both numbers fit, texts are in the order of the numbers. -/
theorem fixed_lt_iff {w n m : ℕ} (hn : n < 10 ^ w) (hm : m < 10 ^ w) :
    fixed w n < fixed w m ↔ n < m := by
  rw [fixed_lt_iff_mod, Nat.mod_eq_of_lt hn, Nat.mod_eq_of_lt hm]

theorem fixed_inj {w n m : ℕ} (hn : n < 10 ^ w) (hm : m < 10 ^ w) :
    fixed w n = fixed w m ↔ n = m := by
  constructor
  · intro h
    rcases Nat.lt_trichotomy n m with hlt | heq | hgt
    · exact absurd (h ▸ (fixed_lt_iff hn hm).mpr hlt) (List.lt_irrefl _)
    · exact heq
    · exact absurd (h ▸ (fixed_lt_iff hm hn).mpr hgt) (List.lt_irrefl _)
  · rintro rfl
    rfl

theorem lt_pow_width (n : ℕ) : n < 10 ^ width n := Nat.lt_pow_succ_log_self (by decide) n

theorem width_le {n k : ℕ} (hk : 0 < k) (h : n < 10 ^ k) : width n ≤ k :=
  Nat.log_lt_of_lt_pow' hk.ne' h

/-- A number that fits is padded to the width. -/
theorem padded_eq_fixed {w n : ℕ} (hw : 0 < w) (h : n < 10 ^ w) : padded w n = fixed w n := by
  rw [padded, Nat.max_eq_left (width_le hw h)]

theorem length_padded (w n : ℕ) : (padded w n).length = max w (width n) := length_fixed _ _

theorem padded_inj {w n m : ℕ} (h : padded w n = padded w m) : n = m := by
  have hlen : max w (width n) = max w (width m) := by
    rw [← length_padded, ← length_padded, h]
  have hn : n < 10 ^ max w (width n) :=
    (lt_pow_width n).trans_le (Nat.pow_le_pow_right (by decide) (Nat.le_max_right _ _))
  have hm : m < 10 ^ max w (width m) :=
    (lt_pow_width m).trans_le (Nat.pow_le_pow_right (by decide) (Nat.le_max_right _ _))
  rw [padded, padded, ← hlen] at h
  exact (fixed_inj hn (hlen ▸ hm)).mp h

/-- Blocks of the same length are compared first. -/
theorem append_lt_iff {α : Type*} [LT α] {a b x y : List α} (h : a.length = b.length) :
    a ++ x < b ++ y ↔ a < b ∨ a = b ∧ x < y := by
  induction a generalizing b with
  | nil =>
    obtain rfl : b = [] := List.length_eq_zero_iff.mp h.symm
    simp
  | cons c a ih =>
    cases b with
    | nil => cases h
    | cons d b =>
      rw [List.cons_append, List.cons_append, List.cons_lt_cons_iff, List.cons_lt_cons_iff,
        ih (Nat.succ.inj h), List.cons.injEq]
      constructor
      · rintro (hlt | ⟨rfl, hlt | ⟨rfl, hlt⟩⟩)
        · exact Or.inl (Or.inl hlt)
        · exact Or.inl (Or.inr ⟨rfl, hlt⟩)
        · exact Or.inr ⟨⟨rfl, rfl⟩, hlt⟩
      · rintro ((hlt | ⟨rfl, hlt⟩) | ⟨⟨rfl, rfl⟩, hlt⟩)
        · exact Or.inl hlt
        · exact Or.inr ⟨rfl, Or.inl hlt⟩
        · exact Or.inr ⟨rfl, Or.inr ⟨rfl, hlt⟩⟩

end Decimals
