import ItchOrderbook.DictSums
import ItchOrderbook.ReferenceBook

/-!
# The level maps of the Python reference book

A level is created with its first order and deleted when its total reaches 0.
An order of 0 shares may then be left without a level. The maps agree with the
orders exactly as long as no call brings a total to 0 under such an order.
-/

namespace Itch

open CheckedRuns DictSums

/-- One call of a method of `Book`, with the arguments of the script. -/
inductive ReferenceCall
  | add (reference : ℕ) (side : Char) (price shares : ℕ)
  | execute (reference shares : ℕ)
  | cancel (reference shares : ℕ)
  | delete (reference : ℕ)
  | replace (original new shares price : ℕ)
deriving DecidableEq, Repr

namespace ReferenceBook

def call (book : ReferenceBook) : ReferenceCall → Except Raised ReferenceBook
  | .add reference side price shares => .ok (book.add reference side price shares)
  | .execute reference shares => book.execute reference shares
  | .cancel reference shares => book.cancel reference shares
  | .delete reference => book.delete reference
  | .replace original new shares price => book.replace original new shares price

/-- Some order rests at the side and price. -/
def Occupied (book : ReferenceBook) (side : Char) (price : ℕ) : Prop :=
  ∃ (reference : ℕ) (order : PyOrder), book.orders[reference]? = some order ∧ order.At side price

/-- The shares of the orders at the side and price. -/
def restingShares (book : ReferenceBook) (side : Char) (price : ℕ) : ℤ :=
  sumOver (fun order : PyOrder => if order.At side price then order.shares else 0) book.orders

/-- A level map has the price exactly when an order rests there, with the sum of their shares. -/
structure AgreesAt (book : ReferenceBook) (side : Char) (price : ℕ) : Prop where
  key : ((book.levels side)[price]?).isSome = true ↔ book.Occupied side price
  total : ∀ total, (book.levels side)[price]? = some total →
    total = book.restingShares side price

def Consistent (book : ReferenceBook) : Prop := ∀ side price, book.AgreesAt side price

/-- Inserted references are not resting, or freed by the call; reductions fit. -/
def Permitted (book : ReferenceBook) : ReferenceCall → Prop
  | .add reference _ _ _ => book.orders[reference]? = none
  | .execute reference shares => ∀ order ∈ book.orders[reference]?, (shares : ℤ) ≤ order.shares
  | .cancel reference shares => ∀ order ∈ book.orders[reference]?, (shares : ℤ) ≤ order.shares
  | .delete _ => True
  | .replace original new _ _ =>
    book.orders[original]? = none ∨ new = original ∨ book.orders[new]? = none

instance decidablePermitted (book : ReferenceBook) : ∀ c, Decidable (book.Permitted c)
  | .add reference _ _ _ => inferInstanceAs (Decidable (book.orders[reference]? = none))
  | .execute reference shares => inferInstanceAs
      (Decidable (∀ order ∈ book.orders[reference]?, (shares : ℤ) ≤ order.shares))
  | .cancel reference shares => inferInstanceAs
      (Decidable (∀ order ∈ book.orders[reference]?, (shares : ℤ) ≤ order.shares))
  | .delete _ => inferInstanceAs (Decidable True)
  | .replace original new _ _ => inferInstanceAs (Decidable
      (book.orders[original]? = none ∨ new = original ∨ book.orders[new]? = none))

/-- Another order rests at the side and price of this one. -/
def Shared (book : ReferenceBook) (reference : ℕ) (order : PyOrder) : Prop :=
  ∃ (other : ℕ) (x : PyOrder), other ≠ reference ∧ book.orders[other]? = some x ∧
    x.At order.side order.price

/-- No total is brought to 0 while another order rests under it; a replace may do so where it
puts the order back. -/
def Settles (book : ReferenceBook) : ReferenceCall → Prop
  | .add _ _ _ _ => True
  | .execute reference shares => ∀ order ∈ book.orders[reference]?,
    (shares : ℤ) = book.restingShares order.side order.price → ¬ book.Shared reference order
  | .cancel reference shares => ∀ order ∈ book.orders[reference]?,
    (shares : ℤ) = book.restingShares order.side order.price → ¬ book.Shared reference order
  | .delete reference => ∀ order ∈ book.orders[reference]?,
    order.shares = book.restingShares order.side order.price → ¬ book.Shared reference order
  | .replace original _ _ price => ∀ order ∈ book.orders[original]?,
    order.shares = book.restingShares order.side order.price →
      price = order.price ∨ ¬ book.Shared original order

/-- No order has fewer than 0 shares. -/
def Nonneg (book : ReferenceBook) : Prop :=
  ∀ (reference : ℕ) (order : PyOrder), book.orders[reference]? = some order → 0 ≤ order.shares

theorem restingShares_at (book : ReferenceBook) {order : PyOrder} {side : Char} {price : ℕ}
    (h : order.At side price) :
    book.restingShares side price = book.restingShares order.side order.price := by
  simp only [restingShares, h.at_iff]

theorem agreesAt_at (book : ReferenceBook) {order : PyOrder} {side : Char} {price : ℕ}
    (h : order.At side price) :
    book.AgreesAt side price ↔ book.AgreesAt order.side order.price := by
  have hoccupied : book.Occupied side price ↔ book.Occupied order.side order.price := by
    simp only [Occupied, h.at_iff]
  constructor
  · rintro ⟨hkey, htotal⟩
    rw [book.levels_at h] at hkey htotal
    rw [book.restingShares_at h] at htotal
    exact ⟨hkey.trans hoccupied, htotal⟩
  · rintro ⟨hkey, htotal⟩
    refine ⟨?_, ?_⟩
    · rw [book.levels_at h, hoccupied, hkey]
    · rw [book.levels_at h, book.restingShares_at h]
      exact htotal

theorem Consistent.of_containers {book book' : ReferenceBook} (h : book.Consistent)
    (horders : book'.orders = book.orders)
    (hlevels : ∀ side, book'.levels side = book.levels side) : book'.Consistent := by
  intro side price
  have hplace := h side price
  constructor
  · rw [hlevels, hplace.key, Occupied, Occupied, horders]
  · rw [hlevels, restingShares, horders]
    exact hplace.total

theorem consistent_counted (book : ReferenceBook) (t : Tally) :
    (book.counted t).Consistent ↔ book.Consistent := by
  cases t <;> exact ⟨fun h => h.of_containers rfl fun _ => rfl,
    fun h => h.of_containers rfl fun _ => rfl⟩

/-- An order's shares are part of the sum of its place. -/
theorem le_restingShares {book : ReferenceBook} (hnonneg : book.Nonneg) {k : ℕ} {x : PyOrder}
    (hx : book.orders[k]? = some x) {side : Char} {price : ℕ} (hat : x.At side price) :
    x.shares ≤ book.restingShares side price := by
  have hweights : ∀ (j : ℕ) (y : PyOrder), book.orders[j]? = some y →
      0 ≤ if y.At side price then y.shares else 0 := by
    intro j y hy
    split
    · exact hnonneg j y hy
    · exact le_refl 0
  have hle := le_sumOver hweights hx
  rw [if_pos hat] at hle
  exact hle

section Insert

variable {book : ReferenceBook} {reference : ℕ} (order : PyOrder)

theorem insert_occupied (hfree : book.orders[reference]? = none) (side : Char) (price : ℕ) :
    (book.insert reference order.side order.price order.shares).Occupied side price ↔
      order.At side price ∨ book.Occupied side price := by
  simp only [Occupied, insert_orders, Std.ExtTreeMap.getElem?_insert,
    Std.LawfulEqCmp.compare_eq_iff_eq]
  constructor
  · rintro ⟨k, x, hx, hat⟩
    by_cases hk : reference = k
    · rw [if_pos hk] at hx
      rw [Option.some.inj hx]
      exact Or.inl hat
    · rw [if_neg hk] at hx
      exact Or.inr ⟨k, x, hx, hat⟩
  · rintro (hat | ⟨k, x, hx, hat⟩)
    · exact ⟨reference, order, if_pos rfl, hat⟩
    · have hk : ¬ reference = k := by
        rintro rfl
        rw [hfree] at hx
        cases hx
      exact ⟨k, x, by rw [if_neg hk]; exact hx, hat⟩

theorem insert_restingShares (hfree : book.orders[reference]? = none) (side : Char)
    (price : ℕ) :
    (book.insert reference order.side order.price order.shares).restingShares side price =
      (if order.At side price then order.shares else 0) + book.restingShares side price := by
  rw [restingShares, insert_orders, sumOver_insert_new _ hfree, restingShares]

/-- An insertion settles its own place, whatever the map said there, if its total was right. -/
theorem insert_agreesAt (hfree : book.orders[reference]? = none) {side : Char} {price : ℕ}
    (hat : order.At side price) (htotal : (book.levels order.side).getD order.price 0 =
      book.restingShares order.side order.price) :
    (book.insert reference order.side order.price order.shares).AgreesAt side price := by
  have hplace := book.restingShares_at hat
  constructor
  · rw [insert_levels, if_pos hat, insert_occupied order hfree]
    simp [hat]
  · intro total hlevel
    rw [insert_levels, if_pos hat, htotal] at hlevel
    rw [insert_restingShares order hfree, if_pos hat, hplace, ← Option.some.inj hlevel]
    omega

theorem insert_agreesAt_elsewhere (hfree : book.orders[reference]? = none) {side : Char}
    {price : ℕ} (hat : ¬ order.At side price) :
    (book.insert reference order.side order.price order.shares).AgreesAt side price ↔
      book.AgreesAt side price := by
  have hshares := insert_restingShares order hfree side price
  have hoccupied := insert_occupied order hfree side price
  rw [if_neg hat, zero_add] at hshares
  have hlevel := insert_levels book reference order side price
  rw [if_neg hat] at hlevel
  constructor
  · rintro ⟨hkey, htotal⟩
    rw [hlevel, hoccupied] at hkey
    rw [hlevel, hshares] at htotal
    exact ⟨by simpa [hat] using hkey, htotal⟩
  · rintro ⟨hkey, htotal⟩
    refine ⟨?_, ?_⟩
    · rw [hlevel, hoccupied, hkey]
      simp [hat]
    · rw [hlevel, hshares]
      exact htotal

/-- Where a place agrees, a missing total counts as 0. -/
theorem AgreesAt.getD {side : Char} {price : ℕ} (h : book.AgreesAt side price) :
    (book.levels side).getD price 0 = book.restingShares side price := by
  rw [Std.ExtTreeMap.getD_eq_getD_getElem?]
  cases hlevel : (book.levels side)[price]? with
  | some total => exact h.total total hlevel
  | none =>
    have hempty : ¬ book.Occupied side price := by
      rw [← h.key, hlevel]
      simp
    symm
    apply sumOver_eq_zero
    intro k x hx
    exact if_neg fun hat => hempty ⟨k, x, hx, hat⟩

end Insert

section Reduce

variable {book book' : ReferenceBook} {reference : ℕ} {order : PyOrder} {removed total : ℤ}
  {removeAll : Bool}

namespace Reduced

theorem nonneg (h : Reduced book book' reference order removed total removeAll)
    (hnonneg : book.Nonneg) (hfits : removed ≤ order.shares) : book'.Nonneg := by
  intro k x hx
  rw [h.lookup] at hx
  by_cases hk : reference = k
  · rw [if_pos hk] at hx
    split at hx
    · cases hx
    · rw [← Option.some.inj hx]
      change 0 ≤ order.shares - removed
      omega
  · rw [if_neg hk] at hx
    exact hnonneg k x hx

/-- The shares removed are those missing from the sum of the place. -/
theorem restingShares (h : Reduced book book' reference order removed total removeAll)
    (horder : book.orders[reference]? = some order)
    (hall : removeAll = true → removed = order.shares) (side : Char) (price : ℕ) :
    book'.restingShares side price =
      book.restingShares side price - if order.At side price then removed else 0 := by
  rw [ReferenceBook.restingShares, ReferenceBook.restingShares,
    sumOver_split (fun x : PyOrder => if x.At side price then x.shares else 0) horder, h.orders]
  by_cases hgone : (removeAll || order.shares - removed = 0) = true
  · have hremoved : removed = order.shares := by
      rcases Bool.or_eq_true_iff.mp hgone with hb | hz
      · exact hall hb
      · have hzero := of_decide_eq_true hz
        omega
    rw [if_pos hgone, hremoved]
    omega
  · have hat : PyOrder.At { order with shares := order.shares - removed } side price ↔
        order.At side price := Iff.rfl
    rw [if_neg hgone, sumOver_insert]
    simp only [hat]
    split <;> omega

theorem occupied_elsewhere (h : Reduced book book' reference order removed total removeAll)
    (horder : book.orders[reference]? = some order) {side : Char} {price : ℕ}
    (hat : ¬ order.At side price) :
    book'.Occupied side price ↔ book.Occupied side price := by
  constructor
  · rintro ⟨k, x, hx, hplace⟩
    rw [h.lookup] at hx
    by_cases hk : reference = k
    · rw [if_pos hk] at hx
      split at hx
      · cases hx
      · rw [← Option.some.inj hx] at hplace
        exact absurd hplace hat
    · rw [if_neg hk] at hx
      exact ⟨k, x, hx, hplace⟩
  · rintro ⟨k, x, hx, hplace⟩
    have hk : ¬ reference = k := by
      rintro rfl
      rw [horder] at hx
      rw [← Option.some.inj hx] at hplace
      exact hat hplace
    exact ⟨k, x, by rw [h.lookup, if_neg hk]; exact hx, hplace⟩

/-- A place the order does not rest at is left alone. -/
theorem agreesAt_elsewhere (h : Reduced book book' reference order removed total removeAll)
    (horder : book.orders[reference]? = some order)
    (hall : removeAll = true → removed = order.shares) {side : Char} {price : ℕ}
    (hat : ¬ order.At side price) :
    book'.AgreesAt side price ↔ book.AgreesAt side price := by
  have hlevel := h.levels side price
  have hshares := h.restingShares horder hall side price
  rw [if_neg hat] at hlevel hshares
  rw [sub_zero] at hshares
  have hoccupied := h.occupied_elsewhere horder hat
  constructor
  · rintro ⟨hkey, hsum⟩
    rw [hlevel] at hkey hsum
    rw [hshares] at hsum
    exact ⟨hkey.trans hoccupied, hsum⟩
  · rintro ⟨hkey, hsum⟩
    refine ⟨?_, ?_⟩
    · rw [hlevel, hoccupied, hkey]
    · rw [hlevel, hshares]
      exact hsum

/-- At its own place the order leaves the sum of the others and of its rest. -/
theorem level_here (h : Reduced book book' reference order removed
      (book.restingShares order.side order.price) removeAll)
    (horder : book.orders[reference]? = some order)
    (hall : removeAll = true → removed = order.shares) :
    (book'.levels order.side)[order.price]? =
      nonzero (book'.restingShares order.side order.price) := by
  rw [h.levels, if_pos order.at_self, h.restingShares horder hall, if_pos order.at_self]

/-- Its own place still agrees unless the total goes to 0 under another order. -/
theorem agreesAt_here (h : Reduced book book' reference order removed
      (book.restingShares order.side order.price) removeAll)
    (horder : book.orders[reference]? = some order)
    (hall : removeAll = true → removed = order.shares) (hnonneg : book'.Nonneg) :
    book'.AgreesAt order.side order.price ↔
      (removed = book.restingShares order.side order.price → ¬ book.Shared reference order) := by
  have hlevel := h.level_here horder hall
  have hshares := h.restingShares horder hall order.side order.price
  rw [if_pos order.at_self] at hshares
  constructor
  · rintro ⟨hkey, _⟩ hemptied ⟨k, x, hk, hx, hat⟩
    have hoccupied : book'.Occupied order.side order.price :=
      ⟨k, x, by rw [h.lookup, if_neg fun heq => hk heq.symm]; exact hx, hat⟩
    have hzero : book'.restingShares order.side order.price = 0 := by omega
    have hsome := hkey.mpr hoccupied
    rw [hlevel, hzero] at hsome
    cases hsome
  · intro hsettles
    constructor
    · rw [hlevel, nonzero]
      by_cases hzero : book'.restingShares order.side order.price = 0
      · rw [if_pos hzero]
        refine iff_of_false (by simp) ?_
        rintro ⟨k, x, hx, hat⟩
        by_cases hk : reference = k
        · -- what is left of the order has shares, so the sum is not 0
          subst hk
          have hle := le_restingShares hnonneg hx hat
          have hpos := hnonneg _ _ hx
          rw [h.lookup, if_pos rfl] at hx
          split at hx
          · cases hx
          · rename_i hstays
            simp only [Bool.or_eq_true, decide_eq_true_eq, not_or] at hstays
            have hrest : x.shares = order.shares - removed := by
              rw [← Option.some.inj hx]
            omega
        · rw [h.lookup, if_neg hk] at hx
          exact hsettles (by omega) ⟨k, x, fun heq => hk heq.symm, hx, hat⟩
      · rw [if_neg hzero]
        refine iff_of_true rfl ?_
        by_contra hempty
        refine hzero (sumOver_eq_zero _ ?_)
        intro k x hx
        exact if_neg fun hat => hempty ⟨k, x, hx, hat⟩
    · intro total htotal
      rw [hlevel, nonzero] at htotal
      split at htotal
      · cases htotal
      · exact (Option.some.inj htotal).symm

end Reduced

end Reduce

section Calls

variable {book : ReferenceBook} {reference : ℕ} {order : PyOrder}

/-- On a consistent book no reduction raises. -/
theorem Consistent.reduceOrRemove (h : book.Consistent) (hnonneg : book.Nonneg)
    (horder : book.orders[reference]? = some order) {n : ℤ} {removeAll : Bool}
    (hfits : removeAll = false → n ≤ order.shares) :
    ∃ book', book.reduceOrRemove reference n removeAll = .ok book' ∧ book'.Nonneg ∧
      Reduced book book' reference order (if removeAll then order.shares else n)
        (book.restingShares order.side order.price) removeAll := by
  have hplace := h order.side order.price
  obtain ⟨total, htotal⟩ := Option.isSome_iff_exists.mp
    (hplace.key.mpr ⟨reference, order, horder, order.at_self⟩)
  obtain ⟨book', hrun, hreduced⟩ := reduceOrRemove_found horder htotal n removeAll
  rw [hplace.total total htotal] at hreduced
  refine ⟨book', hrun, hreduced.nonneg hnonneg ?_, hreduced⟩
  cases removeAll with
  | true => exact le_refl _
  | false => exact hfits rfl

theorem Reduced.consistent_iff {book' : ReferenceBook} {removed : ℤ} {removeAll : Bool}
    (h : Reduced book book' reference order removed
      (book.restingShares order.side order.price) removeAll)
    (hbook : book.Consistent) (hnonneg : book'.Nonneg)
    (horder : book.orders[reference]? = some order)
    (hall : removeAll = true → removed = order.shares) :
    book'.Consistent ↔
      (removed = book.restingShares order.side order.price → ¬ book.Shared reference order) := by
  rw [← h.agreesAt_here horder hall hnonneg]
  constructor
  · exact fun hbook' => hbook' order.side order.price
  · intro hhere side price
    by_cases hat : order.At side price
    · exact (book'.agreesAt_at hat).mpr hhere
    · exact (h.agreesAt_elsewhere horder hall hat).mpr (hbook side price)

/-- Execute, cancel and delete: a reduction, and a tally. -/
theorem Consistent.reduction (h : book.Consistent) (hnonneg : book.Nonneg) (reference : ℕ)
    (n : ℤ) (removeAll : Bool)
    (hfits : removeAll = false → ∀ order ∈ book.orders[reference]?, n ≤ order.shares)
    (t : Tally) :
    ∃ book', (book.reduceOrRemove reference n removeAll).map (·.counted t) = .ok book' ∧
      book'.Nonneg ∧
      (book'.Consistent ↔ ∀ order ∈ book.orders[reference]?,
        (if removeAll then order.shares else n) = book.restingShares order.side order.price →
          ¬ book.Shared reference order) := by
  cases horder : book.orders[reference]? with
  | none =>
    refine ⟨book.counted t, by rw [ReferenceBook.reduceOrRemove, horder]; rfl, ?_, ?_⟩
    · cases t <;> exact hnonneg
    · rw [consistent_counted]
      exact iff_of_true h fun order ho => absurd ho (Option.not_mem_none order)
  | some order =>
    obtain ⟨book', hrun, hnonneg', hreduced⟩ :=
      h.reduceOrRemove hnonneg horder fun hall => hfits hall order horder
    refine ⟨book'.counted t, by rw [hrun]; rfl, ?_, ?_⟩
    · cases t <;> exact hnonneg'
    · rw [consistent_counted,
        hreduced.consistent_iff h hnonneg' horder fun hall => if_pos hall]
      simp

theorem insert_nonneg (hnonneg : book.Nonneg) (hshares : 0 ≤ order.shares) :
    (book.insert reference order.side order.price order.shares).Nonneg := by
  intro k x hx
  rw [insert_orders, Std.ExtTreeMap.getElem?_insert] at hx
  split at hx
  · rw [← Option.some.inj hx]
    exact hshares
  · exact hnonneg k x hx

theorem Consistent.insert (h : book.Consistent) (hfree : book.orders[reference]? = none) :
    (book.insert reference order.side order.price order.shares).Consistent := by
  intro side price
  by_cases hat : order.At side price
  · exact insert_agreesAt order hfree hat (h order.side order.price).getD
  · exact (insert_agreesAt_elsewhere order hfree hat).mpr (h side price)

/-- A replace mends its own price: what it deleted there it writes anew. -/
theorem Reduced.insert_consistent_iff {book' : ReferenceBook}
    (h : Reduced book book' reference order order.shares
      (book.restingShares order.side order.price) true)
    (hbook : book.Consistent) (hnonneg : book'.Nonneg)
    (horder : book.orders[reference]? = some order) {new price : ℕ} (shares : ℤ)
    (hfree : book'.orders[new]? = none) :
    (book'.insert new order.side price shares).Consistent ↔
      (order.shares = book.restingShares order.side order.price →
        price = order.price ∨ ¬ book.Shared reference order) := by
  have hall : true = true → order.shares = order.shares := fun _ => rfl
  have hhere := h.agreesAt_here horder hall hnonneg
  let x : PyOrder := ⟨order.side, price, shares⟩
  constructor
  · intro hafter hemptied
    by_cases hprice : price = order.price
    · exact Or.inl hprice
    · have hat : ¬ x.At order.side order.price := fun hat => hprice hat.2
      exact Or.inr (hhere.mp ((insert_agreesAt_elsewhere x hfree hat).mp
        (hafter order.side order.price)) hemptied)
  · intro hcond side k
    by_cases hat : x.At side k
    · refine insert_agreesAt x hfree hat ?_
      by_cases hprice : price = order.price
      · change (book'.levels order.side).getD price 0 = book'.restingShares order.side price
        rw [hprice, Std.ExtTreeMap.getD_eq_getD_getElem?, h.level_here horder hall, nonzero]
        split
        · rename_i hzero
          exact hzero.symm
        · rfl
      · have hother : ¬ order.At x.side x.price := fun hat => hprice hat.2.symm
        exact ((h.agreesAt_elsewhere horder hall hother).mpr (hbook _ _)).getD
    · refine (insert_agreesAt_elsewhere x hfree hat).mpr ?_
      by_cases hplace : order.At side k
      · refine (book'.agreesAt_at hplace).mpr (hhere.mpr fun hemptied => ?_)
        refine (hcond hemptied).resolve_left ?_
        rintro rfl
        exact hat hplace
      · exact (h.agreesAt_elsewhere horder hall hplace).mpr (hbook side k)

theorem Consistent.replace (h : book.Consistent) (hnonneg : book.Nonneg)
    {original new shares price : ℕ} (hp : book.Permitted (.replace original new shares price)) :
    ∃ book', book.replace original new shares price = .ok book' ∧ book'.Nonneg ∧
      (book'.Consistent ↔ book.Settles (.replace original new shares price)) := by
  simp only [Settles]
  cases horder : book.orders[original]? with
  | none =>
    refine ⟨book, by rw [ReferenceBook.replace, horder], hnonneg, ?_⟩
    exact iff_of_true h fun order ho => absurd ho (Option.not_mem_none order)
  | some order =>
    obtain ⟨book', hrun, hnonneg', hreduced⟩ :=
      h.reduceOrRemove hnonneg horder (n := 0) fun hall => absurd hall.symm Bool.false_ne_true
    have hfree : book'.orders[new]? = none := by
      rw [hreduced.lookup]
      by_cases hsame : original = new
      · rw [if_pos hsame]
        rfl
      · rw [if_neg hsame]
        rcases hp with hnone | heq | hfree
        · rw [horder] at hnone
          cases hnone
        · exact absurd heq.symm hsame
        · exact hfree
    let x : PyOrder := ⟨order.side, price, shares⟩
    have hx : 0 ≤ x.shares := Int.natCast_nonneg shares
    refine ⟨(book'.insert new order.side price shares).counted .replaces, ?_,
      insert_nonneg hnonneg' hx, ?_⟩
    · simp only [ReferenceBook.replace, horder, hrun]
      rfl
    · rw [consistent_counted,
        hreduced.insert_consistent_iff h hnonneg' horder shares hfree]
      simp

/-- A permitted call on a consistent book never raises, and leaves it consistent exactly when
it settles. -/
theorem Consistent.call (h : book.Consistent) (hnonneg : book.Nonneg) {c : ReferenceCall}
    (hp : book.Permitted c) : ∃ book', book.call c = .ok book' ∧ book'.Nonneg ∧
      (book'.Consistent ↔ book.Settles c) := by
  cases c with
  | add reference side price shares =>
    let x : PyOrder := ⟨side, price, shares⟩
    have hx : 0 ≤ x.shares := Int.natCast_nonneg shares
    have hinserted : (book.insert reference x.side x.price x.shares).Consistent := h.insert hp
    refine ⟨(book.insert reference side price shares).counted .adds, rfl,
      insert_nonneg hnonneg hx, ?_⟩
    rw [consistent_counted]
    exact iff_of_true hinserted trivial
  | execute reference shares =>
    exact h.reduction hnonneg reference shares false (fun _ => hp) .executions
  | cancel reference shares =>
    exact h.reduction hnonneg reference shares false (fun _ => hp) .cancels
  | delete reference =>
    exact h.reduction hnonneg reference 0 true
      (fun hall => absurd hall.symm Bool.false_ne_true) .deletes
  | replace original new shares price => exact h.replace hnonneg hp

end Calls

theorem consistent_fresh : Consistent {} := by
  intro side price
  have hlevels : (({} : ReferenceBook).levels side)[price]? = none := by
    simp [ReferenceBook.levels]
  constructor
  · rw [hlevels]
    simp [Occupied]
  · intro total htotal
    rw [hlevels] at htotal
    cases htotal

/-- Where references are fresh and reductions fit, the level maps stay consistent with the
orders and no call raises, exactly as long as no total is brought to 0 under another order. -/
theorem reference_consistent_iff (calls : List ReferenceCall)
    (hp : Along call Permitted {} calls) :
    Throughout call Consistent {} calls ↔ Along call Settles {} calls :=
  throughout_iff_along (fun _ _ hnonneg h hm => h.call hnonneg hm)
    (by intro k x hx; simp at hx) consistent_fresh hp

theorem reference_consistent_partial_fill :
    Throughout call Consistent {} [.add 1 'B' 5000 100, .execute 1 40] ↔
      Along call Settles {} [.add 1 'B' 5000 100, .execute 1 40] :=
  reference_consistent_iff _ (by decide)

/-- An order of 0 shares outlives the level it shares, and its deletion then raises. -/
theorem reference_loses_level :
    Along call Permitted {} [.add 1 'B' 5000 0, .add 2 'B' 5000 5, .execute 2 5, .delete 1] ∧
      (run call {} [.add 1 'B' 5000 0, .add 2 'B' 5000 5, .execute 2 5, .delete 1]).map
          (fun _ => ()) = .error .keyError ∧
      ¬ Throughout call Consistent {}
        [.add 1 'B' 5000 0, .add 2 'B' 5000 5, .execute 2 5, .delete 1] := by
  have hraises : (run call {} [.add 1 'B' 5000 0, .add 2 'B' 5000 5, .execute 2 5,
      .delete 1]).map (fun _ => ()) = .error .keyError := by decide
  refine ⟨by decide, hraises, fun h => ?_⟩
  obtain ⟨book, hbook, _⟩ := h _ List.prefix_rfl
  rw [hbook] at hraises
  cases hraises

end ReferenceBook

end Itch
