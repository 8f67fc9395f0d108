import ItchOrderbook.BookReplay
import ItchOrderbook.ReferenceFraming

/-!
# The Python reference book

The reference keeps no queues: a dictionary of orders and, on each side, a
dictionary from price to total shares. A level goes away when its total reaches
0, whatever orders are left at its price.
-/

namespace Itch

open KeyedList

structure PyOrder where
  side : Char
  price : ℕ
  shares : ℤ
deriving DecidableEq, Repr

/-- The order rests in the dictionary `_levels(side)`, at this price. -/
def PyOrder.At (order : PyOrder) (side : Char) (price : ℕ) : Prop :=
  (order.side = 'B' ↔ side = 'B') ∧ order.price = price

instance decidableAt (order : PyOrder) (side : Char) (price : ℕ) :
    Decidable (order.At side price) :=
  inferInstanceAs (Decidable ((order.side = 'B' ↔ side = 'B') ∧ order.price = price))

abbrev PyLevels := Std.ExtTreeMap ℕ ℤ

structure ReferenceBook where
  locate : Option ℕ := none
  orders : Std.ExtTreeMap ℕ PyOrder := ∅
  bidLevels : PyLevels := ∅
  askLevels : PyLevels := ∅
  adds : ℕ := 0
  executions : ℕ := 0
  cancels : ℕ := 0
  deletes : ℕ := 0
  replaces : ℕ := 0
  trades : ℕ := 0

/-- The side as the script has it. -/
def BookSide.chr (s : BookSide) : Char := Itch.chr s.tag.value

namespace ReferenceBook

/-- `self._levels(side)`. -/
def levels (book : ReferenceBook) (side : Char) : PyLevels :=
  if side = 'B' then book.bidLevels else book.askLevels

/-- The levels of a side after an assignment into them. -/
def withLevels (book : ReferenceBook) (side : Char) (levels : PyLevels) : ReferenceBook :=
  if side = 'B' then { book with bidLevels := levels } else { book with askLevels := levels }

def insert (book : ReferenceBook) (reference : ℕ) (side : Char) (price : ℕ) (shares : ℤ) :
    ReferenceBook :=
  let book := { book with orders := book.orders.insert reference { side, price, shares } }
  let levels := book.levels side
  book.withLevels side (levels.insert price (levels.getD price 0 + shares))

def reduceOrRemove (book : ReferenceBook) (reference : ℕ) (sharesRemoved : ℤ)
    (removeAll : Bool) : Except Raised ReferenceBook :=
  match book.orders[reference]? with
  | none => .ok book
  | some order =>
    let removed := if removeAll then order.shares else sharesRemoved
    let levels := book.levels order.side
    match levels[order.price]? with
    | none => .error .keyError
    | some total =>
      let levels :=
        if total - removed = 0 then levels.erase order.price
        else levels.insert order.price (total - removed)
      let order := { order with shares := order.shares - removed }
      let book := book.withLevels order.side levels
      let orders :=
        if removeAll || order.shares = 0 then book.orders.erase reference
        else book.orders.insert reference order
      .ok { book with orders }

def add (book : ReferenceBook) (reference : ℕ) (side : Char) (price : ℕ) (shares : ℤ) :
    ReferenceBook :=
  let book := book.insert reference side price shares
  { book with adds := book.adds + 1 }

def execute (book : ReferenceBook) (reference : ℕ) (shares : ℤ) :
    Except Raised ReferenceBook := do
  let book ← book.reduceOrRemove reference shares false
  return { book with executions := book.executions + 1 }

def cancel (book : ReferenceBook) (reference : ℕ) (shares : ℤ) :
    Except Raised ReferenceBook := do
  let book ← book.reduceOrRemove reference shares false
  return { book with cancels := book.cancels + 1 }

def delete (book : ReferenceBook) (reference : ℕ) : Except Raised ReferenceBook := do
  let book ← book.reduceOrRemove reference 0 true
  return { book with deletes := book.deletes + 1 }

def replace (book : ReferenceBook) (originalReference newReference : ℕ) (shares : ℤ)
    (price : ℕ) : Except Raised ReferenceBook :=
  match book.orders[originalReference]? with
  | none => .ok book
  | some order => do
    let side := order.side
    let book ← book.reduceOrRemove originalReference 0 true
    let book := book.insert newReference side price shares
    return { book with replaces := book.replaces + 1 }

/-- `max` of the keys for bids, `min` for asks, `None` where there are none. -/
def best (book : ReferenceBook) (side : Char) : Option (ℕ × ℤ) :=
  let levels := book.levels side
  (if side = 'B' then levels.maxKey? else levels.minKey?).bind fun price =>
    levels[price]?.map fun total => (price, total)

/-- The method an action calls. -/
def apply (book : ReferenceBook) : BookAction → Except Raised ReferenceBook
  | .add side reference price shares =>
    .ok (book.add reference.toNat side.chr price.toNat shares.toNat)
  | .execute reference shares => book.execute reference.toNat shares.toNat
  | .cancel reference shares => book.cancel reference.toNat shares.toNat
  | .delete reference => book.delete reference.toNat
  | .replace original new price shares =>
    book.replace original.toNat new.toNat shares.toNat price.toNat
  | .trade => .ok { book with trades := book.trades + 1 }

def tally (book : ReferenceBook) : Tally → ℕ
  | .adds => book.adds
  | .executions => book.executions
  | .cancels => book.cancels
  | .deletes => book.deletes
  | .replaces => book.replaces
  | .trades => book.trades

/-- One more in a tally. -/
def counted (book : ReferenceBook) : Tally → ReferenceBook
  | .adds => { book with adds := book.adds + 1 }
  | .executions => { book with executions := book.executions + 1 }
  | .cancels => { book with cancels := book.cancels + 1 }
  | .deletes => { book with deletes := book.deletes + 1 }
  | .replaces => { book with replaces := book.replaces + 1 }
  | .trades => { book with trades := book.trades + 1 }

end ReferenceBook

/-- An entry of the list as the script keeps it. -/
def Entry.py (e : Entry) : PyOrder := ⟨e.side.chr, e.price.toNat, e.shares⟩

/-- The orders of a side at a price as the script has it. -/
def atPrice (s : BookSide) (k : ℕ) : Selection := fun t q _ => t = s ∧ q.toNat = k

def sumAt (L : List Entry) (s : BookSide) (k : ℕ) : ℕ := volume (atPrice s k) L

/-- What a dictionary of totals holds: nothing under a total of 0. -/
def nonzero (total : ℤ) : Option ℤ := if total = 0 then none else some total

theorem counted_atPrice (e : Entry) (s : BookSide) (k : ℕ) :
    e.counted (atPrice s k) = if e.side = s ∧ e.price.toNat = k then e.shares else 0 := by
  simp [Entry.counted, atPrice]

theorem sumAt_append (L : List Entry) (e : Entry) (s : BookSide) (k : ℕ) :
    sumAt (L ++ [e]) s k =
      sumAt L s k + if e.side = s ∧ e.price.toNat = k then e.shares else 0 := by
  rw [← counted_atPrice, sumAt, sumAt, volume_append]
  simp [volume]

/-- A reduction lowers the total of the place of its order, and no other. -/
theorem sumAt_less {L : List Entry} (hdistinct : (L.map Entry.reference).Nodup) {e : Entry}
    (he : e ∈ L) {removed : ℕ} (hle : removed ≤ e.shares) (s : BookSide) (k : ℕ) :
    sumAt (update Entry.reference e.reference (Entry.less removed) L) s k +
        (if e.side = s ∧ e.price.toNat = k then removed else 0) = sumAt L s k := by
  have hmoved := volume_update (atPrice s k) hdistinct he (Entry.less removed)
  have hparts := counted_less (atPrice s k) e hle
  have htaken := counted_atPrice { e with shares := removed } s k
  rw [sumAt, sumAt]
  dsimp only at htaken
  omega

theorem le_sumAt {L : List Entry} {e : Entry} (he : e ∈ L) :
    e.shares ≤ sumAt L e.side e.price.toNat := by
  have hle := counted_le_volume (atPrice e.side e.price.toNat) he
  rw [counted_atPrice, if_pos ⟨rfl, rfl⟩] at hle
  exact hle

/-- Some shares rest at a price exactly when an order does, where none is empty. -/
theorem sumAt_ne_zero {L : List Entry} (hpositive : ∀ e ∈ L, 0 < e.shares) {s : BookSide}
    {k : ℕ} : sumAt L s k ≠ 0 ↔ ∃ e ∈ L, e.side = s ∧ e.price.toNat = k := by
  constructor
  · contrapose!
    intro hnone
    apply List.sum_eq_zero
    intro n hn
    obtain ⟨e, he, rfl⟩ := List.mem_map.mp hn
    rw [counted_atPrice, if_neg fun hplace => hnone e he hplace.1 hplace.2]
  · rintro ⟨e, he, rfl, rfl⟩
    have hshares := hpositive e he
    have hle := le_sumAt he
    omega

theorem sharesAt_eq (L : List Entry) (s : BookSide) (p : PriceTicks) :
    sharesAt L s p = sumAt L s p.toNat := by
  have hselect : atLevel s p = atPrice s p.toNat := by
    funext t q r
    simp only [atLevel, atPrice, UInt32.toNat_inj]
  rw [← volume_atLevel, hselect, sumAt]

theorem PyOrder.at_self (order : PyOrder) : order.At order.side order.price := ⟨Iff.rfl, rfl⟩

theorem PyOrder.At.at_iff {order : PyOrder} {side : Char} {price : ℕ} (h : order.At side price)
    (x : PyOrder) : x.At side price ↔ x.At order.side order.price := by
  simp only [PyOrder.At, h.1, h.2]

/-- On the sides of the protocol an order rests in the dictionary of its own side. -/
theorem at_chr {order : PyOrder} {s : BookSide} (hside : order.side = s.chr) (t : BookSide)
    (k : ℕ) : order.At t.chr k ↔ s = t ∧ order.price = k := by
  have hsame : (s.chr = 'B' ↔ t.chr = 'B') ↔ s = t := by
    cases s <;> cases t <;> decide
  rw [PyOrder.At, hside, hsame]

namespace ReferenceBook

theorem levels_withLevels (book : ReferenceBook) (side t : Char) (levels : PyLevels) :
    (book.withLevels side levels).levels t =
      if side = 'B' ↔ t = 'B' then levels else book.levels t := by
  by_cases hside : side = 'B'
  · by_cases ht : t = 'B'
    · simp [withLevels, ReferenceBook.levels, hside, ht]
    · simp [withLevels, ReferenceBook.levels, hside, ht]
  · by_cases ht : t = 'B'
    · simp [withLevels, ReferenceBook.levels, hside, ht]
    · simp [withLevels, ReferenceBook.levels, hside, ht]

theorem orders_withLevels (book : ReferenceBook) (side : Char) (levels : PyLevels) :
    (book.withLevels side levels).orders = book.orders := by
  rw [withLevels]
  split <;> rfl

@[simp] theorem tally_withLevels (book : ReferenceBook) (side : Char) (levels : PyLevels) :
    (book.withLevels side levels).tally = book.tally := by
  funext t
  rw [withLevels]
  split <;> cases t <;> rfl

@[simp] theorem locate_withLevels (book : ReferenceBook) (side : Char) (levels : PyLevels) :
    (book.withLevels side levels).locate = book.locate := by
  rw [withLevels]
  split <;> rfl

/-- Sides that select the same dictionary are one place. -/
theorem levels_at (book : ReferenceBook) {order : PyOrder} {side : Char} {price : ℕ}
    (h : order.At side price) :
    (book.levels side)[price]? = (book.levels order.side)[order.price]? := by
  simp only [ReferenceBook.levels, h.1, h.2]

section Insert

variable (book : ReferenceBook) (reference : ℕ) (order : PyOrder)

theorem insert_orders :
    (book.insert reference order.side order.price order.shares).orders =
      book.orders.insert reference order := by
  rw [ReferenceBook.insert, orders_withLevels]

theorem insert_levels (side : Char) (price : ℕ) :
    ((book.insert reference order.side order.price order.shares).levels side)[price]? =
      if order.At side price then
        some ((book.levels order.side).getD order.price 0 + order.shares)
      else (book.levels side)[price]? := by
  rw [ReferenceBook.insert, levels_withLevels]
  by_cases hat : order.At side price
  · rw [if_pos hat.1, if_pos hat, ← hat.2, Std.ExtTreeMap.getElem?_insert_self]
    rfl
  · rw [if_neg hat]
    by_cases hside : order.side = 'B' ↔ side = 'B'
    · have hprice : ¬ order.price = price := fun heq => hat ⟨hside, heq⟩
      rw [if_pos hside, Std.ExtTreeMap.getElem?_insert,
        if_neg (mt Std.LawfulEqCmp.compare_eq_iff_eq.mp hprice)]
      simp only [ReferenceBook.levels, hside]
    · rw [if_neg hside]
      rfl

variable (side : Char) (price : ℕ) (shares : ℤ)

@[simp] theorem tally_insert : (book.insert reference side price shares).tally = book.tally := by
  rw [ReferenceBook.insert, tally_withLevels]
  rfl

@[simp] theorem locate_insert :
    (book.insert reference side price shares).locate = book.locate := by
  rw [ReferenceBook.insert, locate_withLevels]

end Insert

theorem tally_counted (book : ReferenceBook) (u t : Tally) :
    (book.counted u).tally t = book.tally t + if u = t then 1 else 0 := by
  cases u <;> cases t <;> rfl

@[simp] theorem locate_counted (book : ReferenceBook) (u : Tally) :
    (book.counted u).locate = book.locate := by
  cases u <;> rfl

/-- A total that is written back, or deleted with its price when it is 0. -/
theorem getElem?_settled (levels : PyLevels) (price k : ℕ) (total : ℤ) :
    (if total = 0 then levels.erase price else levels.insert price total)[k]? =
      if price = k then nonzero total else levels[k]? := by
  by_cases hzero : total = 0
  · rw [if_pos hzero, nonzero, if_pos hzero]
    simp only [Std.ExtTreeMap.getElem?_erase, Std.LawfulEqCmp.compare_eq_iff_eq]
  · rw [if_neg hzero, nonzero, if_neg hzero]
    simp only [Std.ExtTreeMap.getElem?_insert, Std.LawfulEqCmp.compare_eq_iff_eq]

section Reduce

variable {book book' : ReferenceBook} {reference : ℕ} {order : PyOrder} {removed total : ℤ}
  {removeAll : Bool}

/-- What a reduction writes: the rest of the order, and the rest of its level. -/
structure Reduced (book book' : ReferenceBook) (reference : ℕ) (order : PyOrder)
    (removed total : ℤ) (removeAll : Bool) : Prop where
  orders : book'.orders =
    if removeAll || order.shares - removed = 0 then book.orders.erase reference
    else book.orders.insert reference { order with shares := order.shares - removed }
  levels : ∀ side price, (book'.levels side)[price]? =
    if order.At side price then nonzero (total - removed) else (book.levels side)[price]?
  tally : book'.tally = book.tally
  locate : book'.locate = book.locate

theorem reduceOrRemove_found (horder : book.orders[reference]? = some order)
    (htotal : (book.levels order.side)[order.price]? = some total) (n : ℤ) (removeAll : Bool) :
    ∃ book', book.reduceOrRemove reference n removeAll = .ok book' ∧
      Reduced book book' reference order (if removeAll then order.shares else n) total
        removeAll := by
  generalize hremoved : (if removeAll then order.shares else n) = removed
  simp only [ReferenceBook.reduceOrRemove, horder, htotal, hremoved]
  refine ⟨_, rfl, ?_, ?_, tally_withLevels _ _ _, locate_withLevels _ _ _⟩
  · simp only [orders_withLevels]
  · intro side price
    change ((book.withLevels order.side _).levels side)[price]? = _
    rw [levels_withLevels]
    by_cases hat : order.At side price
    · rw [if_pos hat.1, if_pos hat, ← hat.2, getElem?_settled, if_pos rfl]
    · rw [if_neg hat]
      by_cases hside : order.side = 'B' ↔ side = 'B'
      · rw [if_pos hside, getElem?_settled, if_neg fun heq => hat ⟨hside, heq⟩]
        simp only [ReferenceBook.levels, hside]
      · rw [if_neg hside]

/-- The order reduced is gone, or rests with fewer shares at its place. -/
theorem Reduced.lookup (h : Reduced book book' reference order removed total removeAll) (k : ℕ) :
    book'.orders[k]? =
    if reference = k then
      if removeAll || order.shares - removed = 0 then none
      else some { order with shares := order.shares - removed }
    else book.orders[k]? := by
  rw [h.orders]
  by_cases hgone : (removeAll || order.shares - removed = 0) = true
  · rw [if_pos hgone, if_pos hgone]
    simp only [Std.ExtTreeMap.getElem?_erase, Std.LawfulEqCmp.compare_eq_iff_eq]
  · rw [if_neg hgone, if_neg hgone]
    simp only [Std.ExtTreeMap.getElem?_insert, Std.LawfulEqCmp.compare_eq_iff_eq]

/-- What is left of an entry's order is what is left of the entry. -/
theorem Reduced.lookup_entry {e : Entry} {removed : ℕ}
    (h : Reduced book book' e.reference.toNat e.py removed total removeAll)
    (hle : removed ≤ e.shares) (hall : removeAll = true → removed = e.shares) (k : ℕ) :
    book'.orders[k]? =
      if e.reference.toNat = k then (e.less removed).map Entry.py else book.orders[k]? := by
  rw [h.lookup, Entry.less]
  by_cases hgone : e.shares - removed = 0
  · have hint : e.py.shares - removed = 0 := by
      simp only [Entry.py]
      omega
    simp only [hgone, hint, decide_true, Bool.or_true, if_true, Option.map_none]
  · have hint : ¬ e.py.shares - removed = 0 := by
      simp only [Entry.py]
      omega
    have hnotall : removeAll = false := by
      cases removeAll with
      | true => exact absurd (Nat.sub_eq_zero_of_le (hall rfl).ge) hgone
      | false => rfl
    have hpy : ({ e.py with shares := e.py.shares - removed } : PyOrder) =
        Entry.py { e with shares := e.shares - removed } := by
      simp [Entry.py, Nat.cast_sub hle]
    simp only [hgone, hint, hnotall, decide_false, Bool.or_false, Bool.false_eq_true, if_false,
      Option.map_some, hpy]

end Reduce

end ReferenceBook

end Itch
