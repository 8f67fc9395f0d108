import ItchOrderbook.OrderBook

/-!
# The book as one map of levels

Bids and asks differ in their comparator only. `level?` reads both maps through
one side argument, `setLevel` writes them, and each mutator is restated as one
`setLevel` together with its change of the index. Later modules reason about
these equations and never unfold a mutator.
-/

namespace Itch

open NodeQueue

/-- Which of the two price maps an order rests in. -/
inductive BookSide
  | bids
  | asks
deriving DecidableEq, Repr

/-- The tag the book stores for orders of a map. -/
def BookSide.tag : BookSide → Side
  | .bids => .buy
  | .asks => .sell

/-- Anything but a buy goes to the asks. -/
def Side.book (side : Side) : BookSide := if side = Side.buy then .bids else .asks

@[simp] theorem book_tag (s : BookSide) : s.tag.book = s := by
  cases s <;> rfl

section WriteLevel

variable {cmp : PriceTicks → PriceTicks → Ordering} [Std.TransCmp cmp]

def writeLevel (levels : Levels cmp) (price : PriceTicks) : Option PriceLevel → Levels cmp
  | some level => levels.insert price level
  | none => levels.erase price

theorem getElem?_writeLevel [Std.LawfulEqCmp cmp] (levels : Levels cmp) (price : PriceTicks)
    (o : Option PriceLevel) (q : PriceTicks) :
    (writeLevel levels price o)[q]? = if price = q then o else levels[q]? := by
  cases o with
  | some level => simp [writeLevel, Std.ExtTreeMap.getElem?_insert]
  | none => simp [writeLevel, Std.ExtTreeMap.getElem?_erase]

end WriteLevel

namespace OrderBook

def level? (b : OrderBook) : BookSide → PriceTicks → Option PriceLevel
  | .bids, price => b.bids[price]?
  | .asks, price => b.asks[price]?

/-- Write or erase one level. -/
def setLevel (b : OrderBook) : BookSide → PriceTicks → Option PriceLevel → OrderBook
  | .bids, price, o => { b with bids := writeLevel b.bids price o }
  | .asks, price, o => { b with asks := writeLevel b.asks price o }

section SetLevel

variable (b : OrderBook) (s : BookSide) (price : PriceTicks) (o : Option PriceLevel)

@[simp] theorem setLevel_locate : (b.setLevel s price o).locate = b.locate := by
  cases s <;> rfl

@[simp] theorem setLevel_orders : (b.setLevel s price o).orders = b.orders := by
  cases s <;> rfl

@[simp] theorem setLevel_stats : (b.setLevel s price o).stats = b.stats := by
  cases s <;> rfl

@[simp] theorem setLevel_nextNode : (b.setLevel s price o).nextNode = b.nextNode := by
  cases s <;> rfl

theorem level?_setLevel (t : BookSide) (q : PriceTicks) :
    (b.setLevel s price o).level? t q = if s = t ∧ price = q then o else b.level? t q := by
  cases s <;> cases t <;> simp [setLevel, level?, getElem?_writeLevel]

end SetLevel

/-- What is known of a resting order once its reference has been looked up. -/
structure Found where
  location : OrderLocation
  level : PriceLevel
  order : RestingOrder
deriving DecidableEq, Repr

/-- Follow the index to the level and the node, when both are there. -/
def find? (b : OrderBook) (reference : UInt64) : Option Found := do
  let location ← b.orders[reference]?
  let level ← b.level? location.side.book location.price
  let order ← deref level.orders location.position
  return { location, level, order }

/-- The level of an insertion, before and after. -/
def pushed (level : PriceLevel) (node : NodeId) (reference : UInt64) (shares : UInt32) :
    PriceLevel where
  orders := pushBack level.orders node { orderReference := reference, shares }
  totalShares := level.totalShares + shares.toUInt64

theorem insert_eq (b : OrderBook) (side : Side) (reference : UInt64) (price : PriceTicks)
    (shares : UInt32) :
    b.insert side reference price shares =
      { b.setLevel side.book price (some (pushed ((b.level? side.book price).getD {}) b.nextNode
          reference shares)) with
        orders := b.orders.insertIfNew reference
          { side := side.book.tag, price, position := b.nextNode }
        nextNode := b.nextNode + 1 } := by
  by_cases hside : side = Side.buy
  · simp only [insert, Side.book, if_pos hside, insertOrder, setLevel, writeLevel, level?, pushed,
      BookSide.tag, Std.ExtTreeMap.getD_eq_getD_getElem?]
  · simp only [insert, Side.book, if_neg hside, insertOrder, setLevel, writeLevel, level?, pushed,
      BookSide.tag, Std.ExtTreeMap.getD_eq_getD_getElem?]

/-- The level a reduction leaves behind, with `removed` shares taken off node `position`. -/
def reduced (f : Found) (removed : UInt32) : PriceLevel where
  orders := assign f.level.orders f.location.position
    { f.order with shares := f.order.shares - removed }
  totalShares := f.level.totalShares - removed.toUInt64

/-- The level a removal leaves behind, if it leaves one. -/
def unlinked (f : Found) (removed : UInt32) : Option PriceLevel :=
  let queue := unlink f.level.orders f.location.position
  if queue.isEmpty then none
  else some { orders := queue, totalShares := f.level.totalShares - removed.toUInt64 }

/-- The effect of `reduce_or_remove` on an order that rests. -/
def afterReduction (b : OrderBook) (reference : UInt64) (f : Found) (removed : UInt32)
    (removeAll : Bool) : OrderBook :=
  if removeAll || f.order.shares - removed == 0 then
    { b.setLevel f.location.side.book f.location.price (unlinked f removed) with
      orders := b.orders.erase reference }
  else b.setLevel f.location.side.book f.location.price (some (reduced f removed))

/-- The shares a call of `reduce_or_remove` takes off. -/
def removedShares (f : Found) (sharesRemoved : UInt32) (removeAll : Bool) : UInt32 :=
  if removeAll then f.order.shares else sharesRemoved

/-- `assert(removed <= resting.shares)` holds, or is compiled out. -/
def AssertPasses (build : Build) (f : Found) (removed : UInt32) : Prop :=
  build = .debug → removed ≤ f.order.shares

theorem reduceOrRemove_unknown {b : OrderBook} {reference : UInt64}
    (h : b.orders[reference]? = none) (build : Build) (n : UInt32) (removeAll : Bool) :
    b.reduceOrRemove build reference n removeAll = .ok b := by
  simp only [reduceOrRemove, h]

theorem cassert_ok {build : Build} {name : Assertion} {condition : Bool}
    (h : build = .debug → condition = true) : cassert build name condition = .ok () := by
  cases build with
  | relWithDebInfo => rfl
  | debug => rw [h rfl, cassert_true]

theorem find?_eq_some {b : OrderBook} {reference : UInt64} {f : Found} :
    b.find? reference = some f ↔ b.orders[reference]? = some f.location ∧
      b.level? f.location.side.book f.location.price = some f.level ∧
      deref f.level.orders f.location.position = some f.order := by
  obtain ⟨location, level, order⟩ := f
  simp only [find?, bind, Option.bind_eq_some_iff, pure, Option.some.injEq, Found.mk.injEq]
  constructor
  · rintro ⟨l, hl, v, hv, o, ho, rfl, rfl, rfl⟩
    exact ⟨hl, hv, ho⟩
  · rintro ⟨hl, hv, ho⟩
    exact ⟨location, hl, level, hv, order, ho, rfl, rfl, rfl⟩

section ReduceIn

variable {cmp : PriceTicks → PriceTicks → Ordering} [Std.TransCmp cmp] {levels : Levels cmp}
  {f : Found}

theorem reduceOrRemoveIn_ok (hlevel : levels[f.location.price]? = some f.level)
    (horder : deref f.level.orders f.location.position = some f.order) {build : Build}
    {n : UInt32} {removeAll : Bool}
    (hassert : AssertPasses build f (removedShares f n removeAll))
    (orders : OrderIndex) (reference : UInt64) :
    reduceOrRemoveIn build levels orders f.location reference n removeAll =
      .ok (if removeAll || f.order.shares - removedShares f n removeAll == 0 then
          (writeLevel levels f.location.price (unlinked f (removedShares f n removeAll)),
            orders.erase reference)
        else
          (writeLevel levels f.location.price (some (reduced f (removedShares f n removeAll))),
            orders)) := by
  have hcheck : cassert build .reductionFitsOrder
      (decide (removedShares f n removeAll ≤ f.order.shares)) = .ok () :=
    cassert_ok fun hb => decide_eq_true (hassert hb)
  simp only [reduceOrRemoveIn, hlevel, horder]
  change (cassert build .reductionFitsOrder
    (decide (removedShares f n removeAll ≤ f.order.shares)) >>= fun _ => _) = _
  rw [hcheck, ok_bind]
  change (if (removeAll || f.order.shares - removedShares f n removeAll == 0) = true then _
    else _) = _
  by_cases hgone : (removeAll || f.order.shares - removedShares f n removeAll == 0) = true
  · rw [if_pos hgone, if_pos hgone]
    by_cases hempty : (unlink f.level.orders f.location.position).isEmpty = true
    · rw [if_pos hempty, unlinked, if_pos hempty]
      rfl
    · rw [if_neg hempty, unlinked, if_neg hempty]
      rfl
  · rw [if_neg hgone, if_neg hgone]
    rfl

theorem reduceOrRemoveIn_assert (hlevel : levels[f.location.price]? = some f.level)
    (horder : deref f.level.orders f.location.position = some f.order) {n : UInt32}
    (hover : ¬ n ≤ f.order.shares) (orders : OrderIndex) (reference : UInt64) :
    reduceOrRemoveIn .debug levels orders f.location reference n false =
      .error (.assertion .reductionFitsOrder) := by
  have hcheck : cassert .debug .reductionFitsOrder (decide (n ≤ f.order.shares)) =
      .error (.assertion .reductionFitsOrder) := by
    rw [decide_eq_false hover]
    rfl
  simp only [reduceOrRemoveIn, hlevel, horder, Bool.false_eq_true, if_false, hcheck]
  rfl

end ReduceIn

/-- On an order that rests, the assert decides, and past it the effect is total. -/
theorem reduceOrRemove_found {b : OrderBook} {reference : UInt64} {f : Found}
    (h : b.find? reference = some f) {build : Build} {n : UInt32} {removeAll : Bool}
    (hassert : AssertPasses build f (removedShares f n removeAll)) :
    b.reduceOrRemove build reference n removeAll =
      .ok (b.afterReduction reference f (removedShares f n removeAll) removeAll) := by
  obtain ⟨hloc, hlevel, horder⟩ := find?_eq_some.mp h
  by_cases hside : f.location.side = Side.buy
  · simp only [Side.book, if_pos hside, level?] at hlevel
    simp only [reduceOrRemove, hloc, if_pos hside, reduceOrRemoveIn_ok hlevel horder hassert,
      ok_bind, afterReduction, Side.book]
    split <;> rfl
  · simp only [Side.book, if_neg hside, level?] at hlevel
    simp only [reduceOrRemove, hloc, if_neg hside, reduceOrRemoveIn_ok hlevel horder hassert,
      ok_bind, afterReduction, Side.book]
    split <;> rfl

/-- In the debug build a reduction larger than the order stops at the assert. -/
theorem reduceOrRemove_assert {b : OrderBook} {reference : UInt64} {f : Found}
    (h : b.find? reference = some f) {n : UInt32} (hover : ¬ n ≤ f.order.shares) :
    b.reduceOrRemove .debug reference n false = .error (.assertion .reductionFitsOrder) := by
  obtain ⟨hloc, hlevel, horder⟩ := find?_eq_some.mp h
  by_cases hside : f.location.side = Side.buy
  · simp only [Side.book, if_pos hside, level?] at hlevel
    simp only [reduceOrRemove, hloc, if_pos hside,
      reduceOrRemoveIn_assert hlevel horder hover]
    rfl
  · simp only [Side.book, if_neg hside, level?] at hlevel
    simp only [reduceOrRemove, hloc, if_neg hside,
      reduceOrRemoveIn_assert hlevel horder hover]
    rfl

section MutatorViews

variable (b : OrderBook) (reference : UInt64) (t : BookSide) (q : PriceTicks)

theorem level?_insert (side : Side) (price : PriceTicks) (shares : UInt32) :
    (b.insert side reference price shares).level? t q =
      if side.book = t ∧ price = q then
        some (pushed ((b.level? side.book price).getD {}) b.nextNode reference shares)
      else b.level? t q := by
  rw [insert_eq, ← level?_setLevel]
  cases t <;> rfl

@[simp] theorem orders_insert (side : Side) (price : PriceTicks) (shares : UInt32) :
    (b.insert side reference price shares).orders =
      b.orders.insertIfNew reference { side := side.book.tag, price, position := b.nextNode } := by
  rw [insert_eq]

@[simp] theorem nextNode_insert (side : Side) (price : PriceTicks) (shares : UInt32) :
    (b.insert side reference price shares).nextNode = b.nextNode + 1 := by
  rw [insert_eq]

@[simp] theorem locate_insert (side : Side) (price : PriceTicks) (shares : UInt32) :
    (b.insert side reference price shares).locate = b.locate := by
  rw [insert_eq]
  simp

@[simp] theorem stats_insert (side : Side) (price : PriceTicks) (shares : UInt32) :
    (b.insert side reference price shares).stats = b.stats := by
  rw [insert_eq]
  simp

variable (f : Found) (removed : UInt32) (removeAll : Bool)

theorem level?_afterReduction :
    (b.afterReduction reference f removed removeAll).level? t q =
      if f.location.side.book = t ∧ f.location.price = q then
        if removeAll || f.order.shares - removed == 0 then unlinked f removed
        else some (reduced f removed)
      else b.level? t q := by
  rw [afterReduction]
  by_cases hgone : (removeAll || f.order.shares - removed == 0) = true
  · simp only [if_pos hgone]
    rw [← level?_setLevel]
    cases t <;> rfl
  · simp only [if_neg hgone]
    exact level?_setLevel b _ _ _ t q

theorem orders_afterReduction :
    (b.afterReduction reference f removed removeAll).orders =
      if removeAll || f.order.shares - removed == 0 then b.orders.erase reference
      else b.orders := by
  rw [afterReduction]
  split
  · rfl
  · exact setLevel_orders b _ _ _

@[simp] theorem nextNode_afterReduction :
    (b.afterReduction reference f removed removeAll).nextNode = b.nextNode := by
  rw [afterReduction]
  split <;> simp

@[simp] theorem stats_afterReduction :
    (b.afterReduction reference f removed removeAll).stats = b.stats := by
  rw [afterReduction]
  split <;> simp

end MutatorViews

end OrderBook

end Itch
