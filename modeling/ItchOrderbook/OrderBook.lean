import ItchOrderbook.Parser
import ItchOrderbook.NodeQueue

/-!
# The order book

A price-time-priority book for one locate: two ordered maps of price levels, a
FIFO queue at each level, and an index from order references to positions in
those queues. A position is the identity of a queue node; using one whose node
is not in the queue at hand is a fault, and so is a price with no level.
-/

namespace Itch

open NodeQueue

structure RestingOrder where
  orderReference : UInt64
  shares : UInt32
deriving DecidableEq, Repr

/-- The resting orders of one price, oldest first, and a cached total. -/
structure PriceLevel where
  orders : Queue RestingOrder := []
  totalShares : UInt64 := 0
deriving DecidableEq, Repr

structure BookLevel where
  price : PriceTicks
  shares : UInt64
deriving DecidableEq, Repr

structure OrderLocation where
  side : Side
  price : PriceTicks
  position : NodeId
deriving DecidableEq, Repr

/-- `std::greater<PriceTicks>`: bids are kept best first. -/
def greater (a b : PriceTicks) : Ordering := compare b a

/-- `std::less<PriceTicks>`: asks are kept best first. -/
def less (a b : PriceTicks) : Ordering := compare a b

instance : Std.TransCmp greater := inferInstanceAs (Std.TransCmp fun a b => compare b a)
instance : Std.LawfulEqCmp greater := inferInstanceAs (Std.LawfulEqCmp fun a b => compare b a)
instance : Std.TransCmp less := inferInstanceAs (Std.TransCmp compare)
instance : Std.LawfulEqCmp less := inferInstanceAs (Std.LawfulEqCmp compare)

abbrev Levels (cmp : PriceTicks → PriceTicks → Ordering) :=
  Std.ExtTreeMap PriceTicks PriceLevel cmp

/-- `std::unordered_map`; the book never iterates over it. -/
abbrev OrderIndex := Std.ExtTreeMap UInt64 OrderLocation

@[ext] structure Stats where
  adds : UInt64 := 0
  executions : UInt64 := 0
  cancels : UInt64 := 0
  deletes : UInt64 := 0
  replaces : UInt64 := 0
  trades : UInt64 := 0
deriving DecidableEq, Repr

/-- `nextNode` is the identity the next allocated queue node gets. -/
structure OrderBook where
  locate : UInt16 := 0
  bids : Levels greater := ∅
  asks : Levels less := ∅
  orders : OrderIndex := ∅
  stats : Stats := {}
  nextNode : NodeId := 0

section Levels

variable {cmp : PriceTicks → PriceTicks → Ordering} [Std.TransCmp cmp]

/-- `levels[price]` creates the level; `orders_.emplace` keeps an entry already there. -/
def insertOrder (levels : Levels cmp) (orders : OrderIndex) (node : NodeId) (side : Side)
    (reference : UInt64) (price : PriceTicks) (shares : UInt32) : Levels cmp × OrderIndex :=
  let level := levels.getD price {}
  let level : PriceLevel :=
    { orders := pushBack level.orders node { orderReference := reference, shares }
      totalShares := level.totalShares + shares.toUInt64 }
  (levels.insert price level, orders.insertIfNew reference { side, price, position := node })

def reduceOrRemoveIn (build : Build) (levels : Levels cmp) (orders : OrderIndex)
    (location : OrderLocation) (reference : UInt64) (sharesRemoved : UInt32) (removeAll : Bool) :
    Except Fault (Levels cmp × OrderIndex) :=
  match levels[location.price]? with
  | none => .error .staleLevel
  | some level =>
    match deref level.orders location.position with
    | none => .error .stalePosition
    | some resting => do
      let removed := if removeAll then resting.shares else sharesRemoved
      cassert build .reductionFitsOrder (removed ≤ resting.shares)
      let totalShares := level.totalShares - removed.toUInt64
      let resting := { resting with shares := resting.shares - removed }
      if removeAll || resting.shares == 0 then
        let queue := unlink level.orders location.position
        let orders := orders.erase reference
        if queue.isEmpty then return (levels.erase location.price, orders)
        else return (levels.insert location.price { orders := queue, totalShares }, orders)
      else
        let queue := assign level.orders location.position resting
        return (levels.insert location.price { orders := queue, totalShares }, orders)

/-- `*levels.begin()`: the first entry in the order of the map. -/
def beginLevel (levels : Levels cmp) : Option BookLevel :=
  levels.minKey?.bind fun price =>
    levels[price]?.map fun level => { price, shares := level.totalShares }

end Levels

namespace OrderBook

variable (build : Build) (book : OrderBook)

def setLocate (locate : UInt16) : Except Fault OrderBook := do
  cassert build .locateSetOnce (book.locate == 0)
  cassert build .locateNotSentinel (locate != 0)
  return { book with locate }

/-- `if (side == Side::Buy) insert_order(bids_, ..) else insert_order(asks_, ..)`. -/
def insert (side : Side) (reference : UInt64) (price : PriceTicks) (shares : UInt32) :
    OrderBook :=
  if side = Side.buy then
    let inserted := insertOrder book.bids book.orders book.nextNode .buy reference price shares
    { book with bids := inserted.1, orders := inserted.2, nextNode := book.nextNode + 1 }
  else
    let inserted := insertOrder book.asks book.orders book.nextNode .sell reference price shares
    { book with asks := inserted.1, orders := inserted.2, nextNode := book.nextNode + 1 }

/-- An unknown reference is a silent no-op. -/
def reduceOrRemove (reference : UInt64) (sharesRemoved : UInt32) (removeAll : Bool) :
    Except Fault OrderBook :=
  match book.orders[reference]? with
  | none => .ok book
  | some location =>
    if location.side = Side.buy then do
      let reduced ← reduceOrRemoveIn build book.bids book.orders location reference
        sharesRemoved removeAll
      return { book with bids := reduced.1, orders := reduced.2 }
    else do
      let reduced ← reduceOrRemoveIn build book.asks book.orders location reference
        sharesRemoved removeAll
      return { book with asks := reduced.1, orders := reduced.2 }

def onAddOrder (message : AddOrder) : Except Fault OrderBook :=
  if message.header.stockLocate ≠ book.locate then .ok book
  else
    let book := book.insert message.side message.orderReference message.price message.shares
    .ok { book with stats := { book.stats with adds := book.stats.adds + 1 } }

def onOrderExecuted (message : OrderExecuted) : Except Fault OrderBook :=
  if message.header.stockLocate ≠ book.locate then .ok book
  else do
    let book ← book.reduceOrRemove build message.orderReference message.executedShares false
    return { book with stats := { book.stats with executions := book.stats.executions + 1 } }

def onOrderCancel (message : OrderCancel) : Except Fault OrderBook :=
  if message.header.stockLocate ≠ book.locate then .ok book
  else do
    let book ← book.reduceOrRemove build message.orderReference message.cancelledShares false
    return { book with stats := { book.stats with cancels := book.stats.cancels + 1 } }

def onOrderDelete (message : OrderDelete) : Except Fault OrderBook :=
  if message.header.stockLocate ≠ book.locate then .ok book
  else do
    let book ← book.reduceOrRemove build message.orderReference 0 true
    return { book with stats := { book.stats with deletes := book.stats.deletes + 1 } }

/-- The side comes from the original order; an unknown original is not even tallied. -/
def onOrderReplace (message : OrderReplace) : Except Fault OrderBook :=
  if message.header.stockLocate ≠ book.locate then .ok book
  else
    match book.orders[message.originalOrderReference]? with
    | none => .ok book
    | some location => do
      let side := location.side
      let book ← book.reduceOrRemove build message.originalOrderReference 0 true
      let book := book.insert side message.newOrderReference message.price message.shares
      return { book with stats := { book.stats with replaces := book.stats.replaces + 1 } }

def onTradeNonCross (message : TradeNonCross) : Except Fault OrderBook :=
  if message.header.stockLocate = book.locate then
    .ok { book with stats := { book.stats with trades := book.stats.trades + 1 } }
  else .ok book

/-- The overload set of `on`; two overloads delegate to the message they embed. -/
def on : Message → Except Fault OrderBook
  | .addOrder message => book.onAddOrder message
  | .addOrderWithMpid message => book.onAddOrder message.order
  | .orderExecuted message => book.onOrderExecuted build message
  | .orderExecutedWithPrice message => book.onOrderExecuted build message.executed
  | .orderCancel message => book.onOrderCancel build message
  | .orderDelete message => book.onOrderDelete build message
  | .orderReplace message => book.onOrderReplace build message
  | .tradeNonCross message => book.onTradeNonCross message
  | .systemEvent _ => .ok book
  | .stockDirectory _ => .ok book
  | .other _ _ => .ok book

/-- The book as the handler `parse_all` drives. -/
def handler : MessageHandler OrderBook := fun message book => book.on build message

def bestBid : Option BookLevel := beginLevel book.bids

def bestAsk : Option BookLevel := beginLevel book.asks

def orderCount : ℕ := book.orders.size

def bidLevelCount : ℕ := book.bids.size

def askLevelCount : ℕ := book.asks.size

/-- The inner loop of `check_side`, with the two running sums of the source. -/
def checkQueue (orders : OrderIndex) (expectedSide : Side) (price : PriceTicks) :
    Queue RestingOrder → UInt64 → ℕ → Option (UInt64 × ℕ)
  | [], summedShares, totalOrders => some (summedShares, totalOrders)
  | (node, order) :: rest, summedShares, totalOrders =>
    match orders[order.orderReference]? with
    | none => none
    | some location =>
      if location.side ≠ expectedSide ∨ location.price ≠ price ∨ location.position ≠ node then
        none
      else
        checkQueue orders expectedSide price rest (summedShares + order.shares.toUInt64)
          (totalOrders + 1)

/-- `check_side`: the number of orders counted so far, or `none` where it returns false. -/
def checkSide (orders : OrderIndex) (expectedSide : Side) :
    List (PriceTicks × PriceLevel) → ℕ → Option ℕ
  | [], totalOrders => some totalOrders
  | (price, level) :: rest, totalOrders =>
    if level.orders.isEmpty then none
    else
      match checkQueue orders expectedSide price level.orders 0 totalOrders with
      | none => none
      | some (summedShares, totalOrders) =>
        if summedShares ≠ level.totalShares then none
        else checkSide orders expectedSide rest totalOrders

def checkRep : Bool :=
  match checkSide book.orders .buy book.bids.toList 0 with
  | none => false
  | some totalOrders =>
    match checkSide book.orders .sell book.asks.toList totalOrders with
    | none => false
    | some totalOrders => totalOrders == book.orders.size

end OrderBook

end Itch
