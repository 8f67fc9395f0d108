import ItchOrderbook.NamedOrders
import ItchOrderbook.PartialMaps

/-!
# References and prices as labels

The book compares references for equality and prices for order, and does nothing
else with them. Renumber the orders of a session, or move its prices without
changing their order, and the book is the same up to the new labels. It is also
the same with the two sides exchanged, when the order of prices is reversed.
-/

namespace Itch

open NodeQueue CheckedRuns PartialMaps

structure Relabelling where
  reference : UInt64 → UInt64
  price : PriceTicks → PriceTicks
  mirrored : Bool

def BookSide.opposite : BookSide → BookSide
  | .bids => .asks
  | .asks => .bids

/-- The prices an action names. -/
def BookAction.prices : BookAction → List PriceTicks
  | add _ _ price _ => [price]
  | replace _ _ price _ => [price]
  | _ => []

/-- What a message asks of a book at `l` names these references and these prices only. -/
def Message.Speaks (l : UInt16) (refs : Set UInt64) (prices : Set PriceTicks) (m : Message) :
    Prop :=
  ∀ a ∈ m.actionAt? l, (∀ r ∈ a.references, r ∈ refs) ∧ ∀ p ∈ a.prices, p ∈ prices

namespace OrderBook

section Updates

variable (b : OrderBook)

theorem levels_insert (side : Side) (r : UInt64) (p : PriceTicks) (n : UInt32) :
    (fun x : BookSide × PriceTicks => (b.insert side r p n).level? x.1 x.2) =
      Function.update (fun x => b.level? x.1 x.2) (side.book, p)
        (some (pushed ((b.level? side.book p).getD {}) b.nextNode r n)) := by
  funext ⟨t, q⟩
  rw [level?_insert, Function.update_apply]
  simp only [Prod.mk.injEq, eq_comm]

theorem index_insert (side : Side) (r : UInt64) (p : PriceTicks) (n : UInt32) :
    (fun k : UInt64 => (b.insert side r p n).orders[k]?) =
      Function.update (fun k : UInt64 => b.orders[k]?) r
        (some ((b.orders[r]?).getD
          { side := side.book.tag, price := p, position := b.nextNode })) := by
  funext k
  rw [orders_insert, Std.ExtTreeMap.getElem?_insertIfNew]
  by_cases hk : k = r
  · subst hk
    rw [Function.update_self]
    cases hold : b.orders[k]? with
    | none =>
      have hmem : k ∉ b.orders := by simp [Std.ExtTreeMap.mem_iff_isSome_getElem?, hold]
      rw [if_pos ⟨Std.ReflCmp.compare_self, hmem⟩]
      rfl
    | some location =>
      have hmem : k ∈ b.orders := by simp [Std.ExtTreeMap.mem_iff_isSome_getElem?, hold]
      rw [if_neg fun hboth => hboth.2 hmem]
      rfl
  · have hne : compare r k ≠ .eq := fun heq => hk (Std.LawfulEqCmp.compare_eq_iff_eq.mp heq).symm
    rw [Function.update_of_ne hk, if_neg fun hboth => hne hboth.1]

theorem levels_afterReduction (r : UInt64) (f : Found) (removed : UInt32) (removeAll : Bool) :
    (fun x : BookSide × PriceTicks => (b.afterReduction r f removed removeAll).level? x.1 x.2) =
      Function.update (fun x => b.level? x.1 x.2) (f.location.side.book, f.location.price)
        (if removeAll || f.order.shares - removed == 0 then unlinked f removed
          else some (reduced f removed)) := by
  funext ⟨t, q⟩
  rw [level?_afterReduction, Function.update_apply]
  simp only [Prod.mk.injEq, eq_comm]

@[simp] theorem locate_afterReduction (r : UInt64) (f : Found) (removed : UInt32)
    (removeAll : Bool) : (b.afterReduction r f removed removeAll).locate = b.locate := by
  rw [afterReduction]
  split <;> simp

theorem index_erase (r : UInt64) :
    (fun k : UInt64 => (b.orders.erase r)[k]?) =
      Function.update (fun k : UInt64 => b.orders[k]?) r none := by
  funext k
  rw [Std.ExtTreeMap.getElem?_erase]
  by_cases hk : k = r
  · subst hk
    rw [Function.update_self, if_pos Std.ReflCmp.compare_self]
  · have hne : compare r k ≠ .eq := fun heq => hk (Std.LawfulEqCmp.compare_eq_iff_eq.mp heq).symm
    rw [Function.update_of_ne hk, if_neg hne]

end Updates

/-- The best level of a side; `best_bid` and `best_ask`. -/
def best (b : OrderBook) : BookSide → Option BookLevel
  | .bids => b.bestBid
  | .asks => b.bestAsk

/-- The number of levels of a side; `bid_level_count` and `ask_level_count`. -/
def levelCount (b : OrderBook) : BookSide → ℕ
  | .bids => b.bidLevelCount
  | .asks => b.askLevelCount

section BeginLevel

variable {cmp : PriceTicks → PriceTicks → Ordering} [Std.TransCmp cmp] [Std.LawfulEqCmp cmp]
  {levels : Levels cmp}

theorem beginLevel_eq_some {p : PriceTicks} {level : PriceLevel} (hlevel : levels[p]? = some level)
    (hfirst : ∀ q : PriceTicks, (levels[q]?).isSome → (cmp p q).isLE) :
    beginLevel levels = some ⟨p, level.totalShares⟩ := by
  cases hbegin : beginLevel levels with
  | none =>
    rw [beginLevel_none hbegin] at hlevel
    cases hlevel
  | some first =>
    obtain ⟨⟨level', hlevel', hshares⟩, hmin⟩ := beginLevel_some hbegin
    have hle := hfirst first.price (by rw [hlevel']; rfl)
    have hge := hmin p (by rw [hlevel]; rfl)
    have hprice : p = first.price :=
      Std.LawfulEqCmp.compare_eq_iff_eq.mp (Std.OrientedCmp.isLE_antisymm hle hge)
    subst hprice
    rw [hlevel'] at hlevel
    obtain rfl := Option.some.inj hlevel
    rw [← hshares]

end BeginLevel

variable {b : OrderBook} {s : BookSide}

theorem best_eq_none (h : b.best s = none) (p : PriceTicks) : b.level? s p = none := by
  cases s with
  | bids => exact beginLevel_none h p
  | asks => exact beginLevel_none h p

theorem best_some {first : BookLevel} (h : b.best s = some first) :
    (∃ level, b.level? s first.price = some level ∧ first.shares = level.totalShares) ∧
      ∀ p, (b.level? s p).isSome → s.NoWorse first.price p := by
  cases s with
  | bids =>
    obtain ⟨hlevel, hfirst⟩ := beginLevel_some h
    exact ⟨hlevel, fun p hp => Std.isLE_compare.mp (hfirst p hp)⟩
  | asks =>
    obtain ⟨hlevel, hfirst⟩ := beginLevel_some h
    exact ⟨hlevel, fun p hp => Std.isLE_compare.mp (hfirst p hp)⟩

theorem best_eq_some {p : PriceTicks} {level : PriceLevel} (hlevel : b.level? s p = some level)
    (hfirst : ∀ q, (b.level? s q).isSome → s.NoWorse p q) :
    b.best s = some ⟨p, level.totalShares⟩ := by
  cases s with
  | bids => exact beginLevel_eq_some hlevel fun q hq => Std.isLE_compare.mpr (hfirst q hq)
  | asks => exact beginLevel_eq_some hlevel fun q hq => Std.isLE_compare.mpr (hfirst q hq)

/-- The levels of a side, counted by their prices. -/
theorem levelCount_eq_length {prices : List PriceTicks} (hnodup : prices.Nodup)
    (hprices : ∀ p, (b.level? s p).isSome ↔ p ∈ prices) : b.levelCount s = prices.length := by
  cases s with
  | bids => exact size_eq_length hnodup hprices
  | asks => exact size_eq_length hnodup hprices

/-- The prices of a side, each once. -/
theorem exists_prices (b : OrderBook) (s : BookSide) :
    ∃ prices : List PriceTicks, prices.Nodup ∧ ∀ p, (b.level? s p).isSome ↔ p ∈ prices := by
  cases s with
  | bids =>
    refine ⟨b.bids.keys, b.bids.nodup_keys, fun p => ?_⟩
    rw [Std.ExtTreeMap.mem_keys, Std.ExtTreeMap.mem_iff_isSome_getElem?]
    rfl
  | asks =>
    refine ⟨b.asks.keys, b.asks.nodup_keys, fun p => ?_⟩
    rw [Std.ExtTreeMap.mem_keys, Std.ExtTreeMap.mem_iff_isSome_getElem?]
    rfl

end OrderBook

namespace Relabelling

/-- No two references in use are confused, and no two prices change their order. -/
structure Faithful (ρ : Relabelling) (refs : Set UInt64) (prices : Set PriceTicks) : Prop where
  reference : Set.InjOn ρ.reference refs
  price : ∀ p ∈ prices, ∀ q ∈ prices, p < q →
    if ρ.mirrored then ρ.price q < ρ.price p else ρ.price p < ρ.price q

variable (ρ : Relabelling)

def side (s : BookSide) : BookSide := if ρ.mirrored then s.opposite else s

/-- A side byte, kept as it is unless the sides are exchanged. -/
def sideByte (side : Side) : Side := if ρ.mirrored then side.book.opposite.tag else side

def place (x : BookSide × PriceTicks) : BookSide × PriceTicks := (ρ.side x.1, ρ.price x.2)

def order (o : RestingOrder) : RestingOrder :=
  { o with orderReference := ρ.reference o.orderReference }

def level (level : PriceLevel) : PriceLevel :=
  { level with orders := mapPayloads ρ.order level.orders }

def location (location : OrderLocation) : OrderLocation :=
  { location with side := ρ.sideByte location.side, price := ρ.price location.price }

def found (f : OrderBook.Found) : OrderBook.Found where
  location := ρ.location f.location
  level := ρ.level f.level
  order := ρ.order f.order

def bookLevel (best : BookLevel) : BookLevel := { best with price := ρ.price best.price }

def addOrder (m : AddOrder) : AddOrder :=
  { m with
    orderReference := ρ.reference m.orderReference
    side := ρ.sideByte m.side
    price := ρ.price m.price }

def orderExecuted (m : OrderExecuted) : OrderExecuted :=
  { m with orderReference := ρ.reference m.orderReference }

/-- The message with its labels changed, those the book does not read left as they are. -/
def message : Message → Message
  | .addOrder m => .addOrder (ρ.addOrder m)
  | .addOrderWithMpid m => .addOrderWithMpid { m with order := ρ.addOrder m.order }
  | .orderExecuted m => .orderExecuted (ρ.orderExecuted m)
  | .orderExecutedWithPrice m =>
    .orderExecutedWithPrice { m with executed := ρ.orderExecuted m.executed }
  | .orderCancel m => .orderCancel { m with orderReference := ρ.reference m.orderReference }
  | .orderDelete m => .orderDelete { m with orderReference := ρ.reference m.orderReference }
  | .orderReplace m => .orderReplace
    { m with
      originalOrderReference := ρ.reference m.originalOrderReference
      newOrderReference := ρ.reference m.newOrderReference
      price := ρ.price m.price }
  | .tradeNonCross m => .tradeNonCross m
  | .systemEvent m => .systemEvent m
  | .stockDirectory m => .stockDirectory m
  | .other type record => .other type record

def action : BookAction → BookAction
  | .add side reference price shares =>
    .add (ρ.side side) (ρ.reference reference) (ρ.price price) shares
  | .execute reference shares => .execute (ρ.reference reference) shares
  | .cancel reference shares => .cancel (ρ.reference reference) shares
  | .delete reference => .delete (ρ.reference reference)
  | .replace original new price shares =>
    .replace (ρ.reference original) (ρ.reference new) (ρ.price price) shares
  | .trade => .trade

@[simp] theorem shares_found (f : OrderBook.Found) :
    (ρ.found f).order.shares = f.order.shares := rfl

theorem level_pushed (level : PriceLevel) (node : NodeId) (r : UInt64) (n : UInt32) :
    ρ.level (OrderBook.pushed level node r n) =
      OrderBook.pushed (ρ.level level) node (ρ.reference r) n := by
  rw [Relabelling.level, OrderBook.pushed, pushBack_mapPayloads]
  rfl

theorem level_reduced (f : OrderBook.Found) (removed : UInt32) :
    ρ.level (OrderBook.reduced f removed) = OrderBook.reduced (ρ.found f) removed := by
  rw [Relabelling.level, OrderBook.reduced, assign_mapPayloads]
  rfl

theorem level_unlinked (f : OrderBook.Found) (removed : UInt32) :
    (OrderBook.unlinked f removed).map ρ.level = OrderBook.unlinked (ρ.found f) removed := by
  have hqueue : unlink (ρ.found f).level.orders (ρ.found f).location.position =
      mapPayloads ρ.order (unlink f.level.orders f.location.position) :=
    (unlink_mapPayloads ρ.order f.level.orders f.location.position).symm
  rw [OrderBook.unlinked, OrderBook.unlinked, hqueue, isEmpty_mapPayloads]
  split
  · rfl
  · rfl

theorem book_sideByte (side : Side) : (ρ.sideByte side).book = ρ.side side.book := by
  by_cases h : ρ.mirrored = true
  · rw [sideByte, Relabelling.side, if_pos h, if_pos h, book_tag]
  · rw [sideByte, Relabelling.side, if_neg h, if_neg h]

theorem sideByte_tag (s : BookSide) : ρ.sideByte s.tag = (ρ.side s).tag := by
  by_cases h : ρ.mirrored = true
  · rw [sideByte, Relabelling.side, if_pos h, if_pos h, book_tag]
  · rw [sideByte, Relabelling.side, if_neg h, if_neg h]

theorem side_injective : Function.Injective ρ.side := by
  intro s t h
  by_cases hm : ρ.mirrored = true
  · rw [Relabelling.side, Relabelling.side, if_pos hm, if_pos hm] at h
    cases s <;> cases t <;> first | rfl | cases h
  · rwa [Relabelling.side, Relabelling.side, if_neg hm, if_neg hm] at h

/-- The action of a message with new labels. -/
theorem actionAt?_message (l : UInt16) (m : Message) :
    (ρ.message m).actionAt? l = (m.actionAt? l).map ρ.action := by
  have hlocate : (ρ.message m).stockLocate = m.stockLocate := by
    cases m <;> rfl
  have haction : (ρ.message m).action? = m.action?.map ρ.action := by
    cases m with
    | addOrder m =>
      simp only [message, Message.action?, addOrder, action, book_sideByte, Option.map_some]
    | addOrderWithMpid m =>
      simp only [message, Message.action?, addOrder, action, book_sideByte, Option.map_some]
    | orderExecuted m => rfl
    | orderExecutedWithPrice m => rfl
    | orderCancel m => rfl
    | orderDelete m => rfl
    | orderReplace m => rfl
    | tradeNonCross m => rfl
    | systemEvent m => rfl
    | stockDirectory m => rfl
    | other type record => rfl
  rw [Message.actionAt?, Message.actionAt?, hlocate]
  by_cases hgate : m.stockLocate = l
  · rw [if_pos hgate, if_pos hgate, haction]
  · rw [if_neg hgate, if_neg hgate]
    rfl

namespace Faithful

variable {ρ} {refs : Set UInt64} {prices : Set PriceTicks} (h : ρ.Faithful refs prices)
include h

theorem price_injOn : Set.InjOn ρ.price prices := by
  intro p hp q hq heq
  by_contra hne
  rcases UInt32.lt_or_lt_of_ne hne with hlt | hgt
  · have hprice := h.price p hp q hq hlt
    rw [heq] at hprice
    split at hprice <;> exact UInt32.lt_irrefl _ hprice
  · have hprice := h.price q hq p hp hgt
    rw [heq] at hprice
    split at hprice <;> exact UInt32.lt_irrefl _ hprice

theorem place_injOn : Set.InjOn ρ.place { x | x.2 ∈ prices } := by
  rintro ⟨s, p⟩ hp ⟨t, q⟩ hq heq
  rw [place, place, Prod.mk.injEq] at heq
  exact Prod.ext (ρ.side_injective heq.1) (h.price_injOn hp hq heq.2)

theorem price_le {p q : PriceTicks} (hp : p ∈ prices) (hq : q ∈ prices) (hpq : p ≤ q) :
    if ρ.mirrored then ρ.price q ≤ ρ.price p else ρ.price p ≤ ρ.price q := by
  by_cases heq : p = q
  · subst heq
    split <;> exact UInt32.le_refl _
  · have hprice := h.price p hp q hq (UInt32.lt_of_le_of_ne hpq heq)
    split at hprice
    · rename_i hm
      rw [if_pos hm]
      exact UInt32.le_of_lt hprice
    · rename_i hm
      rw [if_neg hm]
      exact UInt32.le_of_lt hprice

/-- What is no worse on a side is no worse on the side it goes to. -/
theorem noWorse {s : BookSide} {p q : PriceTicks} (hp : p ∈ prices) (hq : q ∈ prices)
    (hpq : s.NoWorse p q) : (ρ.side s).NoWorse (ρ.price p) (ρ.price q) := by
  by_cases hm : ρ.mirrored = true
  · rw [Relabelling.side, if_pos hm]
    cases s with
    | bids =>
      have hprice := h.price_le hq hp hpq
      rwa [if_pos hm] at hprice
    | asks =>
      have hprice := h.price_le hp hq hpq
      rwa [if_pos hm] at hprice
  · rw [Relabelling.side, if_neg hm]
    cases s with
    | bids =>
      have hprice := h.price_le hq hp hpq
      rwa [if_neg hm] at hprice
    | asks =>
      have hprice := h.price_le hp hq hpq
      rwa [if_neg hm] at hprice

end Faithful

/-- `c` is `b` with new labels. -/
structure Relates (refs : Set UInt64) (prices : Set PriceTicks) (b c : OrderBook) : Prop where
  locate : c.locate = b.locate
  stats : c.stats = b.stats
  nextNode : c.nextNode = b.nextNode
  levels : Image ρ.place ρ.level { x | x.2 ∈ prices } (fun x => b.level? x.1 x.2)
    fun x => c.level? x.1 x.2
  index : Image ρ.reference ρ.location refs (fun r : UInt64 => b.orders[r]?)
    fun r : UInt64 => c.orders[r]?

namespace Relates

variable {ρ} {refs : Set UInt64} {prices : Set PriceTicks} {b c : OrderBook}

theorem located (l : UInt16) :
    ρ.Relates refs prices (OrderBook.located l) (OrderBook.located l) where
  locate := rfl
  stats := rfl
  nextNode := rfl
  levels := by
    have hnone : (fun x : BookSide × PriceTicks => (OrderBook.located l).level? x.1 x.2) =
        fun _ => none := by
      funext ⟨s, p⟩
      cases s <;> simp [OrderBook.level?, OrderBook.located]
    rw [hnone]
    exact Image.empty _ _ _
  index := by
    have hnone : (fun r : UInt64 => (OrderBook.located l).orders[r]?) = fun _ => none := by
      funext r
      simp [OrderBook.located]
    rw [hnone]
    exact Image.empty _ _ _

variable (h : ρ.Relates refs prices b c)
include h

theorem level? (s : BookSide) {p : PriceTicks} (hp : p ∈ prices) :
    c.level? (ρ.side s) (ρ.price p) = (b.level? s p).map ρ.level := h.levels.value (s, p) hp

theorem orders {r : UInt64} (hr : r ∈ refs) :
    c.orders[ρ.reference r]? = (b.orders[r]?).map ρ.location := h.index.value r hr

theorem tallied (t : Tally) : ρ.Relates refs prices (b.tallied t) (c.tallied t) where
  locate := h.locate
  stats := congrArg (Stats.bump · t) h.stats
  nextNode := h.nextNode
  levels := by simpa using h.levels
  index := h.index

theorem price_mem {r : UInt64} {f : OrderBook.Found} (hf : b.find? r = some f) :
    f.location.price ∈ prices :=
  h.levels.domain (f.location.side.book, f.location.price)
    (by simp [(OrderBook.find?_eq_some.mp hf).2.1])

/-- Following the index in both books. -/
theorem find? (hb : b.Linked) {r : UInt64} (hr : r ∈ refs) :
    c.find? (ρ.reference r) = (b.find? r).map ρ.found := by
  cases hloc : b.orders[r]? with
  | none =>
    have hloc' := h.orders hr
    rw [hloc] at hloc'
    simp only [OrderBook.find?, hloc, hloc', Option.map_none]
    rfl
  | some location =>
    obtain ⟨s, f, hf, rfl⟩ := hb.foundAt_of_index hloc
    have hprice := h.price_mem hf.find
    rw [hf.find, Option.map_some, OrderBook.find?_eq_some]
    have hbook : f.location.side.book = s := by rw [hf.side, book_tag]
    refine ⟨?_, ?_, ?_⟩
    · rw [h.orders hr, hloc]
      rfl
    · change c.level? (ρ.sideByte f.location.side).book (ρ.price f.location.price) = _
      rw [book_sideByte, hbook, h.level? s hprice, hf.level]
      rfl
    · change deref (mapPayloads ρ.order f.level.orders) f.location.position = _
      rw [deref_mapPayloads, hf.node]
      rfl

theorem insert (hρ : ρ.Faithful refs prices) {side side' : Side}
    (hside : side'.book = ρ.side side.book) {r : UInt64} (hr : r ∈ refs) {p : PriceTicks}
    (hp : p ∈ prices) (n : UInt32) :
    ρ.Relates refs prices (b.insert side r p n) (c.insert side' (ρ.reference r) (ρ.price p) n)
    where
  locate := by simpa using h.locate
  stats := by simpa using h.stats
  nextNode := by simpa using h.nextNode
  levels := by
    have hupdate := h.levels.update hρ.place_injOn (k := (side.book, p)) hp
      (some (OrderBook.pushed ((b.level? side.book p).getD {}) b.nextNode r n))
    rw [OrderBook.levels_insert, OrderBook.levels_insert, hside, h.level? _ hp, h.nextNode]
    rw [Option.map_some, level_pushed] at hupdate
    cases hlevel : b.level? side.book p with
    | none =>
      rw [hlevel] at hupdate
      exact hupdate
    | some level =>
      rw [hlevel] at hupdate
      exact hupdate
  index := by
    have hupdate := h.index.update hρ.reference hr (some ((b.orders[r]?).getD
      { side := side.book.tag, price := p, position := b.nextNode }))
    rw [OrderBook.index_insert, OrderBook.index_insert, hside, h.orders hr, h.nextNode]
    cases hold : b.orders[r]? with
    | none =>
      rw [hold, Option.map_some, Option.getD_none, location, sideByte_tag] at hupdate
      exact hupdate
    | some location =>
      rw [hold] at hupdate
      exact hupdate

theorem afterReduction (hρ : ρ.Faithful refs prices) {r : UInt64} (hr : r ∈ refs)
    {f : OrderBook.Found} (hp : f.location.price ∈ prices) (removed : UInt32) (removeAll : Bool) :
    ρ.Relates refs prices (b.afterReduction r f removed removeAll)
      (c.afterReduction (ρ.reference r) (ρ.found f) removed removeAll) where
  locate := by simpa using h.locate
  stats := by simpa using h.stats
  nextNode := by simpa using h.nextNode
  levels := by
    have hupdate := h.levels.update hρ.place_injOn (k := (f.location.side.book, f.location.price))
      hp (if removeAll || f.order.shares - removed == 0 then OrderBook.unlinked f removed
        else some (OrderBook.reduced f removed))
    have hplace : ρ.place (f.location.side.book, f.location.price) =
        ((ρ.found f).location.side.book, (ρ.found f).location.price) :=
      Prod.ext (ρ.book_sideByte f.location.side).symm rfl
    rw [OrderBook.levels_afterReduction, OrderBook.levels_afterReduction, ← hplace, shares_found]
    by_cases hgone : (removeAll || f.order.shares - removed == 0) = true
    · rw [if_pos hgone, level_unlinked] at hupdate
      rw [if_pos hgone, if_pos hgone]
      exact hupdate
    · rw [if_neg hgone, Option.map_some, level_reduced] at hupdate
      rw [if_neg hgone, if_neg hgone]
      exact hupdate
  index := by
    rw [OrderBook.orders_afterReduction, OrderBook.orders_afterReduction, shares_found]
    by_cases hgone : (removeAll || f.order.shares - removed == 0) = true
    · rw [if_pos hgone, if_pos hgone, OrderBook.index_erase, OrderBook.index_erase]
      exact h.index.update hρ.reference hr none
    · rw [if_neg hgone, if_neg hgone]
      exact h.index

theorem takeOff (hρ : ρ.Faithful refs prices) (hb : b.Linked) {r : UInt64} (hr : r ∈ refs)
    (n : UInt32) (removeAll : Bool) :
    ρ.Relates refs prices (b.takeOff r n removeAll)
      (c.takeOff (ρ.reference r) n removeAll) := by
  have hfind := h.find? hb hr
  cases hf : b.find? r with
  | none =>
    rw [hf] at hfind
    rw [OrderBook.takeOff, OrderBook.takeOff, hf, hfind]
    exact h
  | some f =>
    rw [hf] at hfind
    rw [OrderBook.takeOff, OrderBook.takeOff, hf, hfind]
    exact h.afterReduction hρ hr (h.price_mem hf) _ _

theorem effect (hρ : ρ.Faithful refs prices) (hb : b.Linked) {a : BookAction}
    (hrefs : ∀ r ∈ a.references, r ∈ refs) (hprices : ∀ p ∈ a.prices, p ∈ prices) :
    ρ.Relates refs prices (b.effect a) (c.effect (ρ.action a)) := by
  cases a with
  | add side r p n =>
    have hside : (ρ.side side).tag.book = ρ.side side.tag.book := by rw [book_tag, book_tag]
    exact (h.insert hρ hside (hrefs r List.mem_cons_self) (hprices p List.mem_cons_self)
      n).tallied _
  | execute r n => exact (h.takeOff hρ hb (hrefs r List.mem_cons_self) n false).tallied _
  | cancel r n => exact (h.takeOff hρ hb (hrefs r List.mem_cons_self) n false).tallied _
  | delete r => exact (h.takeOff hρ hb (hrefs r List.mem_cons_self) 0 true).tallied _
  | trade => exact h.tallied _
  | replace original new p n =>
    have horiginal := hrefs original List.mem_cons_self
    have hfind := h.find? hb horiginal
    cases hf : b.find? original with
    | none =>
      rw [hf] at hfind
      simp only [OrderBook.effect, action, hf, hfind, Option.map_none]
      exact h
    | some f =>
      rw [hf] at hfind
      simp only [OrderBook.effect, action, hf, hfind, Option.map_some]
      exact ((h.takeOff hρ hb horiginal 0 true).insert hρ (ρ.book_sideByte f.location.side)
        (hrefs new (List.mem_cons_of_mem _ List.mem_cons_self)) (hprices p List.mem_cons_self)
        n).tallied _

theorem within (hb : b.Linked) {a : BookAction} (hrefs : ∀ r ∈ a.references, r ∈ refs) :
    c.Within (ρ.action a) ↔ b.Within a := by
  have hfits : ∀ r ∈ refs, ∀ n : UInt32, (∀ f ∈ c.find? (ρ.reference r), n ≤ f.order.shares) ↔
      ∀ f ∈ b.find? r, n ≤ f.order.shares := by
    intro r hr n
    rw [h.find? hb hr]
    cases b.find? r <;> simp
  cases a with
  | execute r n => exact hfits r (hrefs r List.mem_cons_self) n
  | cancel r n => exact hfits r (hrefs r List.mem_cons_self) n
  | add side r p n => exact Iff.rfl
  | delete r => exact Iff.rfl
  | replace original new p n => exact Iff.rfl
  | trade => exact Iff.rfl

theorem fits (hb : b.Linked) {m : Message} (hm : m.Speaks b.locate refs prices) :
    c.Fits (ρ.message m) ↔ b.Fits m := by
  rw [OrderBook.Fits, OrderBook.Fits, h.locate, actionAt?_message]
  cases hact : m.actionAt? b.locate with
  | none => simp
  | some a => simpa using h.within hb (hm a hact).1

theorem received (hρ : ρ.Faithful refs prices) (hb : b.Linked) {m : Message}
    (hm : m.Speaks b.locate refs prices) :
    ρ.Relates refs prices (b.received m) (c.received (ρ.message m)) := by
  rw [OrderBook.received, OrderBook.received, h.locate, actionAt?_message]
  cases hact : m.actionAt? b.locate with
  | none => exact h
  | some a => exact h.effect hρ hb (hm a hact).1 (hm a hact).2

/-- One message, in either build: both books take it, or both stop at the assert. -/
theorem on (hρ : ρ.Faithful refs prices) (hb : b.Linked) (hc : c.Linked) {m : Message}
    (hm : m.Speaks b.locate refs prices) (build : Build) :
    Alike (fun b' c' => b'.locate = b.locate ∧ b'.Linked ∧ c'.Linked ∧ ρ.Relates refs prices b' c')
      (b.on build m) (c.on build (ρ.message m)) := by
  have hsame := h.fits hb hm
  by_cases hstop : build = .debug ∧ ¬ b.Fits m
  · obtain ⟨rfl, hover⟩ := hstop
    rw [OrderBook.on_over hover, OrderBook.on_over fun hfits => hover (hsame.mp hfits)]
    exact rfl
  · have hfits : build = .debug → b.Fits m := fun hbuild => by
      by_contra hover
      exact hstop ⟨hbuild, hover⟩
    rw [hb.on hfits, hc.on fun hbuild => hsame.mpr (hfits hbuild)]
    exact ⟨hb.received_locate m, hb.received m, hc.received _, h.received hρ hb hm⟩

/-- The levels of one side. -/
theorem sideLevels (s : BookSide) :
    Image ρ.price ρ.level prices (b.level? s) (c.level? (ρ.side s)) where
  value := fun p hp => h.level? s hp
  domain := fun p hp => h.levels.domain (s, p) hp
  onto := by
    intro q hq
    obtain ⟨⟨t, p⟩, hp, heq⟩ := h.levels.onto (ρ.side s, q) hq
    exact ⟨p, hp, congrArg Prod.snd heq⟩

end Relates

/-- What a book shows, and what it shows under new labels. -/
structure Shows (prices : Set PriceTicks) (b c : OrderBook) : Prop where
  stats : c.stats = b.stats
  orderCount : c.orderCount = b.orderCount
  levelCount : ∀ s, c.levelCount (ρ.side s) = b.levelCount s
  best : ∀ s, c.best (ρ.side s) = (b.best s).map ρ.bookLevel
  total : ∀ s, ∀ p ∈ prices, (c.level? (ρ.side s) (ρ.price p)).map PriceLevel.totalShares =
    (b.level? s p).map PriceLevel.totalShares
  queue : ∀ s, ∀ p ∈ prices, c.queueAt (ρ.side s) (ρ.price p) = (b.queueAt s p).map ρ.order

theorem Relates.shows {ρ : Relabelling} {refs : Set UInt64} {prices : Set PriceTicks}
    {b c : OrderBook} (h : ρ.Relates refs prices b c) (hρ : ρ.Faithful refs prices) :
    ρ.Shows prices b c where
  stats := h.stats
  orderCount := by
    obtain ⟨hnodup, hkeys⟩ := h.index.keys hρ.reference b.orders.nodup_keys fun r => by
      rw [Std.ExtTreeMap.mem_keys, Std.ExtTreeMap.mem_iff_isSome_getElem?]
    rw [OrderBook.orderCount, OrderBook.size_eq_length hnodup hkeys, List.length_map,
      Std.ExtTreeMap.length_keys]
    rfl
  levelCount := by
    intro s
    obtain ⟨ps, hps, hmem⟩ := b.exists_prices s
    obtain ⟨hnodup, hkeys⟩ := (h.sideLevels s).keys hρ.price_injOn hps hmem
    rw [OrderBook.levelCount_eq_length hnodup hkeys, OrderBook.levelCount_eq_length hps hmem,
      List.length_map]
  best := by
    intro s
    have hlevels := h.sideLevels s
    cases hbest : b.best s with
    | none =>
      cases hbest' : c.best (ρ.side s) with
      | none => rfl
      | some first =>
        obtain ⟨⟨level', hlevel', -⟩, -⟩ := OrderBook.best_some hbest'
        obtain ⟨p, -, -, level, hlevel, -⟩ := hlevels.preimage hlevel'
        rw [OrderBook.best_eq_none hbest] at hlevel
        cases hlevel
    | some first =>
      obtain ⟨⟨level, hlevel, hshares⟩, hfirst⟩ := OrderBook.best_some hbest
      have hp : first.price ∈ prices := hlevels.domain first.price (by rw [hlevel]; rfl)
      have hlevel' := hlevels.value first.price hp
      rw [hlevel, Option.map_some] at hlevel'
      rw [OrderBook.best_eq_some hlevel' fun q hq =>
        hlevels.first (fun p hp q hq => hρ.noWorse hp hq) hp hfirst hq, Option.map_some]
      rw [bookLevel, hshares]
      rfl
  total := by
    intro s p hp
    rw [h.level? s hp, Option.map_map]
    rfl
  queue := by
    intro s p hp
    rw [OrderBook.queueAt, OrderBook.queueAt, h.level? s hp]
    cases b.level? s p with
    | none => rfl
    | some level => exact payloads_mapPayloads ρ.order level.orders

/-- Sessions that differ in their labels only make books that differ in their labels only, or stop
at the same message with the same fault. -/
theorem runs_alike {ρ : Relabelling} {refs : Set UInt64} {prices : Set PriceTicks}
    (hρ : ρ.Faithful refs prices) (build : Build) {l : UInt16} {ms : List Message}
    (hms : ∀ m ∈ ms, m.Speaks l refs prices) :
    Alike (fun b c => ρ.Relates refs prices b c ∧ ρ.Shows prices b c)
      (run (OrderBook.on build) (OrderBook.located l) ms)
      (run (OrderBook.on build) (OrderBook.located l) (ms.map ρ.message)) := by
  have hstart : (OrderBook.located l).locate = l ∧ (OrderBook.located l).Linked ∧
      (OrderBook.located l).Linked ∧
      ρ.Relates refs prices (OrderBook.located l) (OrderBook.located l) :=
    ⟨rfl, OrderBook.linked_located l, OrderBook.linked_located l, Relates.located l⟩
  refine (run_alike (fun b c => b.locate = l ∧ b.Linked ∧ c.Linked ∧ ρ.Relates refs prices b c)
    ρ.message ?_ hstart).mono fun b c hbc => ⟨hbc.2.2.2, hbc.2.2.2.shows hρ⟩
  rintro b c m hm ⟨hlocate, hb, hc, h⟩
  have hspeaks := hms m hm
  rw [← hlocate] at hspeaks
  exact (h.on hρ hb hc hspeaks build).mono fun b' c' hnext => ⟨hnext.1.trans hlocate, hnext.2⟩

/-- The two sides exchanged, every price counted from the other end of the range. -/
def mirror : Relabelling where
  reference := id
  price := fun p => 4294967295 - p
  mirrored := true

theorem mirror_faithful : mirror.Faithful Set.univ Set.univ where
  reference := Function.injective_id.injOn
  price := by
    intro p _ q _ hpq
    have hle : ∀ x : UInt32, x ≤ 4294967295 := by
      intro x
      have := x.toNat_lt
      rw [UInt32.le_iff_toNat_le]
      change x.toNat ≤ 4294967295
      omega
    change 4294967295 - q < 4294967295 - p
    rw [UInt32.lt_iff_toNat_lt] at hpq ⊢
    rw [UInt32.toNat_sub_of_le _ _ (hle q), UInt32.toNat_sub_of_le _ _ (hle p)]
    have := q.toNat_lt
    change 4294967295 - q.toNat < 4294967295 - p.toNat
    omega

/-- An order bought, one executed in part and replaced, and the same sold. -/
theorem runs_alike_mirror :
    Alike (fun b c => mirror.Relates Set.univ Set.univ b c ∧ mirror.Shows Set.univ b c)
      (run (OrderBook.on .debug) (OrderBook.located 7) [.bid 7 1 100 5000, .bid 7 2 50 5000,
        .executing 7 1 40, .replacing 7 1 3 30 5000])
      (run (OrderBook.on .debug) (OrderBook.located 7) ([.bid 7 1 100 5000, .bid 7 2 50 5000,
        .executing 7 1 40, .replacing 7 1 3 30 5000].map mirror.message)) :=
  runs_alike mirror_faithful .debug fun _ _ _ _ => ⟨fun _ _ => trivial, fun _ _ => trivial⟩

end Relabelling

end Itch
