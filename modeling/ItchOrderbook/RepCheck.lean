import ItchOrderbook.BookLinks
import Mathlib.Data.List.Nodup
import Mathlib.Data.List.Perm.Subperm
import Mathlib.Data.UInt

/-!
# What the representation check decides

`check_rep` walks both price maps and compares every queued order with its
index entry, every level with its cached total, and the number of queued orders
with the size of the index. It never walks the index. That its entries lead
somewhere follows by counting: references tell the queued orders apart, so as
many orders as entries leave no entry over.
-/

namespace Itch

open NodeQueue

/-- The shares of an order as its level counts them. -/
def RestingOrder.counted (o : RestingOrder) : UInt64 := o.shares.toUInt64

namespace OrderBook

section Walk

variable {orders : OrderIndex} {side : Side}

/-- The orders of a queue are where their index entries say. -/
def QueueIndexed (orders : OrderIndex) (side : Side) (price : PriceTicks)
    (q : Queue RestingOrder) : Prop :=
  ∀ n o, (n, o) ∈ q → orders[o.orderReference]? = some ⟨side, price, n⟩

theorem checkQueue_eq_some {price : PriceTicks} {q : Queue RestingOrder} {sum x : UInt64}
    {count k : ℕ} : checkQueue orders side price q sum count = some (x, k) ↔
      QueueIndexed orders side price q ∧ x = sum + total RestingOrder.counted q ∧
        k = count + q.length := by
  induction q generalizing sum count with
  | nil => simp [checkQueue, QueueIndexed, eq_comm]
  | cons e q ih =>
    obtain ⟨n, o⟩ := e
    rw [checkQueue]
    cases hloc : orders[o.orderReference]? with
    | none =>
      simp only [reduceCtorEq, false_iff]
      rintro ⟨hall, _⟩
      have hsome := hall n o List.mem_cons_self
      rw [hloc] at hsome
      cases hsome
    | some location =>
      obtain ⟨side', price', node⟩ := location
      by_cases hbad : side' ≠ side ∨ price' ≠ price ∨ node ≠ n
      · simp only [if_pos hbad, reduceCtorEq, false_iff]
        rintro ⟨hall, _⟩
        have hsome := hall n o List.mem_cons_self
        rw [hloc] at hsome
        obtain ⟨rfl, rfl, rfl⟩ := OrderLocation.mk.inj (Option.some.inj hsome)
        simp at hbad
      · change (if side' ≠ side ∨ price' ≠ price ∨ node ≠ n then none else _) = _ ↔ _
        rw [if_neg hbad, ih, total_cons, List.length_cons]
        simp only [not_or, not_not] at hbad
        obtain ⟨rfl, rfl, rfl⟩ := hbad
        have hsum : sum + o.shares.toUInt64 + total RestingOrder.counted q =
            sum + (o.counted + total RestingOrder.counted q) := add_assoc _ _ _
        rw [hsum]
        constructor
        · rintro ⟨hall, hx, hk⟩
          refine ⟨?_, hx, by omega⟩
          intro n o hmem
          rcases List.mem_cons.mp hmem with heq | hmem
          · cases heq
            exact hloc
          · exact hall n o hmem
        · rintro ⟨hall, hx, hk⟩
          exact ⟨fun n o hmem => hall n o (List.mem_cons_of_mem _ hmem), hx, by omega⟩

/-- What `check_side` asks of one level. -/
def LevelOk (orders : OrderIndex) (side : Side) (price : PriceTicks) (level : PriceLevel) : Prop :=
  level.orders ≠ [] ∧ level.totalShares = total RestingOrder.counted level.orders ∧
    QueueIndexed orders side price level.orders

theorem checkSide_eq_some {levels : List (PriceTicks × PriceLevel)} {count k : ℕ} :
    checkSide orders side levels count = some k ↔
      (∀ price level, (price, level) ∈ levels → LevelOk orders side price level) ∧
      k = count + (levels.map fun e => e.2.orders.length).sum := by
  induction levels generalizing count with
  | nil => simp [checkSide, eq_comm]
  | cons e levels ih =>
    obtain ⟨price, level⟩ := e
    rw [checkSide]
    have hcons : (∀ p v, (p, v) ∈ (price, level) :: levels → LevelOk orders side p v) ↔
        LevelOk orders side price level ∧ ∀ p v, (p, v) ∈ levels → LevelOk orders side p v := by
      simp only [List.mem_cons, Prod.mk.injEq, or_imp, forall_and, and_imp, forall_eq_apply_imp_iff,
        forall_eq]
    rw [hcons, List.map_cons, List.sum_cons]
    by_cases hempty : level.orders = []
    · simp [hempty, LevelOk]
    · rw [if_neg (by simpa using hempty)]
      cases hqueue : checkQueue orders side price level.orders 0 count with
      | none =>
        simp only [reduceCtorEq, false_iff]
        rintro ⟨⟨⟨_, _, hall⟩, _⟩, _⟩
        have hsome : checkQueue orders side price level.orders 0 count = some _ :=
          checkQueue_eq_some.mpr ⟨hall, rfl, rfl⟩
        rw [hqueue] at hsome
        cases hsome
      | some result =>
        obtain ⟨sum, counted⟩ := result
        obtain ⟨hall, hsum, hcount⟩ := checkQueue_eq_some.mp hqueue
        rw [zero_add] at hsum
        subst hsum hcount
        by_cases htotal : total RestingOrder.counted level.orders = level.totalShares
        · have hok : LevelOk orders side price level := ⟨hempty, htotal.symm, hall⟩
          simp only [htotal, ne_eq, not_true_eq_false, if_false, ih, hok, true_and, add_assoc]
        · simp only [ne_eq, htotal, not_false_eq_true, if_true, reduceCtorEq, false_iff]
          rintro ⟨⟨⟨_, heq, _⟩, _⟩, _⟩
          exact htotal heq.symm

end Walk

/-- A queued order with the place it rests at. -/
abbrev Resting := BookSide × PriceTicks × NodeId × RestingOrder

section Nodes

variable {cmp : PriceTicks → PriceTicks → Ordering} [Std.TransCmp cmp] (s : BookSide)

/-- Every queued order of one side, best level first. -/
def sideNodes (levels : List (PriceTicks × PriceLevel)) : List Resting :=
  levels.flatMap fun e => e.2.orders.map fun node => (s, e.1, node)

theorem length_sideNodes (levels : List (PriceTicks × PriceLevel)) :
    (sideNodes s levels).length = (levels.map fun e => e.2.orders.length).sum := by
  simp [sideNodes, List.length_flatMap]

theorem mem_sideNodes [Std.LawfulEqCmp cmp] (levels : Levels cmp) (x : Resting) :
    x ∈ sideNodes s levels.toList ↔
      x.1 = s ∧ ∃ level, levels[x.2.1]? = some level ∧ x.2.2 ∈ level.orders := by
  obtain ⟨t, q, node⟩ := x
  simp only [sideNodes, List.mem_flatMap, List.mem_map, Prod.exists, Prod.mk.injEq,
    Std.ExtTreeMap.mem_toList_iff_getElem?_eq_some]
  constructor
  · rintro ⟨p, level, hlevel, n, o, hmem, rfl, rfl, rfl⟩
    exact ⟨rfl, level, hlevel, hmem⟩
  · rintro ⟨rfl, level, hlevel, hmem⟩
    exact ⟨q, level, hlevel, node.1, node.2, hmem, rfl, rfl, rfl⟩

theorem nodup_sideNodes [Std.LawfulEqCmp cmp] (levels : Levels cmp)
    (h : ∀ (p : PriceTicks) (level : PriceLevel), levels[p]? = some level →
      (ids level.orders).Nodup) : (sideNodes s levels.toList).Nodup := by
  rw [sideNodes, List.nodup_flatMap]
  constructor
  · rintro ⟨p, level⟩ hmem
    rw [Std.ExtTreeMap.mem_toList_iff_getElem?_eq_some] at hmem
    refine (List.Nodup.of_map _ (h p level hmem)).map ?_
    intro x y hxy
    simpa using hxy
  · refine levels.distinct_keys_toList.imp ?_
    intro e e' hne x hx hx'
    obtain ⟨_, _, rfl⟩ := List.mem_map.mp hx
    obtain ⟨_, _, heq⟩ := List.mem_map.mp hx'
    have hprice : e'.1 = e.1 := congrArg (fun x : Resting => x.2.1) heq
    exact hne (by rw [hprice]; exact Std.ReflCmp.compare_self)

end Nodes

/-- Every queued order of the book. -/
def nodes (b : OrderBook) : List Resting :=
  sideNodes .bids b.bids.toList ++ sideNodes .asks b.asks.toList

theorem mem_nodes {b : OrderBook} {s : BookSide} {p : PriceTicks} {n : NodeId}
    {o : RestingOrder} : (s, p, n, o) ∈ b.nodes ↔ b.Rests s p n o := by
  rw [nodes, List.mem_append, mem_sideNodes, mem_sideNodes]
  cases s <;> simp [Rests, level?]

theorem UniqueNodes.nodup_nodes {b : OrderBook} (h : b.UniqueNodes) : b.nodes.Nodup := by
  rw [nodes, List.nodup_append]
  refine ⟨nodup_sideNodes _ _ fun p level hl => h.distinct (s := .bids) hl,
    nodup_sideNodes _ _ fun p level hl => h.distinct (s := .asks) hl, ?_⟩
  rintro x hx y hy rfl
  have hbids := ((mem_sideNodes _ _ _).mp hx).1
  have hasks := ((mem_sideNodes _ _ _).mp hy).1
  rw [hbids] at hasks
  cases hasks

theorem checkRep_iff (b : OrderBook) : b.checkRep = true ↔
    (∀ s p level, b.level? s p = some level → LevelOk b.orders s.tag p level) ∧
      b.nodes.length = b.orders.size := by
  have hside : (∀ s p level, b.level? s p = some level → LevelOk b.orders s.tag p level) ↔
      (∀ p level, (p, level) ∈ b.bids.toList → LevelOk b.orders .buy p level) ∧
      (∀ p level, (p, level) ∈ b.asks.toList → LevelOk b.orders .sell p level) := by
    simp only [Std.ExtTreeMap.mem_toList_iff_getElem?_eq_some]
    constructor
    · exact fun h => ⟨h .bids, h .asks⟩
    · rintro ⟨hbids, hasks⟩ (_ | _)
      · exact hbids
      · exact hasks
  rw [hside, nodes, List.length_append, length_sideNodes, length_sideNodes, checkRep]
  cases hbids : checkSide b.orders .buy b.bids.toList 0 with
  | none =>
    simp only [Bool.false_eq_true, false_iff]
    rintro ⟨⟨hall, _⟩, _⟩
    have hsome : checkSide b.orders .buy b.bids.toList 0 = some _ :=
      checkSide_eq_some.mpr ⟨hall, rfl⟩
    rw [hbids] at hsome
    cases hsome
  | some count =>
    obtain ⟨hall, rfl⟩ := checkSide_eq_some.mp hbids
    simp only [zero_add]
    generalize (b.bids.toList.map fun e => e.2.orders.length).sum = bidCount
    cases hasks : checkSide b.orders .sell b.asks.toList bidCount with
    | none =>
      simp only [Bool.false_eq_true, false_iff]
      rintro ⟨⟨_, hall'⟩, _⟩
      have hsome : checkSide b.orders .sell b.asks.toList bidCount = some _ :=
        checkSide_eq_some.mpr ⟨hall', rfl⟩
      rw [hasks] at hsome
      cases hsome
    | some count =>
      obtain ⟨hall', rfl⟩ := checkSide_eq_some.mp hasks
      simp only [beq_iff_eq]
      exact ⟨fun h => ⟨⟨hall, hall'⟩, h⟩, And.right⟩

/-- Every level's total is the sum of its queue, modulo 2^64. -/
def TotalsHold (b : OrderBook) : Prop :=
  ∀ ⦃s p level⦄, b.level? s p = some level →
    level.totalShares = total RestingOrder.counted level.orders

/-- Every queued order is the one its reference leads to. -/
def Indexed (b : OrderBook) : Prop :=
  ∀ ⦃s p n o⦄, b.Rests s p n o → b.orders[o.orderReference]? = some ⟨s.tag, p, n⟩

section Counting

variable {b : OrderBook}

/-- In an indexed book an order is known by its reference. -/
theorem UniqueNodes.reference_injective (h : b.UniqueNodes) (hindex : b.Indexed)
    {s t : BookSide} {p q : PriceTicks} {n k : NodeId} {o x : RestingOrder}
    (ho : b.Rests s p n o) (hx : b.Rests t q k x) (href : o.orderReference = x.orderReference) :
    s = t ∧ p = q ∧ n = k ∧ o = x := by
  have hloc := hindex ho
  rw [href, hindex hx] at hloc
  obtain ⟨_, rfl, rfl⟩ := OrderLocation.mk.inj (Option.some.inj hloc)
  obtain ⟨rfl, _⟩ := h.place ho hx
  exact ⟨rfl, rfl, rfl, h.rests_unique ho hx⟩

/-- The references of the queued orders. -/
def references (b : OrderBook) : List UInt64 := b.nodes.map fun x => x.2.2.2.orderReference

theorem mem_references {r : UInt64} :
    r ∈ b.references ↔ ∃ s p n o, b.Rests s p n o ∧ o.orderReference = r := by
  simp only [references, List.mem_map, Prod.exists, mem_nodes]

theorem UniqueNodes.nodup_references (h : b.UniqueNodes) (hindex : b.Indexed) :
    b.references.Nodup := by
  refine List.Nodup.map_on ?_ h.nodup_nodes
  rintro ⟨s, p, n, o⟩ hx ⟨t, q, k, x⟩ hy href
  obtain ⟨rfl, rfl, rfl, rfl⟩ :=
    h.reference_injective hindex (mem_nodes.mp hx) (mem_nodes.mp hy) href
  rfl

theorem references_subset (hindex : b.Indexed) : b.references ⊆ b.orders.keys := by
  intro r hr
  obtain ⟨s, p, n, o, hrest, rfl⟩ := mem_references.mp hr
  rw [Std.ExtTreeMap.mem_keys, Std.ExtTreeMap.mem_iff_isSome_getElem?, hindex hrest]
  rfl

/-- As many queued orders as entries, and the entries are those of the queued orders. -/
theorem UniqueNodes.count_iff (h : b.UniqueNodes) (hindex : b.Indexed) :
    b.nodes.length = b.orders.size ↔ b.orders.keys ⊆ b.references := by
  have hlength : b.references.length = b.nodes.length := List.length_map _
  have hsub := List.subperm_of_subset (h.nodup_references hindex) (references_subset hindex)
  rw [← hlength, ← Std.ExtTreeMap.length_keys]
  constructor
  · intro heq
    exact (hsub.perm_of_length_le heq.ge).symm.subset
  · intro hkeys
    have hsup := List.subperm_of_subset b.orders.nodup_keys hkeys
    exact (hsub.antisymm hsup).length_eq

end Counting

/-- The representation invariant: levels are occupied and their totals right, every entry of
the index leads to the order of its reference, and no other entry leads there. -/
structure RepInvariant (b : OrderBook) : Prop where
  occupied : b.LevelsOccupied
  totals : b.TotalsHold
  entries : b.Positioned
  nodes : ∀ s p n o, b.Rests s p n o →
    ∀ r, (∃ location, b.orders[r]? = some location ∧ location.position = n) ↔
      r = o.orderReference

section Decision

variable {b : OrderBook}

theorem RepInvariant.indexed (hrep : b.RepInvariant) (h : b.UniqueNodes) : b.Indexed := by
  intro s p n o hrest
  obtain ⟨location, hloc, rfl⟩ := (hrep.nodes s p n o hrest o.orderReference).mpr rfl
  obtain ⟨t, x, hside, hrest', _⟩ := hrep.entries hloc
  obtain ⟨rfl, rfl⟩ := h.place hrest hrest'
  rw [hloc, ← hside]

theorem Positioned.keys_subset (h : b.Positioned) : b.orders.keys ⊆ b.references := by
  intro r hr
  rw [Std.ExtTreeMap.mem_keys, Std.ExtTreeMap.mem_iff_isSome_getElem?] at hr
  obtain ⟨location, hloc⟩ := Option.isSome_iff_exists.mp hr
  obtain ⟨s, o, _, hrest, href⟩ := h hloc
  exact mem_references.mpr ⟨s, _, _, o, hrest, href⟩

/-- The check passes where queues and index lead to each other and the levels are right. -/
theorem UniqueNodes.checkRep_of (h : b.UniqueNodes) (hoccupied : b.LevelsOccupied)
    (htotals : b.TotalsHold) (hentries : b.Positioned) (hindex : b.Indexed) :
    b.checkRep = true := by
  refine (checkRep_iff b).mpr ⟨?_, (h.count_iff hindex).mpr hentries.keys_subset⟩
  intro s p level hlevel
  exact ⟨hoccupied hlevel, htotals hlevel, fun n o hmem => hindex ⟨level, hlevel, hmem⟩⟩

theorem totalsHold_of_checkRep (hcheck : b.checkRep = true) : b.TotalsHold :=
  fun s p level hlevel => (((checkRep_iff b).mp hcheck).1 s p level hlevel).2.1

theorem indexed_of_checkRep (hcheck : b.checkRep = true) : b.Indexed := by
  rintro s p n o ⟨level, hlevel, hmem⟩
  exact (((checkRep_iff b).mp hcheck).1 s p level hlevel).2.2 n o hmem

theorem RepInvariant.checkRep (hrep : b.RepInvariant) (h : b.UniqueNodes) :
    b.checkRep = true :=
  h.checkRep_of hrep.occupied hrep.totals hrep.entries (hrep.indexed h)

theorem UniqueNodes.repInvariant (h : b.UniqueNodes) (hcheck : b.checkRep = true) :
    b.RepInvariant := by
  obtain ⟨hlevels, hcount⟩ := (checkRep_iff b).mp hcheck
  have hindex := indexed_of_checkRep hcheck
  have hkeys := (h.count_iff hindex).mp hcount
  have hentries : b.Positioned := by
    intro r location hloc
    have hr : r ∈ b.orders.keys := by
      rw [Std.ExtTreeMap.mem_keys, Std.ExtTreeMap.mem_iff_isSome_getElem?, hloc]
      rfl
    obtain ⟨s, p, n, o, hrest, rfl⟩ := mem_references.mp (hkeys hr)
    obtain rfl := Option.some.inj (hloc.symm.trans (hindex hrest))
    exact ⟨s, o, rfl, hrest, rfl⟩
  refine ⟨fun s p level hl => (hlevels s p level hl).1, totalsHold_of_checkRep hcheck, hentries,
    ?_⟩
  intro s p n o hrest r
  constructor
  · rintro ⟨location, hloc, rfl⟩
    obtain ⟨t, x, _, hrest', rfl⟩ := hentries hloc
    rw [h.rests_unique hrest hrest']
  · rintro rfl
    exact ⟨_, hindex hrest, rfl⟩

end Decision

/-- In any state at all, reachable or not, the check passes exactly when the representation
invariant holds. -/
theorem checkRep_decides (b : OrderBook) (h : b.UniqueNodes) :
    b.checkRep = true ↔ b.RepInvariant :=
  ⟨h.repInvariant, fun hrep => hrep.checkRep h⟩

/-- One queued bid, and a second index entry for its node. -/
def doublyIndexed : OrderBook :=
  { (located 7).received (.bid 7 1 100 5000) with
    orders := (({} : OrderIndex).insert 1 ⟨.buy, 5000, 0⟩).insert 2 ⟨.buy, 5000, 0⟩ }

theorem checkRep_decides_doublyIndexed : ¬ doublyIndexed.RepInvariant := by
  have hlinked := (linked_located 7).received (.bid 7 1 100 5000)
  have hlevel : ∀ s p, doublyIndexed.level? s p =
      ((located 7).received (.bid 7 1 100 5000)).level? s p := by
    intro s p
    cases s <;> rfl
  have hunique : doublyIndexed.UniqueNodes := by
    refine ⟨fun hl => hlinked.distinct ((hlevel _ _).symm.trans hl), fun hx hy => ?_⟩
    rw [rests_congr hlevel] at hx hy
    exact hlinked.place hx hy
  intro hrep
  exact absurd ((checkRep_decides doublyIndexed hunique).mpr hrep) (by decide)

end OrderBook

end Itch
