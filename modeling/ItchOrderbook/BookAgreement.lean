import ItchOrderbook.FifoRefinement

/-!
# Books that hold the same orders

Two books that refine lists of the same entries answer every question alike,
queue order apart; where the lists agree at a price, so do the queues. What a
book accepts is decided by the list it refines.
-/

namespace Itch

open NodeQueue KeyedList CheckedRuns

namespace OrderBook

section Maps

variable {cmp : PriceTicks → PriceTicks → Ordering} [Std.TransCmp cmp] [Std.LawfulEqCmp cmp]
  {levels levels' : Levels cmp}

/-- The first level depends on the prices and their totals only. -/
theorem beginLevel_congr (h : ∀ p : PriceTicks, (levels[p]?).map PriceLevel.totalShares =
    (levels'[p]?).map PriceLevel.totalShares) : beginLevel levels = beginLevel levels' := by
  have hnone : ∀ p : PriceTicks, levels[p]? = none ↔ levels'[p]? = none := by
    intro p
    rw [← Option.map_eq_none_iff (f := PriceLevel.totalShares), h, Option.map_eq_none_iff]
  have hsome : ∀ p : PriceTicks, (levels[p]?).isSome ↔ (levels'[p]?).isSome := by
    intro p
    rw [Option.isSome_iff_ne_none, Option.isSome_iff_ne_none, ne_eq, hnone]
  cases hfirst : beginLevel levels with
  | none =>
    cases hfirst' : beginLevel levels' with
    | none => rfl
    | some best =>
      obtain ⟨⟨level, hlevel, _⟩, _⟩ := beginLevel_some hfirst'
      rw [(hnone _).mp (beginLevel_none hfirst _)] at hlevel
      cases hlevel
  | some best =>
    obtain ⟨⟨level, hlevel, hshares⟩, hmin⟩ := beginLevel_some hfirst
    cases hfirst' : beginLevel levels' with
    | none =>
      rw [(hnone _).mpr (beginLevel_none hfirst' _)] at hlevel
      cases hlevel
    | some best' =>
      obtain ⟨⟨level', hlevel', hshares'⟩, hmin'⟩ := beginLevel_some hfirst'
      have hle := hmin best'.price ((hsome _).mpr (by rw [hlevel']; rfl))
      have hge := hmin' best.price ((hsome _).mp (by rw [hlevel]; rfl))
      have hprice : best.price = best'.price :=
        Std.LawfulEqCmp.compare_eq_iff_eq.mp (Std.OrientedCmp.isLE_antisymm hle hge)
      have htotal := h best.price
      rw [hlevel, hprice, hlevel', Option.map_some, Option.map_some, Option.some.injEq,
        ← hshares, ← hshares'] at htotal
      obtain ⟨price, shares⟩ := best
      obtain ⟨price', shares'⟩ := best'
      rw [show price = price' from hprice, show shares = shares' from htotal]

theorem size_congr {κ β : Type} {cmp : κ → κ → Ordering} [Std.TransCmp cmp]
    [Std.LawfulEqCmp cmp] {m m' : Std.ExtTreeMap κ β cmp}
    (h : ∀ k : κ, (m[k]?).isSome ↔ (m'[k]?).isSome) : m.size = m'.size := by
  rw [← Std.ExtTreeMap.length_keys (t := m')]
  apply size_eq_length m'.nodup_keys
  intro k
  rw [h, Std.ExtTreeMap.mem_keys, Std.ExtTreeMap.mem_iff_isSome_getElem?]

end Maps

/-- Two books with the same levels, totals, index and counts; positions and queue order apart. -/
structure AnswersAlike (c d : OrderBook) : Prop where
  index : ∀ r : UInt64, (c.orders[r]?).map (fun location => (location.side, location.price)) =
    (d.orders[r]?).map fun location => (location.side, location.price)
  levels : ∀ s p, (c.level? s p).map PriceLevel.totalShares =
    (d.level? s p).map PriceLevel.totalShares
  bestBid : c.bestBid = d.bestBid
  bestAsk : c.bestAsk = d.bestAsk
  orderCount : c.orderCount = d.orderCount
  bidLevelCount : c.bidLevelCount = d.bidLevelCount
  askLevelCount : c.askLevelCount = d.askLevelCount

theorem answersAlike_of {c d : OrderBook}
    (hindex : ∀ r : UInt64,
      (c.orders[r]?).map (fun location => (location.side, location.price)) =
        (d.orders[r]?).map fun location => (location.side, location.price))
    (hlevels : ∀ s p, (c.level? s p).map PriceLevel.totalShares =
      (d.level? s p).map PriceLevel.totalShares) : AnswersAlike c d where
  index := hindex
  levels := hlevels
  bestBid := beginLevel_congr (hlevels .bids)
  bestAsk := beginLevel_congr (hlevels .asks)
  orderCount := by
    apply size_congr
    intro r
    have hr := congrArg Option.isSome (hindex r)
    rw [Option.isSome_map, Option.isSome_map] at hr
    rw [hr]
  bidLevelCount := by
    apply size_congr
    intro p
    have hp := congrArg Option.isSome (hlevels .bids p)
    rw [Option.isSome_map, Option.isSome_map] at hp
    exact iff_of_eq (congrArg (· = true) hp)
  askLevelCount := by
    apply size_congr
    intro p
    have hp := congrArg Option.isSome (hlevels .asks p)
    rw [Option.isSome_map, Option.isSome_map] at hp
    exact iff_of_eq (congrArg (· = true) hp)

section Refining

variable {b c d : OrderBook} {L L' : List Entry}

/-- A level's total is a sum over the entries of its price, modulo 2^64. -/
theorem Refines.total_eq (h : b.Refines L) {s : BookSide} {p : PriceTicks} {level : PriceLevel}
    (hlevel : b.level? s p = some level) :
    level.totalShares = ((entriesAt L s p).map fun e => UInt64.ofNat e.shares).sum := by
  have hcounted : (fun e : Entry => UInt64.ofNat e.shares) ∘ RestingOrder.entry s p =
      RestingOrder.counted := by
    funext o
    simp [RestingOrder.entry, RestingOrder.counted]
  rw [h.accounted.totals hlevel, ← h.queues hlevel, List.map_map, hcounted]
  rfl

theorem Refines.levels_perm (hc : c.Refines L) (hd : d.Refines L') (hperm : L.Perm L')
    (s : BookSide) (p : PriceTicks) : (c.level? s p).map PriceLevel.totalShares =
      (d.level? s p).map PriceLevel.totalShares := by
  have hsame : (c.level? s p).isSome ↔ (d.level? s p).isSome := by
    simp only [hc.levels, hd.levels, mem_pricesOf, hperm.mem_iff]
  have hentries : (entriesAt L s p).Perm (entriesAt L' s p) := hperm.filter _
  cases hlevel : c.level? s p with
  | none =>
    rw [hlevel] at hsame
    cases hlevel' : d.level? s p with
    | none => rfl
    | some level' => simp [hlevel'] at hsame
  | some level =>
    rw [hlevel] at hsame
    obtain ⟨level', hlevel'⟩ := Option.isSome_iff_exists.mp (hsame.mp rfl)
    rw [hlevel', Option.map_some, Option.map_some, hc.total_eq hlevel, hd.total_eq hlevel']
    exact congrArg some (hentries.map _).sum_eq

theorem Refines.index_perm (hc : c.Refines L) (hd : d.Refines L') (hperm : L.Perm L')
    (r : UInt64) : (c.orders[r]?).map (fun location => (location.side, location.price)) =
      (d.orders[r]?).map fun location => (location.side, location.price) := by
  have hiff : ∀ side price,
      (c.orders[r]?).map (fun location => (location.side, location.price)) = some (side, price) ↔
        (d.orders[r]?).map (fun location => (location.side, location.price)) =
          some (side, price) := by
    intro side price
    have hnode : ∀ o : Option OrderLocation,
        o.map (fun location => (location.side, location.price)) = some (side, price) ↔
          ∃ node, o = some ⟨side, price, node⟩ := by
      intro o
      cases o with
      | none => simp
      | some location =>
        obtain ⟨side', price', node⟩ := location
        simp
    rw [hnode, hnode, hc.index, hd.index]
    simp only [hperm.mem_iff]
  exact Option.ext fun x => hiff x.1 x.2

theorem Refines.answersAlike (hc : c.Refines L) (hd : d.Refines L') (hperm : L.Perm L') :
    AnswersAlike c d :=
  answersAlike_of (hc.index_perm hd hperm) (hc.levels_perm hd hperm)

theorem entry_injective (s : BookSide) (p : PriceTicks) :
    Function.Injective (RestingOrder.entry s p) := by
  rintro ⟨r, n⟩ ⟨r', n'⟩ h
  simp only [RestingOrder.entry, Entry.mk.injEq, UInt32.toNat_inj] at h
  obtain ⟨rfl, _, _, rfl⟩ := h
  rfl

/-- Lists that agree at a price are refined by books that agree on its queue. -/
theorem Refines.queueAt_eq (hc : c.Refines L) (hd : d.Refines L') {s : BookSide}
    {p : PriceTicks} (h : entriesAt L s p = entriesAt L' s p) : c.queueAt s p = d.queueAt s p :=
  List.map_injective_iff.mpr (entry_injective s p) (by rw [hc.queue, hd.queue, h])

/-- The same levels, with the same queues and totals, and the same index; only the nodes may
have other identities. -/
structure SameHoldings (c d : OrderBook) : Prop where
  levels : ∀ s p,
    (c.level? s p).map (fun level => (payloads level.orders, level.totalShares)) =
      (d.level? s p).map fun level => (payloads level.orders, level.totalShares)
  index : ∀ r : UInt64, (c.orders[r]?).map (fun location => (location.side, location.price)) =
    (d.orders[r]?).map fun location => (location.side, location.price)

theorem Refines.sameHoldings (hc : c.Refines L) (hd : d.Refines L) : SameHoldings c d where
  levels := by
    intro s p
    have htotals := hc.levels_perm hd (List.Perm.refl L) s p
    have hqueues : c.queueAt s p = d.queueAt s p := hc.queueAt_eq hd rfl
    cases hlevel : c.level? s p with
    | none =>
      rw [hlevel, Option.map_none, eq_comm, Option.map_eq_none_iff] at htotals
      rw [htotals]
    | some level =>
      rw [hlevel, Option.map_some, eq_comm, Option.map_eq_some_iff] at htotals
      obtain ⟨level', hlevel', htotal⟩ := htotals
      rw [queueAt_of_level hlevel, queueAt_of_level hlevel'] at hqueues
      rw [hlevel', Option.map_some, Option.map_some, hqueues, htotal]
  index := hc.index_perm hd (List.Perm.refl L)

/-- An action the list admits is one the book accepts. -/
theorem Refines.admissible_iff (h : b.Refines L) (a : BookAction) :
    b.Within a ∧ b.InsertsFresh a ↔ Admissible L a := by
  cases a with
  | add side reference price shares => exact (iff_of_eq (true_and _)).trans h.orders_eq_none
  | execute reference shares => exact (iff_of_eq (and_true _)).trans h.fits_iff
  | cancel reference shares => exact (iff_of_eq (and_true _)).trans h.fits_iff
  | delete reference => exact iff_of_eq (and_true _)
  | replace original new price shares =>
    simp only [Within, InsertsFresh, Admissible, h.orders_eq_none, true_and]
  | trade => exact iff_of_eq (and_true _)

theorem RefinesAt.accepts_iff {l : UInt16} (h : RefinesAt l b L) (m : Message) :
    b.Accepts m ↔ Valid l L m := by
  simp only [Accepts, Fits, ReferencesFresh, Valid, h.locate, ← h.toRefines.admissible_iff,
    ← forall_and]

/-- A run the book accepts is a valid run of the list. -/
theorem RefinesAt.along_accepts_iff {l : UInt16} (h : RefinesAt l b L) (build : Build)
    (ms : List Message) :
    Along (OrderBook.on build) Accepts b ms ↔ Along (listStep l) (Valid l) L ms := by
  induction ms generalizing b L with
  | nil => exact Iff.rfl
  | cons m ms ih =>
    by_cases hm : Valid l L m
    · obtain ⟨b', hb', h'⟩ := h.step hm build
      rw [along_cons_ok hb', h.accepts_iff, ih h']
      exact Iff.rfl
    · refine iff_of_false (fun halong => hm ((h.accepts_iff m).mp halong.1)) ?_
      exact fun halong => hm halong.1

end Refining

end OrderBook

end Itch
