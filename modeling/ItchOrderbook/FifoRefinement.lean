import ItchOrderbook.FifoBook
import Mathlib.Algebra.Order.BigOperators.Group.List
import Mathlib.Data.List.Dedup

/-!
# What the book reports about its list of orders

Levels, queues, totals, index, counts and best prices are all functions of the
list the book refines. Totals are exact once there are fewer than 2^32 orders.
-/

namespace Itch

open NodeQueue KeyedList CheckedRuns

/-- `p` is at least as good a price as `q`. -/
def BookSide.NoWorse : BookSide → PriceTicks → PriceTicks → Prop
  | .bids, p, q => q ≤ p
  | .asks, p, q => p ≤ q

/-- The shares resting at one side and price. -/
def sharesAt (L : List Entry) (s : BookSide) (p : PriceTicks) : ℕ :=
  ((entriesAt L s p).map Entry.shares).sum

/-- A choice among orders by what never changes about them. -/
abbrev Selection := BookSide → PriceTicks → UInt64 → Bool

/-- The shares of an entry, when it is one of those selected. -/
def Entry.counted (select : Selection) (e : Entry) : ℕ :=
  if select e.side e.price e.reference then e.shares else 0

/-- The shares of the selected entries. -/
def volume (select : Selection) (L : List Entry) : ℕ := (L.map (Entry.counted select)).sum

/-- The selected shares of an entry that may not be there. -/
def countedIn (select : Selection) (e : Option Entry) : ℕ := (e.map (Entry.counted select)).getD 0

/-- The orders at one side and price. -/
def atLevel (s : BookSide) (p : PriceTicks) : Selection := fun t q _ => t = s ∧ q = p

section Volumes

variable (select : Selection) {L : List Entry}

theorem volume_append (L L' : List Entry) :
    volume select (L ++ L') = volume select L + volume select L' := by
  rw [volume, List.map_append, List.sum_append]
  rfl

theorem counted_le_volume {e : Entry} (he : e ∈ L) : e.counted select ≤ volume select L :=
  List.le_sum_of_mem (List.mem_map_of_mem he)

/-- Rewriting the entry of a reference in place moves the volume by what it moves the entry. -/
theorem volume_update (hdistinct : (L.map Entry.reference).Nodup) {e : Entry} (he : e ∈ L)
    (g : Entry → Option Entry) :
    volume select (update Entry.reference e.reference g L) + e.counted select =
      volume select L + countedIn select (g e) := by
  have hsum := sum_update (k := e.reference) (f := g) (Entry.counted select) hdistinct he rfl
  simpa only [volume, countedIn] using hsum

/-- What a reduction leaves of an entry and what it takes are the entry. -/
theorem counted_less (e : Entry) {n : ℕ} (h : n ≤ e.shares) :
    countedIn select (e.less n) + Entry.counted select { e with shares := n } =
      e.counted select := by
  by_cases hselect : select e.side e.price e.reference = true
  · rw [Entry.less]
    split
    · simp only [countedIn, Entry.counted, hselect, if_true, Option.map_none, Option.getD_none]
      omega
    · simp only [countedIn, Entry.counted, hselect, if_true, Option.map_some, Option.getD_some]
      omega
  · rw [Entry.less]
    split
    · simp [countedIn, Entry.counted, hselect]
    · simp [countedIn, Entry.counted, hselect]

/-- What rests at a price is the volume of the orders there. -/
theorem volume_atLevel (L : List Entry) (s : BookSide) (p : PriceTicks) :
    volume (atLevel s p) L = sharesAt L s p := by
  induction L with
  | nil => rfl
  | cons e L ih =>
    rw [volume, sharesAt, entriesAt] at ih ⊢
    rw [List.map_cons, List.sum_cons, ih, List.filter_cons]
    by_cases hplace : e.side = s ∧ e.price = p
    · simp [Entry.counted, atLevel, hplace]
    · simp [Entry.counted, atLevel, hplace]

end Volumes

/-- The prices of a side, each once. -/
def pricesOf (L : List Entry) (s : BookSide) : List PriceTicks :=
  ((L.filter fun e => e.side = s).map Entry.price).dedup

theorem mem_pricesOf {L : List Entry} {s : BookSide} {p : PriceTicks} :
    p ∈ pricesOf L s ↔ ∃ e ∈ L, e.side = s ∧ e.price = p := by
  simp [pricesOf, and_assoc]

/-- The best price of a side and the shares resting there, if anything does. -/
def IsBest (L : List Entry) (s : BookSide) : Option BookLevel → Prop
  | none => ∀ e ∈ L, e.side ≠ s
  | some best => best.price ∈ pricesOf L s ∧ (∀ p ∈ pricesOf L s, s.NoWorse best.price p) ∧
      best.shares.toNat = sharesAt L s best.price

/-- How many orders an action inserts. -/
def inserted (L : List Entry) : BookAction → ℕ
  | .add _ _ _ _ => 1
  | .replace original _ _ _ => if Absent Entry.reference original L then 0 else 1
  | _ => 0

/-- How many orders a run ever inserts. -/
def insertions (l : UInt16) : List Entry → List Message → ℕ
  | _, [] => 0
  | L, m :: ms => ((m.actionAt? l).map (inserted L)).getD 0 + insertions l (fifoStep l L m) ms

theorem length_fifo_le (L : List Entry) (a : BookAction) :
    (fifo L a).length ≤ L.length + inserted L a := by
  cases a with
  | add side reference price shares => simp [fifo, inserted]
  | execute reference shares => exact length_update_le L
  | cancel reference shares => exact length_update_le L
  | delete reference => exact length_update_le L
  | replace original new price shares =>
    rw [fifo, inserted]
    cases hfind : L.find? fun e => e.reference = original with
    | none => exact Nat.le_add_right _ _
    | some e =>
      have hpresent : ¬ Absent Entry.reference original L := fun habsent =>
        habsent e (List.mem_of_find?_eq_some hfind) (by simpa using List.find?_some hfind)
      rw [if_neg hpresent]
      simpa using length_update_le L
  | trade => exact Nat.le_add_right _ _

theorem length_run_le (l : UInt16) (L : List Entry) (ms : List Message) :
    (ms.foldl (fifoStep l) L).length ≤ L.length + insertions l L ms := by
  induction ms generalizing L with
  | nil => exact Nat.le_refl _
  | cons m ms ih =>
    have hstep : (fifoStep l L m).length ≤
        L.length + ((m.actionAt? l).map (inserted L)).getD 0 := by
      rw [fifoStep]
      cases m.actionAt? l with
      | none => exact Nat.le_refl _
      | some a => exact length_fifo_le L a
    have hrest := ih (fifoStep l L m)
    rw [List.foldl_cons, insertions]
    omega

theorem insertions_le_append (l : UInt16) (L : List Entry) (ms ms' : List Message) :
    insertions l L ms ≤ insertions l L (ms ++ ms') := by
  induction ms generalizing L with
  | nil => exact Nat.zero_le _
  | cons m ms ih => exact Nat.add_le_add_left (ih (fifoStep l L m)) _

/-- The tally an action adds to; a replace of an unknown order is not counted. -/
def tallyOf (L : List Entry) : BookAction → Option Tally
  | .add _ _ _ _ => some .adds
  | .execute _ _ => some .executions
  | .cancel _ _ => some .cancels
  | .delete _ => some .deletes
  | .replace original _ _ _ => if Absent Entry.reference original L then none else some .replaces
  | .trade => some .trades

def Stats.get (stats : Stats) : Tally → UInt64
  | .adds => stats.adds
  | .executions => stats.executions
  | .cancels => stats.cancels
  | .deletes => stats.deletes
  | .replaces => stats.replaces
  | .trades => stats.trades

theorem get_bump (stats : Stats) (t u : Tally) :
    (stats.bump t).get u = stats.get u + if t = u then 1 else 0 := by
  cases t <;> cases u <;> simp [Stats.bump, Stats.get]

theorem Stats.ext_get {stats stats' : Stats} (h : ∀ t, stats.get t = stats'.get t) :
    stats = stats' :=
  Stats.ext (h .adds) (h .executions) (h .cancels) (h .deletes) (h .replaces) (h .trades)

namespace OrderBook

/-- Everything the book can be asked, answered from the list. -/
structure Mirrors (b : OrderBook) (L : List Entry) : Prop where
  levels : ∀ s p, (b.level? s p).isSome ↔ p ∈ pricesOf L s
  queues : ∀ s p level, b.level? s p = some level →
    (payloads level.orders).map (RestingOrder.entry s p) = entriesAt L s p
  totals : ∀ s p level, b.level? s p = some level → level.totalShares.toNat = sharesAt L s p
  index : ∀ r side price, (∃ node, b.orders[r]? = some ⟨side, price, node⟩) ↔
    ∃ e ∈ L, e.reference = r ∧ side = e.side.tag ∧ price = e.price
  positions : ∀ r f, b.find? r = some f → f.order.orderReference = r ∧
    f.order.entry f.location.side.book f.location.price ∈ L
  orderCount : b.orderCount = L.length
  bidLevelCount : b.bidLevelCount = (pricesOf L .bids).length
  askLevelCount : b.askLevelCount = (pricesOf L .asks).length
  bestBid : IsBest L .bids b.bestBid
  bestAsk : IsBest L .asks b.bestAsk
  checked : b.checkRep = true

section Maps

variable {cmp : PriceTicks → PriceTicks → Ordering} [Std.TransCmp cmp] [Std.LawfulEqCmp cmp]
  {levels : Levels cmp}

/-- `begin()` is the first key in map order. -/
theorem beginLevel_some {best : BookLevel} (h : beginLevel levels = some best) :
    (∃ level, levels[best.price]? = some level ∧ best.shares = level.totalShares) ∧
      ∀ p : PriceTicks, (levels[p]?).isSome → (cmp best.price p).isLE := by
  simp only [beginLevel, Option.bind_eq_some_iff, Option.map_eq_some_iff,
    Std.ExtTreeMap.minKey?_eq_some_iff_mem_and_forall, Std.ExtTreeMap.mem_iff_isSome_getElem?] at h
  obtain ⟨price, ⟨_, hmin⟩, level, hlevel, rfl⟩ := h
  exact ⟨⟨level, hlevel, rfl⟩, hmin⟩

theorem beginLevel_none (h : beginLevel levels = none) (p : PriceTicks) :
    levels[p]? = none := by
  cases hmin : levels.minKey? with
  | none =>
    rw [Std.ExtTreeMap.minKey?_eq_none_iff.mp hmin]
    simp
  | some first =>
    obtain ⟨hmem, _⟩ := Std.ExtTreeMap.minKey?_eq_some_iff_mem_and_forall.mp hmin
    rw [Std.ExtTreeMap.mem_iff_isSome_getElem?] at hmem
    obtain ⟨level, hlevel⟩ := Option.isSome_iff_exists.mp hmem
    simp [beginLevel, hmin, hlevel] at h

end Maps

/-- A map whose keys are the elements of a duplicate-free list has the size of that list. -/
theorem size_eq_length {κ β : Type} {cmp : κ → κ → Ordering} [Std.TransCmp cmp]
    [Std.LawfulEqCmp cmp] {m : Std.ExtTreeMap κ β cmp} {keys : List κ} (hnodup : keys.Nodup)
    (hmem : ∀ k : κ, (m[k]?).isSome ↔ k ∈ keys) : m.size = keys.length := by
  rw [← Std.ExtTreeMap.length_keys]
  refine List.Perm.length_eq ((List.perm_ext_iff_of_nodup m.nodup_keys hnodup).mpr ?_)
  intro k
  rw [Std.ExtTreeMap.mem_keys, Std.ExtTreeMap.mem_iff_isSome_getElem?, hmem]

section Totals

/-- A total is exact as long as the shares add up to less than 2^64. -/
theorem toNat_total (q : Queue RestingOrder) : (total RestingOrder.counted q).toNat =
    ((payloads q).map fun o => o.shares.toNat).sum % 2 ^ 64 := by
  induction q with
  | nil => rfl
  | cons e q ih =>
    rw [total_cons, UInt64.toNat_add, ih, RestingOrder.counted, UInt32.toNat_toUInt64]
    simp only [payloads, List.map_cons, List.sum_cons]
    exact Nat.add_mod_mod _ _ _

variable {b : OrderBook} {L : List Entry}

theorem Refines.shares_lt (h : b.Refines L) {e : Entry} (he : e ∈ L) : e.shares < 2 ^ 32 := by
  obtain ⟨n, o, _, heq⟩ := h.rests_of_entry he
  rw [← congrArg Entry.shares heq]
  exact o.shares.toNat_lt

theorem Refines.sharesAt_lt (h : b.Refines L) (hlen : L.length < 2 ^ 32) (s : BookSide)
    (p : PriceTicks) : sharesAt L s p < 2 ^ 64 := by
  have hbound : ∀ x ∈ (entriesAt L s p).map Entry.shares, x ≤ 2 ^ 32 := by
    intro x hx
    obtain ⟨e, he, rfl⟩ := List.mem_map.mp hx
    exact (h.shares_lt (mem_entriesAt.mp he).1).le
  have hsum := List.sum_le_card_nsmul _ _ hbound
  have hcount : (entriesAt L s p).length ≤ L.length := List.length_filter_le _ _
  rw [List.length_map, nsmul_eq_mul, Nat.cast_id] at hsum
  rw [sharesAt]
  calc ((entriesAt L s p).map Entry.shares).sum
      ≤ (entriesAt L s p).length * 2 ^ 32 := hsum
    _ ≤ L.length * 2 ^ 32 := Nat.mul_le_mul_right _ hcount
    _ < 2 ^ 32 * 2 ^ 32 := Nat.mul_lt_mul_of_pos_right hlen (by norm_num)
    _ = 2 ^ 64 := by norm_num

theorem Refines.queues (h : b.Refines L) {s : BookSide} {p : PriceTicks} {level : PriceLevel}
    (hlevel : b.level? s p = some level) :
    (payloads level.orders).map (RestingOrder.entry s p) = entriesAt L s p := by
  rw [← queueAt_of_level hlevel, h.queue]

theorem Refines.totals (h : b.Refines L) (hlen : L.length < 2 ^ 32) {s : BookSide}
    {p : PriceTicks} {level : PriceLevel} (hlevel : b.level? s p = some level) :
    level.totalShares.toNat = sharesAt L s p := by
  have hsame : (payloads level.orders).map (fun o => o.shares.toNat) =
      (entriesAt L s p).map Entry.shares := by
    rw [← h.queues hlevel, List.map_map]
    rfl
  rw [h.accounted.totals hlevel, toNat_total, hsame]
  exact Nat.mod_eq_of_lt (h.sharesAt_lt hlen s p)

theorem Refines.levels (h : b.Refines L) (s : BookSide) (p : PriceTicks) :
    (b.level? s p).isSome ↔ p ∈ pricesOf L s := by
  rw [mem_pricesOf]
  constructor
  · intro hsome
    obtain ⟨level, hlevel⟩ := Option.isSome_iff_exists.mp hsome
    obtain ⟨⟨n, o⟩, hmem⟩ := List.exists_mem_of_ne_nil _ (h.linked.nonempty hlevel)
    exact ⟨o.entry s p, h.entry_of_rests ⟨level, hlevel, hmem⟩, rfl, rfl⟩
  · rintro ⟨e, he, rfl, rfl⟩
    obtain ⟨n, o, ⟨level, hlevel, _⟩, _⟩ := h.rests_of_entry he
    rw [hlevel]
    rfl

theorem Refines.index (h : b.Refines L) (r : UInt64) (side : Side) (price : PriceTicks) :
    (∃ node, b.orders[r]? = some ⟨side, price, node⟩) ↔
      ∃ e ∈ L, e.reference = r ∧ side = e.side.tag ∧ price = e.price := by
  constructor
  · rintro ⟨node, hloc⟩
    obtain ⟨s, f, hf, hlocation⟩ := h.linked.foundAt_of_index hloc
    have hside := hf.side
    rw [hlocation] at hside
    refine ⟨_, h.entry_of_rests hf.rests, hf.reference, hside, ?_⟩
    rw [hlocation]
    rfl
  · rintro ⟨e, he, rfl, rfl, rfl⟩
    obtain ⟨n, o, hrest, heq⟩ := h.rests_of_entry he
    refine ⟨n, ?_⟩
    rw [← h.accounted.indexed hrest, ← congrArg Entry.reference heq]
    rfl

theorem Refines.orderCount (h : b.Refines L) : b.orderCount = L.length := by
  rw [OrderBook.orderCount, ← L.length_map Entry.reference]
  apply size_eq_length h.distinct
  intro r
  rw [List.mem_map, ← not_iff_not]
  simpa [Absent] using h.orders_eq_none

/-- The first level of a side, whichever way its map is ordered. -/
theorem Refines.isBest (h : b.Refines L) (hlen : L.length < 2 ^ 32) {s : BookSide}
    {cmp : PriceTicks → PriceTicks → Ordering} [Std.TransCmp cmp] [Std.LawfulEqCmp cmp]
    {levels : Levels cmp} (hlevels : ∀ p, b.level? s p = levels[p]?)
    (horder : ∀ p q, (cmp p q).isLE → s.NoWorse p q) : IsBest L s (beginLevel levels) := by
  cases hbest : beginLevel levels with
  | none =>
    rintro e he rfl
    have hsome := (h.levels e.side e.price).mpr (mem_pricesOf.mpr ⟨e, he, rfl, rfl⟩)
    rw [hlevels, beginLevel_none hbest] at hsome
    cases hsome
  | some best =>
    obtain ⟨⟨level, hlevel, hshares⟩, hmin⟩ := beginLevel_some hbest
    rw [← hlevels] at hlevel
    refine ⟨(h.levels s best.price).mp (by rw [hlevel]; rfl), ?_, ?_⟩
    · intro p hp
      apply horder
      apply hmin
      rw [← hlevels]
      exact (h.levels s p).mpr hp
    · rw [hshares]
      exact h.totals hlen hlevel

theorem Refines.mirrors (h : b.Refines L) (hlen : L.length < 2 ^ 32) : b.Mirrors L where
  levels := h.levels
  queues := fun _ _ _ hlevel => h.queues hlevel
  totals := fun _ _ _ hlevel => h.totals hlen hlevel
  index := h.index
  positions := by
    intro r f hfind
    obtain ⟨s, hf⟩ := h.linked.foundAt hfind
    rw [hf.side, book_tag]
    exact ⟨hf.reference, h.entry_of_rests hf.rests⟩
  orderCount := h.orderCount
  bidLevelCount := size_eq_length (List.nodup_dedup _) (h.levels .bids)
  askLevelCount := size_eq_length (List.nodup_dedup _) (h.levels .asks)
  bestBid := h.isBest hlen (fun _ => rfl) fun _ _ hle => Std.isLE_compare.mp hle
  bestAsk := h.isBest hlen (fun _ => rfl) fun _ _ hle => Std.isLE_compare.mp hle
  checked := h.linked.checkRep_iff.mpr h.accounted

end Totals

/-- The tallies a book has after an action are read off the list. -/
theorem Refines.stats_effect {b : OrderBook} {L : List Entry} (h : b.Refines L)
    (a : BookAction) (t : Tally) :
    (b.effect a).stats.get t = b.stats.get t + if tallyOf L a = some t then 1 else 0 := by
  have htallied : ∀ (c : OrderBook) u, c.stats = b.stats →
      (c.tallied u).stats.get t = b.stats.get t + if some u = some t then 1 else 0 := by
    intro c u hc
    simp [OrderBook.tallied, get_bump, hc]
  cases a with
  | replace original new price shares =>
    rw [OrderBook.effect, tallyOf]
    cases hfind : b.find? original with
    | none => simp [h.find?_eq_none.mp hfind]
    | some f =>
      have hpresent : ¬ Absent Entry.reference original L := fun habsent => by
        rw [h.find?_eq_none.mpr habsent] at hfind
        cases hfind
      rw [if_neg hpresent]
      exact htallied _ _ (by simp)
  | add side reference price shares => exact htallied _ _ (by simp)
  | execute reference shares => exact htallied _ _ (by simp)
  | cancel reference shares => exact htallied _ _ (by simp)
  | delete reference => exact htallied _ _ (by simp)
  | trade => exact htallied _ _ rfl

/-- The list as a step that never faults. -/
def listStep (l : UInt16) (L : List Entry) (m : Message) : Except Fault (List Entry) :=
  .ok (fifoStep l L m)

/-- A run of valid messages keeps the book and the list together, in either build. -/
theorem run_refines (build : Build) {l : UInt16} {b : OrderBook} {L : List Entry}
    (h : RefinesAt l b L) {ms : List Message} (hvalid : Along (listStep l) (Valid l) L ms) :
    ∃ b', run (OrderBook.on build) b ms = .ok b' ∧
      RefinesAt l b' (ms.foldl (fifoStep l) L) := by
  have hstep : ∀ b L m, RefinesAt l b L → Valid l L m →
      ∃ b', b.on build m = .ok b' ∧ RefinesAt l b' (fifoStep l L m) :=
    fun _ _ _ hR hm => hR.step hm build
  exact run_refinement hstep h hvalid

/-- The book refines the FIFO list: after every message of a valid run with fewer than 2^32
insertions, everything it holds and reports is read off the list. -/
theorem fifo_refinement (build : Build) (l : UInt16) (ms : List Message) (hl : l ≠ 0)
    (hvalid : Along (listStep l) (Valid l) [] ms) (hcount : insertions l [] ms < 2 ^ 32) :
    OrderBook.setLocate build {} l = .ok (located l) ∧
      ∀ pre, pre <+: ms → ∃ b, run (OrderBook.on build) (located l) pre = .ok b ∧
        b.Mirrors (pre.foldl (fifoStep l) []) := by
  refine ⟨setLocate_fresh build hl, ?_⟩
  intro pre hpre
  obtain ⟨b, hb, hR⟩ := run_refines build (refinesAt_located l) (along_initial hpre hvalid)
  refine ⟨b, hb, hR.mirrors ?_⟩
  obtain ⟨post, rfl⟩ := hpre
  have hlen := length_run_le l [] pre
  have hmono := insertions_le_append l [] pre post
  simp only [List.length_nil, zero_add] at hlen
  omega

/-- Two orders at one price, the first then replaced at that price and sent to the back. -/
theorem fifo_refinement_replace :
    OrderBook.setLocate .debug {} 7 = .ok (located 7) ∧
      ∀ pre, pre <+: [.bid 7 1 100 5000, .bid 7 2 50 5000, .replacing 7 1 1 30 5000] →
        ∃ b, run (OrderBook.on .debug) (located 7) pre = .ok b ∧
          b.Mirrors (pre.foldl (fifoStep 7) []) :=
  fifo_refinement .debug 7 _ (by decide) (by decide) (by decide)

example : [Message.bid 7 1 100 5000, .bid 7 2 50 5000, .replacing 7 1 1 30 5000].foldl
    (fifoStep 7) [] = [⟨2, .bids, 5000, 50⟩, ⟨1, .bids, 5000, 30⟩] := by decide

end OrderBook

end Itch
