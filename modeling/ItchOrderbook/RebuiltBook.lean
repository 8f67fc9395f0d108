import ItchOrderbook.NodeRenaming
import ItchOrderbook.ReplaceExpansion
import ItchOrderbook.ShareLedger

/-!
# Rebuilding a book from what rests in it

A book keeps no history beyond its resting orders. Sent to a fresh book as plain
adds, level by level and front to back, they make a book that nothing sent afterwards can tell
from the first, but for what it had tallied and for the identities of its nodes.
-/

namespace Itch

open NodeQueue KeyedList CheckedRuns

namespace OrderBook

/-- A queued order as an entry of the list. -/
def restingEntry (x : Resting) : Entry := x.2.2.2.entry x.1 x.2.1

/-- The add that inserts a queued order. -/
def restingAdd (locate : UInt16) (x : Resting) : Message :=
  .adding locate x.1.tag x.2.2.2.orderReference x.2.2.2.shares x.2.1

/-- The resting orders as adds: bids before asks, best level first, each queue front to back. -/
def snapshot (b : OrderBook) : List Message := b.nodes.map (restingAdd b.locate)

/-- The list of the resting orders in the order of the snapshot. -/
def standing (b : OrderBook) : List Entry := b.nodes.map restingEntry

/-- Among blocks of which only one is not empty, that one is the whole. -/
theorem flatMap_eq_block {κ β γ : Type*} {l : List (κ × β)}
    (hdistinct : l.Pairwise fun x y => x.1 ≠ y.1) {e : κ × β} (he : e ∈ l)
    {block : κ × β → List γ} (hblock : ∀ x ∈ l, x.1 ≠ e.1 → block x = []) :
    l.flatMap block = block e := by
  induction l with
  | nil => cases he
  | cons x l ih =>
    obtain ⟨hx, hl⟩ := List.pairwise_cons.mp hdistinct
    rw [List.flatMap_cons]
    rcases List.mem_cons.mp he with rfl | hmem
    · have hrest : l.flatMap block = [] := by
        rw [List.flatMap_eq_nil_iff]
        intro y hy
        exact hblock y (List.mem_cons_of_mem _ hy) (hx y hy).symm
      rw [hrest, List.append_nil]
    · rw [hblock x List.mem_cons_self (hx e hmem), List.nil_append]
      exact ih hl hmem fun y hy => hblock y (List.mem_cons_of_mem x hy)

section Sides

variable {cmp : PriceTicks → PriceTicks → Ordering} [Std.TransCmp cmp] [Std.LawfulEqCmp cmp]

/-- One side of the snapshot, read at a price, is the queue of that price. -/
theorem entriesAt_sideNodes (t : BookSide) (levels : Levels cmp) (s : BookSide) (p : PriceTicks) :
    entriesAt ((sideNodes t levels.toList).map restingEntry) s p =
      if t = s then ((levels[p]?).map fun level =>
        (payloads level.orders).map (RestingOrder.entry s p)).getD [] else [] := by
  have hblocks : entriesAt ((sideNodes t levels.toList).map restingEntry) s p =
      levels.toList.flatMap fun e => if t = s ∧ e.1 = p then
        (payloads e.2.orders).map (RestingOrder.entry s p) else [] := by
    rw [entriesAt, sideNodes, List.map_flatMap, List.filter_flatMap]
    congr 1
    funext e
    have hplace : ∀ x ∈ (e.2.orders.map fun node => (t, e.1, node)).map restingEntry,
        x.side = t ∧ x.price = e.1 := by
      intro x hx
      obtain ⟨y, hy, rfl⟩ := List.mem_map.mp hx
      obtain ⟨node, -, rfl⟩ := List.mem_map.mp hy
      exact ⟨rfl, rfl⟩
    by_cases hhere : t = s ∧ e.1 = p
    · obtain ⟨rfl, rfl⟩ := hhere
      rw [if_pos ⟨rfl, rfl⟩, List.filter_eq_self.mpr fun x hx => decide_eq_true (hplace x hx)]
      rw [payloads, List.map_map, List.map_map]
      rfl
    · rw [if_neg hhere, List.filter_eq_nil_iff]
      intro x hx hkept
      obtain ⟨hside, hprice⟩ := hplace x hx
      rw [hside, hprice] at hkept
      exact hhere (of_decide_eq_true hkept)
  rw [hblocks]
  by_cases hside : t = s
  · rw [if_pos hside]
    cases hlevel : levels[p]? with
    | none =>
      rw [Option.map_none, Option.getD_none, List.flatMap_eq_nil_iff]
      rintro ⟨q, level⟩ hmem
      rw [Std.ExtTreeMap.mem_toList_iff_getElem?_eq_some] at hmem
      rw [if_neg]
      rintro ⟨-, rfl⟩
      rw [hlevel] at hmem
      cases hmem
    | some level =>
      have hmem : (p, level) ∈ levels.toList :=
        Std.ExtTreeMap.mem_toList_iff_getElem?_eq_some.mpr hlevel
      have hdistinct : levels.toList.Pairwise fun x y => x.1 ≠ y.1 := by
        refine levels.distinct_keys_toList.imp ?_
        intro x y hne heq
        exact hne (by rw [heq]; exact Std.ReflCmp.compare_self)
      rw [flatMap_eq_block hdistinct hmem fun x _ hne => if_neg fun hboth => hne hboth.2,
        if_pos ⟨hside, rfl⟩]
      rfl
  · rw [if_neg hside, List.flatMap_eq_nil_iff]
    intro e _
    exact if_neg fun hboth => hside hboth.1

end Sides

/-- The snapshot lists every queue in its order. -/
theorem entriesAt_standing (b : OrderBook) (s : BookSide) (p : PriceTicks) :
    entriesAt b.standing s p = (b.queueAt s p).map (RestingOrder.entry s p) := by
  have hqueue : (b.queueAt s p).map (RestingOrder.entry s p) = ((b.level? s p).map fun level =>
      (payloads level.orders).map (RestingOrder.entry s p)).getD [] := by
    rw [queueAt]
    cases b.level? s p <;> rfl
  rw [standing, nodes, List.map_append, entriesAt_append, entriesAt_sideNodes,
    entriesAt_sideNodes, hqueue]
  cases s with
  | bids =>
    rw [if_pos rfl, if_neg BookSide.noConfusion, List.append_nil]
    rfl
  | asks =>
    rw [if_neg BookSide.noConfusion, if_pos rfl, List.nil_append]
    rfl

/-- A book that holds the orders of any list holds those of its snapshot. -/
theorem Refines.of_standing {b : OrderBook} {L : List Entry} (h : b.Refines L) :
    b.Refines b.standing where
  linked := h.linked
  accounted := h.accounted
  queue := fun s p => (entriesAt_standing b s p).symm
  distinct := (h.nodes_perm.map Entry.reference).nodup_iff.mpr h.distinct

/-- Adds of references that are not taken append their entries. -/
theorem run_restingAdds (l : UInt16) (xs : List Resting) (L : List Entry)
    (hdistinct : ((L ++ xs.map restingEntry).map Entry.reference).Nodup) :
    Along (listStep l) (Valid l) L (xs.map (restingAdd l)) ∧
      (xs.map (restingAdd l)).foldl (fifoStep l) L = L ++ xs.map restingEntry := by
  induction xs generalizing L with
  | nil => exact ⟨trivial, (List.append_nil L).symm⟩
  | cons x xs ih =>
    have haction : (restingAdd l x).actionAt? l =
        some (.add x.1 x.2.2.2.orderReference x.2.1 x.2.2.2.shares) := by
      rw [restingAdd, actionAt?_adding, book_tag]
    have hstep : fifoStep l L (restingAdd l x) = L ++ [restingEntry x] := by
      rw [fifoStep, haction]
      rfl
    have hsplit : L ++ (x :: xs).map restingEntry =
        L ++ [restingEntry x] ++ xs.map restingEntry := by simp
    rw [hsplit] at hdistinct ⊢
    obtain ⟨halong, hfold⟩ := ih _ hdistinct
    refine ⟨⟨?_, ?_⟩, ?_⟩
    · intro a ha
      obtain rfl : .add x.1 x.2.2.2.orderReference x.2.1 x.2.2.2.shares = a :=
        Option.some.inj (haction.symm.trans ha)
      intro e he href
      rw [List.map_append, List.map_append, List.append_assoc, List.nodup_append] at hdistinct
      -- it would be listed twice
      refine hdistinct.2.2 e.reference (List.mem_map_of_mem he) x.2.2.2.orderReference ?_ href
      exact List.mem_append_left _ List.mem_cons_self
    · simpa only [listStep, hstep] using halong
    · rw [List.map_cons, List.foldl_cons, hstep, hfold]

/-- Nothing that is done to both books tells them apart, be it accepted or not: both stop at the
same assert, or both hold the same orders afterwards, answer alike, check alike, and have counted
the same since. -/
def Indistinguishable (build : Build) (b c : OrderBook) : Prop :=
  ∀ later, Alike (fun b' c' => SameHoldings b' c' ∧ AnswersAlike b' c' ∧
      c'.checkRep = b'.checkRep ∧
      ∀ t, c'.stats.get t - c.stats.get t = b'.stats.get t - b.stats.get t)
    (run (event build) b later) (run (event build) c later)

theorem Twins.indistinguishable {b c : OrderBook} {d : Tally → UInt64} (h : Twins d b c)
    (build : Build) : Indistinguishable build b c := by
  refine fun later => (h.run build later).mono fun b' c' h' => ?_
  obtain ⟨g, hg⟩ := h'.renames
  refine ⟨hg.sameHoldings, hg.sameHoldings.answersAlike, hg.checkRep_eq h'.linked h'.linked',
    fun t => ?_⟩
  rw [h'.tallies, h.tallies, add_sub_add_right_eq_sub]

/-- A book has no hidden history. After any run it accepts, its resting orders alone, sent to a
fresh book as adds, make a book with the same levels, queues, totals and index, and nothing
done to both afterwards tells them apart, in either build. -/
theorem rebuilt_from_snapshot (build : Build) (l : UInt16) (ms : List Message) (hl : l ≠ 0)
    (haccepts : Along (OrderBook.on build) Accepts (located l) ms) :
    OrderBook.setLocate build {} l = .ok (located l) ∧
      ∃ b c, run (OrderBook.on build) (located l) ms = .ok b ∧
        b.snapshot.length = b.orderCount ∧
        Along (OrderBook.on build) Accepts (located l) b.snapshot ∧
        run (OrderBook.on build) (located l) b.snapshot = .ok c ∧
        SameHoldings b c ∧ ∀ afterwards, Indistinguishable afterwards b c := by
  have hfresh := refinesAt_located l
  obtain ⟨b, hb, hrefines⟩ := run_refines build hfresh
    ((hfresh.along_accepts_iff build ms).mp haccepts)
  have hstanding : RefinesAt l b b.standing := ⟨hrefines.toRefines.of_standing, hrefines.locate⟩
  have hsnapshot : b.snapshot = b.nodes.map (restingAdd l) := by
    rw [snapshot, hrefines.locate]
  obtain ⟨hvalid, hfold⟩ := run_restingAdds l b.nodes [] hstanding.distinct
  rw [← hsnapshot] at hvalid hfold
  obtain ⟨c, hc, hrebuilt⟩ := run_refines build hfresh hvalid
  rw [hfold] at hrebuilt
  have hlength : b.snapshot.length = b.orderCount := by
    rw [hstanding.toRefines.orderCount, snapshot, standing, List.length_map, List.length_map]
  exact ⟨setLocate_fresh build hl, b, c, hb, hlength,
    (hfresh.along_accepts_iff build b.snapshot).mpr hvalid, hc,
    hstanding.toRefines.sameHoldings hrebuilt.toRefines,
    (hstanding.twins hrebuilt).indistinguishable⟩

/-- Two orders at a price, the first executed in part and then replaced. -/
theorem rebuilt_from_snapshot_replace :
    OrderBook.setLocate .debug {} 7 = .ok (located 7) ∧
      ∃ b c, run (OrderBook.on .debug) (located 7) [.bid 7 1 100 5000, .bid 7 2 50 5000,
          .executing 7 1 40, .replacing 7 1 3 30 5000] = .ok b ∧
        b.snapshot.length = b.orderCount ∧
        Along (OrderBook.on .debug) Accepts (located 7) b.snapshot ∧
        run (OrderBook.on .debug) (located 7) b.snapshot = .ok c ∧
        SameHoldings b c ∧ ∀ afterwards, Indistinguishable afterwards b c :=
  rebuilt_from_snapshot .debug 7 _ (by decide) (by decide)

end OrderBook

end Itch
