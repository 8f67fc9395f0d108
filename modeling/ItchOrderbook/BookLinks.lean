import ItchOrderbook.BookActions
import ItchOrderbook.CheckedRuns

/-!
# Index entries and queue nodes

The index holds positions into queues while other messages unlink nodes and
erase levels. The invariant below survives every message, duplicates and
over-reductions included, so no position is ever stale.
-/

namespace Itch

open NodeQueue CheckedRuns

namespace OrderBook

/-- Order `o` is the payload of node `n` in the queue of side `s` at price `p`. -/
def Rests (b : OrderBook) (s : BookSide) (p : PriceTicks) (n : NodeId) (o : RestingOrder) :
    Prop :=
  ∃ level, b.level? s p = some level ∧ (n, o) ∈ level.orders

/-- Queue nodes are told apart by their identity: none is queued twice. -/
structure UniqueNodes (b : OrderBook) : Prop where
  distinct : ∀ {s p level}, b.level? s p = some level → (ids level.orders).Nodup
  place : ∀ {s p o t q x n}, b.Rests s p n o → b.Rests t q n x → s = t ∧ p = q

/-- A node carries one order only. -/
theorem UniqueNodes.rests_unique {b : OrderBook} (h : b.UniqueNodes) {s t : BookSide}
    {p q : PriceTicks} {n : NodeId} {o x : RestingOrder} (ho : b.Rests s p n o)
    (hx : b.Rests t q n x) : o = x := by
  obtain ⟨rfl, rfl⟩ := h.place ho hx
  obtain ⟨level, hlevel, hmem⟩ := ho
  obtain ⟨level', hlevel', hmem'⟩ := hx
  obtain rfl : level = level' := Option.some.inj (hlevel.symm.trans hlevel')
  have hnode := deref_of_mem (h.distinct hlevel) hmem
  rw [deref_of_mem (h.distinct hlevel) hmem'] at hnode
  exact (Option.some.inj hnode).symm

/-- No level is left without orders. -/
def LevelsOccupied (b : OrderBook) : Prop :=
  ∀ ⦃s p level⦄, b.level? s p = some level → level.orders ≠ []

/-- Every entry of the index leads to the order of its reference. -/
def Positioned (b : OrderBook) : Prop :=
  ∀ ⦃r location⦄, b.orders[r]? = some location →
    ∃ s o, location.side = s.tag ∧ b.Rests s location.price location.position o ∧
      o.orderReference = r

/-- What ties the three containers together in every state, sound or corrupted. -/
structure Linked (b : OrderBook) : Prop extends UniqueNodes b where
  fresh : ∀ {s p n o}, b.Rests s p n o → n < b.nextNode
  nonempty : b.LevelsOccupied
  position : b.Positioned

/-- An index entry followed to its node. -/
structure FoundAt (b : OrderBook) (r : UInt64) (s : BookSide) (f : Found) : Prop where
  index : b.orders[r]? = some f.location
  side : f.location.side = s.tag
  level : b.level? s f.location.price = some f.level
  node : deref f.level.orders f.location.position = some f.order
  reference : f.order.orderReference = r

theorem FoundAt.rests {b : OrderBook} {r : UInt64} {s : BookSide} {f : Found}
    (h : b.FoundAt r s f) : b.Rests s f.location.price f.location.position f.order :=
  ⟨f.level, h.level, mem_of_deref h.node⟩

theorem FoundAt.find {b : OrderBook} {r : UInt64} {s : BookSide} {f : Found}
    (h : b.FoundAt r s f) : b.find? r = some f := by
  rw [find?_eq_some, h.side, book_tag]
  exact ⟨h.index, h.level, h.node⟩

theorem linked_fresh : Linked {} where
  fresh := by
    rintro s p n o ⟨level, hlevel, _⟩
    cases s <;> simp [level?] at hlevel
  distinct := by
    intro s p level hlevel
    cases s <;> simp [level?] at hlevel
  place := by
    rintro s p o t q x n ⟨level, hlevel, _⟩
    cases s <;> simp [level?] at hlevel
  nonempty := by
    intro s p level hlevel
    cases s <;> simp [level?] at hlevel
  position := by
    intro r location hloc
    simp at hloc

namespace Linked

variable {b : OrderBook}

theorem foundAt_of_index (h : b.Linked) {r : UInt64} {location : OrderLocation}
    (hloc : b.orders[r]? = some location) : ∃ s f, b.FoundAt r s f ∧ f.location = location := by
  obtain ⟨s, o, hside, ⟨level, hlevel, hmem⟩, href⟩ := h.position hloc
  refine ⟨s, ⟨location, level, o⟩, ⟨hloc, hside, hlevel, ?_, href⟩, rfl⟩
  exact deref_of_mem (h.distinct hlevel) hmem

theorem foundAt (h : b.Linked) {r : UInt64} {f : Found} (hf : b.find? r = some f) :
    ∃ s, b.FoundAt r s f := by
  obtain ⟨s, g, hg, hloc⟩ := h.foundAt_of_index (find?_eq_some.mp hf).1
  obtain rfl : g = f := Option.some.inj (hg.find.symm.trans hf)
  exact ⟨s, hg⟩

theorem followable (h : b.Linked) : b.Followable := by
  intro r location hloc
  obtain ⟨s, f, hf, heq⟩ := h.foundAt_of_index hloc
  exact ⟨f, hf.find, heq⟩

/-- Two references never share a node. -/
theorem position_injective (h : b.Linked) {r r' : UInt64} {l l' : OrderLocation}
    (hl : b.orders[r]? = some l) (hl' : b.orders[r']? = some l')
    (hpos : l.position = l'.position) : r = r' := by
  obtain ⟨s, o, _, ho, href⟩ := h.position hl
  obtain ⟨t, x, _, hx, href'⟩ := h.position hl'
  rw [← hpos] at hx
  rw [← href, ← href', h.rests_unique ho hx]

end Linked

section Insert

variable {b : OrderBook} (side : Side) (reference : UInt64) (price : PriceTicks)
  (shares : UInt32)

theorem rests_insert {t : BookSide} {q : PriceTicks} {n : NodeId} {o : RestingOrder} :
    (b.insert side reference price shares).Rests t q n o ↔
      b.Rests t q n o ∨ (t = side.book ∧ q = price ∧ n = b.nextNode ∧ o = ⟨reference, shares⟩) := by
  simp only [Rests, level?_insert]
  by_cases hplace : side.book = t ∧ price = q
  · obtain ⟨rfl, rfl⟩ := hplace
    simp only [and_self, if_true, Option.some.injEq, exists_eq_left', pushed, mem_pushBack,
      true_and]
    cases b.level? side.book price with
    | none => simp
    | some level => simp
  · rw [if_neg hplace]
    have hother : ¬ (t = side.book ∧ q = price) := fun hboth =>
      hplace ⟨hboth.1.symm, hboth.2.symm⟩
    constructor
    · exact Or.inl
    · rintro (hrest | ⟨hs, hp, _⟩)
      · exact hrest
      · exact absurd ⟨hs, hp⟩ hother

theorem Linked.insert (h : b.Linked) : (b.insert side reference price shares).Linked where
  fresh := by
    intro s p n o hrest
    rw [nextNode_insert]
    rcases (rests_insert side reference price shares).mp hrest with hold | ⟨_, _, rfl, _⟩
    · exact Nat.lt_succ_of_lt (h.fresh hold)
    · exact Nat.lt_succ_self _
  distinct := by
    intro s p level hlevel
    rw [level?_insert] at hlevel
    split at hlevel
    · obtain rfl := Option.some.inj hlevel
      rw [pushed, ids_pushBack, List.nodup_append]
      refine ⟨?_, List.nodup_singleton _, ?_⟩
      · cases hold : b.level? side.book price with
        | none => exact List.nodup_nil
        | some level => exact h.distinct hold
      · intro n hn k hk heq
        obtain rfl : k = b.nextNode := List.mem_singleton.mp hk
        subst heq
        cases hold : b.level? side.book price with
        | none =>
          rw [hold] at hn
          cases hn
        | some level =>
          rw [hold] at hn
          obtain ⟨o, ho⟩ := mem_ids.mp hn
          exact Nat.lt_irrefl _ (h.fresh ⟨level, hold, ho⟩)
    · exact h.distinct hlevel
  place := by
    intro s p o t q x n hrest hrest'
    rcases (rests_insert side reference price shares).mp hrest with hold | ⟨rfl, rfl, rfl, _⟩
    · rcases (rests_insert side reference price shares).mp hrest' with hold' | ⟨_, _, rfl, _⟩
      · exact h.place hold hold'
      · exact absurd (h.fresh hold) (Nat.lt_irrefl _)
    · rcases (rests_insert _ reference _ shares).mp hrest' with hold' | ⟨rfl, rfl, _, _⟩
      · exact absurd (h.fresh hold') (Nat.lt_irrefl _)
      · exact ⟨rfl, rfl⟩
  nonempty := by
    intro s p level hlevel
    rw [level?_insert] at hlevel
    split at hlevel
    · obtain rfl := Option.some.inj hlevel
      simp [pushed, pushBack]
    · exact h.nonempty hlevel
  position := by
    intro r location hloc
    rw [orders_insert, Std.ExtTreeMap.getElem?_insertIfNew] at hloc
    split at hloc
    · rename_i hnew
      obtain rfl := Option.some.inj hloc
      obtain rfl : reference = r := by simpa using hnew.1
      exact ⟨side.book, ⟨reference, shares⟩, rfl,
        (rests_insert side reference price shares).mpr (Or.inr ⟨rfl, rfl, rfl, rfl⟩), rfl⟩
    · obtain ⟨s, o, hside, hrest, href⟩ := h.position hloc
      exact ⟨s, o, hside, (rests_insert side reference price shares).mpr (Or.inl hrest), href⟩

end Insert

section Reduce

variable {b : OrderBook} {r : UInt64} {s : BookSide} {f : Found} {removed : UInt32}
  {removeAll : Bool}

/-- The order is gone after the reduction, and its node with it. -/
def Gone (f : Found) (removed : UInt32) (removeAll : Bool) : Prop :=
  removeAll = true ∨ f.order.shares - removed = 0

theorem gone_iff : (removeAll || f.order.shares - removed == 0) = true ↔
    Gone f removed removeAll := by
  simp [Gone]

/-- A resting order elsewhere is not on the node being reduced. -/
theorem Linked.node_ne (h : b.Linked) (hf : b.FoundAt r s f) {t : BookSide} {q : PriceTicks}
    {n : NodeId} {o : RestingOrder} (hrest : b.Rests t q n o)
    (hplace : ¬ (s = t ∧ f.location.price = q)) : n ≠ f.location.position := by
  rintro rfl
  exact hplace (h.place hf.rests hrest)

theorem Linked.rests_removed (h : b.Linked) (hf : b.FoundAt r s f)
    (hgone : Gone f removed removeAll) {t : BookSide} {q : PriceTicks} {n : NodeId}
    {o : RestingOrder} : (b.afterReduction r f removed removeAll).Rests t q n o ↔
      n ≠ f.location.position ∧ b.Rests t q n o := by
  simp only [Rests, level?_afterReduction, hf.side, book_tag, if_pos (gone_iff.mpr hgone)]
  by_cases hplace : s = t ∧ f.location.price = q
  · obtain ⟨rfl, rfl⟩ := hplace
    simp only [and_self, if_true, hf.level, Option.some.injEq, exists_eq_left']
    rw [← mem_unlink, unlinked]
    split
    · rename_i hempty
      simp [List.isEmpty_iff.mp hempty]
    · simp
  · rw [if_neg hplace]
    exact ⟨fun hrest => ⟨h.node_ne hf hrest hplace, hrest⟩, And.right⟩

theorem Linked.rests_reduced (h : b.Linked) (hf : b.FoundAt r s f)
    (hstays : ¬ Gone f removed removeAll) {t : BookSide} {q : PriceTicks} {n : NodeId}
    {o : RestingOrder} : (b.afterReduction r f removed removeAll).Rests t q n o ↔
      (t = s ∧ q = f.location.price ∧ n = f.location.position ∧
        o = { f.order with shares := f.order.shares - removed }) ∨
      (n ≠ f.location.position ∧ b.Rests t q n o) := by
  simp only [Rests, level?_afterReduction, hf.side, book_tag, if_neg (mt gone_iff.mp hstays)]
  by_cases hplace : s = t ∧ f.location.price = q
  · obtain ⟨rfl, rfl⟩ := hplace
    simp only [and_self, if_true, hf.level, Option.some.injEq, exists_eq_left', reduced,
      mem_assign (mem_ids_of_deref hf.node), true_and]
  · rw [if_neg hplace]
    have hother : ¬ (t = s ∧ q = f.location.price) := fun hboth =>
      hplace ⟨hboth.1.symm, hboth.2.symm⟩
    constructor
    · exact fun hrest => Or.inr ⟨h.node_ne hf hrest hplace, hrest⟩
    · rintro (⟨hs, hp, _⟩ | ⟨_, hrest⟩)
      · exact absurd ⟨hs, hp⟩ hother
      · exact hrest

/-- Whatever rests after a reduction rested before it, on the same node. -/
theorem Linked.rests_before (h : b.Linked) (hf : b.FoundAt r s f) {t : BookSide}
    {q : PriceTicks} {n : NodeId} {o : RestingOrder}
    (hrest : (b.afterReduction r f removed removeAll).Rests t q n o) :
    ∃ x, b.Rests t q n x := by
  by_cases hgone : Gone f removed removeAll
  · exact ⟨o, ((h.rests_removed hf hgone).mp hrest).2⟩
  · rcases (h.rests_reduced hf hgone).mp hrest with ⟨rfl, rfl, rfl, _⟩ | ⟨_, hold⟩
    · exact ⟨f.order, hf.rests⟩
    · exact ⟨o, hold⟩

theorem Linked.afterReduction (h : b.Linked) (hf : b.FoundAt r s f) :
    (b.afterReduction r f removed removeAll).Linked where
  fresh := by
    intro t p n o hrest
    obtain ⟨x, hx⟩ := h.rests_before hf hrest
    simpa using h.fresh hx
  distinct := by
    intro t p level hlevel
    have hids := h.distinct hf.level
    rw [level?_afterReduction] at hlevel
    split at hlevel
    · split at hlevel
      · rw [unlinked] at hlevel
        split at hlevel
        · cases hlevel
        · obtain rfl := Option.some.inj hlevel
          rw [ids_unlink]
          exact hids.filter _
      · obtain rfl := Option.some.inj hlevel
        simpa [reduced] using hids
    · exact h.distinct hlevel
  place := by
    intro t p o t' p' x n hrest hrest'
    obtain ⟨_, hold⟩ := h.rests_before hf hrest
    obtain ⟨_, hold'⟩ := h.rests_before hf hrest'
    exact h.place hold hold'
  nonempty := by
    intro t p level hlevel
    rw [level?_afterReduction] at hlevel
    split at hlevel
    · split at hlevel
      · rw [unlinked] at hlevel
        split at hlevel
        · cases hlevel
        · rename_i hempty
          obtain rfl := Option.some.inj hlevel
          exact fun hnil => hempty (List.isEmpty_iff.mpr hnil)
      · obtain rfl := Option.some.inj hlevel
        simpa [reduced, assign] using h.nonempty hf.level
    · exact h.nonempty hlevel
  position := by
    intro r' location hloc
    rw [orders_afterReduction] at hloc
    by_cases hgone : Gone f removed removeAll
    · rw [if_pos (gone_iff.mpr hgone), Std.ExtTreeMap.getElem?_erase] at hloc
      split at hloc
      · cases hloc
      · rename_i hne
        obtain ⟨t, o, hside, hrest, href⟩ := h.position hloc
        refine ⟨t, o, hside, (h.rests_removed hf hgone).mpr ⟨?_, hrest⟩, href⟩
        intro hpos
        exact hne (by simpa using h.position_injective hf.index hloc hpos.symm)
    · rw [if_neg (mt gone_iff.mp hgone)] at hloc
      obtain ⟨t, o, hside, hrest, href⟩ := h.position hloc
      by_cases hpos : location.position = f.location.position
      · obtain ⟨rfl, hprice⟩ := h.place (hpos ▸ hrest) hf.rests
        obtain rfl := h.position_injective hloc hf.index hpos
        exact ⟨t, { f.order with shares := f.order.shares - removed }, hside,
          (h.rests_reduced hf hgone).mpr (Or.inl ⟨rfl, hprice, hpos, rfl⟩), hf.reference⟩
      · exact ⟨t, o, hside, (h.rests_reduced hf hgone).mpr (Or.inr ⟨hpos, hrest⟩), href⟩

end Reduce

section Runs

variable {b : OrderBook}

theorem rests_congr {b' : OrderBook} (hlevel : ∀ s p, b'.level? s p = b.level? s p) :
    b'.Rests = b.Rests := by
  funext s p n o
  simp only [Rests, hlevel]

theorem Linked.of_containers (h : b.Linked) {b' : OrderBook}
    (hlevel : ∀ s p, b'.level? s p = b.level? s p) (horders : b'.orders = b.orders)
    (hnext : b'.nextNode = b.nextNode) : b'.Linked where
  fresh := by
    intro s p n o hrest
    rw [rests_congr hlevel] at hrest
    rw [hnext]
    exact h.fresh hrest
  distinct := by
    intro s p level hl
    exact h.distinct ((hlevel s p).symm.trans hl)
  place := by
    intro s p o t q x n hrest hrest'
    rw [rests_congr hlevel] at hrest hrest'
    exact h.place hrest hrest'
  nonempty := by
    intro s p level hl
    exact h.nonempty ((hlevel s p).symm.trans hl)
  position := by
    intro r location hloc
    rw [horders] at hloc
    rw [rests_congr hlevel]
    exact h.position hloc

theorem Linked.tallied (h : b.Linked) (t : Tally) : (b.tallied t).Linked :=
  h.of_containers (fun s p => tallied_level? b t s p) rfl rfl

theorem Linked.takeOff (h : b.Linked) (r : UInt64) (n : UInt32) (removeAll : Bool) :
    (b.takeOff r n removeAll).Linked := by
  rw [OrderBook.takeOff]
  cases hf : b.find? r with
  | none => exact h
  | some f =>
    obtain ⟨s, hat⟩ := h.foundAt hf
    exact h.afterReduction hat

theorem Linked.effect (h : b.Linked) (a : BookAction) : (b.effect a).Linked := by
  cases a with
  | add side reference price shares => exact (h.insert _ _ _ _).tallied _
  | execute reference shares => exact (h.takeOff _ _ _).tallied _
  | cancel reference shares => exact (h.takeOff _ _ _).tallied _
  | delete reference => exact (h.takeOff _ _ _).tallied _
  | replace original new price shares =>
    rw [OrderBook.effect]
    split
    · exact h
    · exact ((h.takeOff _ _ _).insert _ _ _ _).tallied _
  | trade => exact h.tallied _

theorem Linked.received (h : b.Linked) (m : Message) : (b.received m).Linked := by
  rw [OrderBook.received]
  split
  · exact h
  · exact h.effect _

/-- A message on a linked book takes its full effect, or a debug assert stops it. -/
theorem Linked.on (h : b.Linked) {build : Build} {m : Message}
    (hfits : build = .debug → b.Fits m) : b.on build m = .ok (b.received m) :=
  h.followable.on hfits

theorem Linked.received_locate (h : b.Linked) (m : Message) :
    (b.received m).locate = b.locate := by
  have hon : b.on .relWithDebInfo m = .ok (b.received m) := h.on Build.noConfusion
  exact on_locate hon

end Runs

/-- A fresh book after `set_locate`. -/
def located (l : UInt16) : OrderBook := { locate := l }

theorem setLocate_fresh (build : Build) {l : UInt16} (hl : l ≠ 0) :
    OrderBook.setLocate build {} l = .ok (located l) := by
  have hne : (l != 0) = true := by simpa using hl
  simp only [setLocate, hne]
  cases build <;> rfl

/-- What a session does to a book: messages, and `set_locate` at any time. -/
inductive Event
  | setLocate (locate : UInt16)
  | message (message : Message)

def event (build : Build) (b : OrderBook) : Event → Except Fault OrderBook
  | .setLocate locate => b.setLocate build locate
  | .message m => b.on build m

theorem Linked.relocated {b : OrderBook} (h : b.Linked) (l : UInt16) :
    ({ b with locate := l } : OrderBook).Linked :=
  h.of_containers (fun s p => by cases s <;> rfl) rfl rfl

theorem linked_located (l : UInt16) : (located l).Linked := linked_fresh.relocated l

/-- With the asserts compiled out nothing stops a run, and its links stay sound. -/
theorem event_linked (b : OrderBook) (e : Event) (h : b.Linked) :
    ∃ b', event .relWithDebInfo b e = .ok b' ∧ b'.Linked := by
  cases e with
  | setLocate l => exact ⟨_, rfl, h.relocated l⟩
  | message m => exact ⟨_, h.on Build.noConfusion, h.received m⟩

theorem events_linked (events : List Event) :
    Throughout (event .relWithDebInfo) Linked {} events := by
  refine throughout_invariant (P := fun _ _ => True) (fun b e h _ => event_linked b e h)
    linked_fresh ?_
  exact along_iff_forall.mpr fun _ _ _ _ _ _ => trivial

/-- No index entry is stale, no level is empty, and no use of a position can go wrong. -/
structure NothingStale (b : OrderBook) : Prop where
  entries : ∀ r location, b.orders[r]? = some location →
    ∃ s level order, location.side = s.tag ∧ b.level? s location.price = some level ∧
      deref level.orders location.position = some order ∧ order.orderReference = r
  exclusive : ∀ (r r' : UInt64) (location location' : OrderLocation), b.orders[r]? = some location →
    b.orders[r']? = some location' → location.position = location'.position → r = r'
  occupied : b.LevelsOccupied
  ownNode : ∀ s price level t price' level' node, b.level? s price = some level →
    b.level? t price' = some level' → node ∈ ids level.orders → node ∈ ids level'.orders →
    s = t ∧ price = price'
  reductions : ∀ build r shares removeAll fault,
    b.reduceOrRemove build r shares removeAll = .error fault →
    fault = .assertion .reductionFitsOrder
  bestBid : ∀ best, b.bestBid = some best →
    ∃ level, b.level? .bids best.price = some level ∧ level.orders ≠ []
  bestAsk : ∀ best, b.bestAsk = some best →
    ∃ level, b.level? .asks best.price = some level ∧ level.orders ≠ []

theorem beginLevel_level {cmp : PriceTicks → PriceTicks → Ordering} [Std.TransCmp cmp]
    {levels : Levels cmp} {best : BookLevel} (h : beginLevel levels = some best) :
    ∃ level, levels[best.price]? = some level ∧ best.shares = level.totalShares := by
  simp only [beginLevel, Option.bind_eq_some_iff, Option.map_eq_some_iff] at h
  obtain ⟨price, _, level, hlevel, rfl⟩ := h
  exact ⟨level, hlevel, rfl⟩

/-- The only thing that can stop a reduction of a linked book is its assert. -/
theorem Linked.reduceOrRemove_error {b : OrderBook} (h : b.Linked) {build : Build} {r : UInt64}
    {shares : UInt32} {removeAll : Bool} {fault : Fault}
    (herror : b.reduceOrRemove build r shares removeAll = .error fault) :
    fault = .assertion .reductionFitsOrder := by
  by_cases hassert : build = .debug → removeAll = false →
      ∀ f, b.find? r = some f → shares ≤ f.order.shares
  · rw [h.followable.reduceOrRemove hassert] at herror
    cases herror
  · simp only [not_forall] at hassert
    obtain ⟨rfl, rfl, f, hf, hover⟩ := hassert
    rw [reduceOrRemove_assert hf hover] at herror
    exact (Except.error.inj herror).symm

theorem Linked.nothingStale {b : OrderBook} (h : b.Linked) : b.NothingStale where
  entries := by
    intro r location hloc
    obtain ⟨s, f, hf, rfl⟩ := h.foundAt_of_index hloc
    exact ⟨s, f.level, f.order, hf.side, hf.level, hf.node, hf.reference⟩
  exclusive := fun _ _ _ _ hl hl' hpos => h.position_injective hl hl' hpos
  occupied := h.nonempty
  ownNode := by
    intro s price level t price' level' node hlevel hlevel' hnode hnode'
    obtain ⟨o, ho⟩ := mem_ids.mp hnode
    obtain ⟨x, hx⟩ := mem_ids.mp hnode'
    exact h.place ⟨level, hlevel, ho⟩ ⟨level', hlevel', hx⟩
  reductions := fun _ _ _ _ _ herror => h.reduceOrRemove_error herror
  bestBid := by
    intro best hbest
    obtain ⟨level, hlevel, _⟩ := beginLevel_level hbest
    exact ⟨level, hlevel, h.nonempty (s := .bids) hlevel⟩
  bestAsk := by
    intro best hbest
    obtain ⟨level, hlevel, _⟩ := beginLevel_level hbest
    exact ⟨level, hlevel, h.nonempty (s := .asks) hlevel⟩

/-- On any input at all no stale position is ever used. -/
theorem no_stale_position (events : List Event) :
    Throughout (event .relWithDebInfo) NothingStale {} events :=
  throughout_mono (fun _ h => h.nothingStale) (events_linked events)

end OrderBook

end Itch
