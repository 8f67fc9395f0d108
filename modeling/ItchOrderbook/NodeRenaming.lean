import ItchOrderbook.BookAgreement
import ItchOrderbook.Relabelling

/-!
# The identities of the nodes

A book asks of two nodes whether they are the same one, and nothing else. Two books
that differ in the identities of their nodes, and in what they have tallied before,
answer every question alike. Whatever is sent to both, they stay like that, or stop
at the same assert.
-/

namespace Itch

open NodeQueue CheckedRuns

variable (g : NodeId → NodeId)

def PriceLevel.renamed (level : PriceLevel) : PriceLevel :=
  { level with orders := NodeQueue.renamed g level.orders }

def OrderLocation.renamed (location : OrderLocation) : OrderLocation :=
  { location with position := g location.position }

namespace OrderBook

def Found.renamed (f : Found) : Found where
  location := f.location.renamed g
  level := f.level.renamed g
  order := f.order

/-- The nodes in the queues of the book. -/
def queued (b : OrderBook) : Set NodeId := { n | ∃ s p o, b.Rests s p n o }

/-- `c` is `b` on other nodes. -/
structure Renames (b c : OrderBook) : Prop where
  locate : c.locate = b.locate
  levels : ∀ s p, c.level? s p = (b.level? s p).map (PriceLevel.renamed g)
  index : ∀ r : UInt64, c.orders[r]? = (b.orders[r]?).map (OrderLocation.renamed g)
  apart : Set.InjOn g b.queued

theorem pushed_renamed (level : PriceLevel) (node : NodeId) (r : UInt64) (n : UInt32) :
    (pushed level node r n).renamed g = pushed (level.renamed g) (g node) r n := by
  rw [PriceLevel.renamed, pushed, pushBack_renamed]
  rfl

section Nodes

variable {g} {b c : OrderBook}

theorem Linked.position_queued (hb : b.Linked) {r : UInt64} {location : OrderLocation}
    (hloc : b.orders[r]? = some location) : location.position ∈ b.queued := by
  obtain ⟨s, o, -, hrest, -⟩ := hb.position hloc
  exact ⟨s, location.price, o, hrest⟩

theorem FoundAt.position_queued {r : UInt64} {s : BookSide} {f : Found} (hf : b.FoundAt r s f) :
    f.location.position ∈ b.queued := ⟨s, _, f.order, hf.rests⟩

theorem mem_queued_of_ids {s : BookSide} {p : PriceTicks} {level : PriceLevel}
    (hlevel : b.level? s p = some level) {n : NodeId} (hn : n ∈ ids level.orders) :
    n ∈ b.queued := by
  obtain ⟨o, ho⟩ := mem_ids.mp hn
  exact ⟨s, p, o, level, hlevel, ho⟩

theorem Linked.queued_lt (hb : b.Linked) {n : NodeId} (hn : n ∈ b.queued) : n < b.nextNode := by
  obtain ⟨s, p, o, hrest⟩ := hn
  exact hb.fresh hrest

end Nodes

namespace Renames

variable {g} {b c : OrderBook} (h : Renames g b c)
include h

/-- Only what becomes of the queued nodes matters. -/
theorem congr (hb : b.Linked) {g' : NodeId → NodeId} (hg : ∀ n ∈ b.queued, g' n = g n) :
    Renames g' b c where
  locate := h.locate
  levels := by
    intro s p
    rw [h.levels]
    cases hlevel : b.level? s p with
    | none => rfl
    | some level =>
      rw [Option.map_some, Option.map_some, PriceLevel.renamed, PriceLevel.renamed,
        renamed_congr fun n hn => hg n (mem_queued_of_ids hlevel hn)]
  index := by
    intro r
    rw [h.index]
    cases hloc : b.orders[r]? with
    | none => rfl
    | some location =>
      rw [Option.map_some, Option.map_some, OrderLocation.renamed, OrderLocation.renamed,
        hg _ (hb.position_queued hloc)]
  apart := by
    intro n hn k hk heq
    rw [hg n hn, hg k hk] at heq
    exact h.apart hn hk heq

/-- An order rests in `c` on the node that `g` gives for its node in `b`. -/
theorem rests {s : BookSide} {p : PriceTicks} {n : NodeId} {o : RestingOrder}
    (hrest : b.Rests s p n o) : c.Rests s p (g n) o := by
  obtain ⟨level, hlevel, hmem⟩ := hrest
  exact ⟨level.renamed g, by rw [h.levels, hlevel]; rfl, (mem_renamed g).mpr ⟨n, hmem, rfl⟩⟩

/-- Every order of `c` has its node from one of `b`. -/
theorem rests_preimage {s : BookSide} {p : PriceTicks} {k : NodeId} {o : RestingOrder}
    (hrest : c.Rests s p k o) : ∃ n, b.Rests s p n o ∧ g n = k := by
  obtain ⟨level', hlevel', hmem⟩ := hrest
  rw [h.levels, Option.map_eq_some_iff] at hlevel'
  obtain ⟨level, hlevel, rfl⟩ := hlevel'
  obtain ⟨n, hn, rfl⟩ := (mem_renamed g).mp hmem
  exact ⟨n, ⟨level, hlevel, hn⟩, rfl⟩

theorem apart_at {r : UInt64} {s : BookSide} {f : Found} (hf : b.FoundAt r s f) :
    ∀ n ∈ ids f.level.orders, g n = g f.location.position → n = f.location.position :=
  fun _ hn heq => h.apart (mem_queued_of_ids hf.level hn) hf.position_queued heq

/-- Following the index in both books. -/
theorem find? (hb : b.Linked) (r : UInt64) : c.find? r = (b.find? r).map (Found.renamed g) := by
  cases hloc : b.orders[r]? with
  | none =>
    have hloc' := h.index r
    rw [hloc] at hloc'
    simp only [OrderBook.find?, hloc, hloc', Option.map_none]
    rfl
  | some location =>
    obtain ⟨s, f, hf, rfl⟩ := hb.foundAt_of_index hloc
    have hbook : f.location.side.book = s := by rw [hf.side, book_tag]
    rw [hf.find, Option.map_some, find?_eq_some]
    refine ⟨?_, ?_, ?_⟩
    · rw [h.index, hloc]
      rfl
    · change c.level? f.location.side.book f.location.price = _
      rw [hbook, h.levels, hf.level]
      rfl
    · exact (deref_renamed (h.apart_at hf)).trans hf.node

theorem tallied (t : Tally) : Renames g (b.tallied t) (c.tallied t) where
  locate := h.locate
  levels := by simpa using h.levels
  index := h.index
  apart := by
    rw [queued, rests_congr (tallied_level? b t)]
    exact h.apart

/-- Both books put the order at the end of the same queue, each on its next node. -/
theorem insert (hb : b.Linked) (hc : c.Linked) (side : Side) (r : UInt64) (p : PriceTicks)
    (n : UInt32) : Renames (Function.update g b.nextNode c.nextNode) (b.insert side r p n)
      (c.insert side r p n) := by
  have hold : ∀ k ∈ b.queued, Function.update g b.nextNode c.nextNode k = g k := fun k hk =>
    Function.update_of_ne (hb.queued_lt hk).ne _ _
  have hnew : ∀ k ∈ b.queued, g k ≠ c.nextNode := by
    rintro k ⟨s, q, o, hrest⟩
    exact (hc.fresh (h.rests hrest)).ne
  have hself : Function.update g b.nextNode c.nextNode b.nextNode = c.nextNode :=
    Function.update_self ..
  obtain ⟨g', hg'⟩ : ∃ g', g' = Function.update g b.nextNode c.nextNode := ⟨_, rfl⟩
  rw [← hg'] at hold hself ⊢
  have h' := h.congr hb hold
  refine ⟨by simpa using h.locate, ?_, ?_, ?_⟩
  · intro s q
    rw [level?_insert, level?_insert]
    by_cases hplace : side.book = s ∧ p = q
    · rw [if_pos hplace, if_pos hplace, Option.map_some, pushed_renamed, hself, h'.levels]
      cases b.level? side.book p with
      | none => rfl
      | some level => rfl
    · rw [if_neg hplace, if_neg hplace, h'.levels]
  · intro k
    rw [congrFun (c.index_insert side r p n) k, congrFun (b.index_insert side r p n) k]
    by_cases hk : k = r
    · subst hk
      rw [Function.update_self, Function.update_self, h'.index, Option.map_some]
      cases b.orders[k]? with
      | none =>
        rw [Option.map_none, Option.getD_none, Option.getD_none, OrderLocation.renamed, hself]
      | some location => rfl
    · rw [Function.update_of_ne hk, Function.update_of_ne hk, h'.index]
  · have hwhere : ∀ k ∈ (b.insert side r p n).queued, k ∈ b.queued ∨ k = b.nextNode := by
      rintro k ⟨s, q, o, hrest⟩
      rcases (rests_insert side r p n).mp hrest with hrest | ⟨-, -, heq, -⟩
      · exact Or.inl ⟨s, q, o, hrest⟩
      · exact Or.inr heq
    intro k hk m hm heq
    rcases hwhere k hk with hk | rfl
    · rcases hwhere m hm with hm | rfl
      · exact h'.apart hk hm heq
      · rw [hself, hold k hk] at heq
        exact absurd heq (hnew k hk)
    · rcases hwhere m hm with hm | rfl
      · rw [hself, hold m hm] at heq
        exact absurd heq.symm (hnew m hm)
      · rfl

theorem afterReduction (hb : b.Linked) {r : UInt64} {s : BookSide} {f : Found}
    (hf : b.FoundAt r s f) (removed : UInt32) (removeAll : Bool) :
    Renames g (b.afterReduction r f removed removeAll)
      (c.afterReduction r (f.renamed g) removed removeAll) where
  locate := by simpa using h.locate
  levels := by
    intro t q
    have hreduced : (reduced f removed).renamed g = reduced (f.renamed g) removed := by
      rw [PriceLevel.renamed, reduced, assign_renamed (h.apart_at hf)]
      rfl
    have hunlinked : (unlinked f removed).map (PriceLevel.renamed g) =
        unlinked (f.renamed g) removed := by
      have hqueue : unlink (f.renamed g).level.orders (f.renamed g).location.position =
          NodeQueue.renamed g (unlink f.level.orders f.location.position) :=
        (unlink_renamed (h.apart_at hf)).symm
      rw [unlinked, unlinked, hqueue, isEmpty_renamed]
      split
      · rfl
      · rfl
    rw [level?_afterReduction, level?_afterReduction]
    change (if f.location.side.book = t ∧ f.location.price = q then
      (if removeAll || f.order.shares - removed == 0 then unlinked (f.renamed g) removed
        else some (reduced (f.renamed g) removed)) else c.level? t q) = _
    by_cases hplace : f.location.side.book = t ∧ f.location.price = q
    · rw [if_pos hplace, if_pos hplace, apply_ite (Option.map (PriceLevel.renamed g)), hunlinked,
        Option.map_some, hreduced]
    · rw [if_neg hplace, if_neg hplace, h.levels]
  index := by
    intro k
    rw [orders_afterReduction, orders_afterReduction]
    change (if removeAll || f.order.shares - removed == 0 then _ else _)[k]? = _
    by_cases hgone : (removeAll || f.order.shares - removed == 0) = true
    · rw [if_pos hgone, if_pos hgone, congrFun (c.index_erase r) k, congrFun (b.index_erase r) k]
      by_cases hk : k = r
      · subst hk
        rw [Function.update_self, Function.update_self]
        rfl
      · rw [Function.update_of_ne hk, Function.update_of_ne hk, h.index]
    · rw [if_neg hgone, if_neg hgone, h.index]
  apart := by
    refine h.apart.mono ?_
    rintro n ⟨t, q, o, hrest⟩
    obtain ⟨x, hx⟩ := hb.rests_before hf hrest
    exact ⟨t, q, x, hx⟩

theorem takeOff (hb : b.Linked) (r : UInt64) (n : UInt32) (removeAll : Bool) :
    Renames g (b.takeOff r n removeAll) (c.takeOff r n removeAll) := by
  rw [OrderBook.takeOff, OrderBook.takeOff, h.find? hb]
  cases hf : b.find? r with
  | none => exact h
  | some f =>
    obtain ⟨s, hat⟩ := hb.foundAt hf
    exact h.afterReduction hb hat _ _

/-- What the assert of a reduction looks at is the same in both. -/
theorem within (hb : b.Linked) (a : BookAction) : c.Within a ↔ b.Within a := by
  have hfits : ∀ (r : UInt64) (n : UInt32), (∀ f ∈ c.find? r, n ≤ f.order.shares) ↔
      ∀ f ∈ b.find? r, n ≤ f.order.shares := by
    intro r n
    rw [h.find? hb]
    cases b.find? r with
    | none => simp
    | some f => simp [Found.renamed]
  cases a with
  | execute r n => exact hfits r n
  | cancel r n => exact hfits r n
  | add side r p n => exact Iff.rfl
  | delete r => exact Iff.rfl
  | replace original new p n => exact Iff.rfl
  | trade => exact Iff.rfl

theorem fits (hb : b.Linked) (m : Message) : c.Fits m ↔ b.Fits m := by
  simp only [OrderBook.Fits, h.locate, h.within hb]

theorem sameHoldings : SameHoldings b c where
  levels := by
    intro s p
    rw [h.levels, Option.map_map]
    congr 1
    funext level
    exact congrArg (·, level.totalShares) (payloads_renamed g).symm
  index := by
    intro r
    rw [h.index, Option.map_map]
    rfl

/-- A queued node leads back to its order in `c` exactly where it does in `b`. -/
theorem levelOk_iff (hb : b.Linked) {s : BookSide} {p : PriceTicks} {level : PriceLevel}
    (hlevel : b.level? s p = some level) :
    LevelOk c.orders s.tag p (level.renamed g) ↔ LevelOk b.orders s.tag p level := by
  have hentries : QueueIndexed c.orders s.tag p (level.renamed g).orders ↔
      QueueIndexed b.orders s.tag p level.orders := by
    constructor
    · intro hall n o hmem
      have hentry := hall (g n) o ((mem_renamed g).mpr ⟨n, hmem, rfl⟩)
      rw [h.index, Option.map_eq_some_iff] at hentry
      obtain ⟨⟨side, price, node⟩, hloc, heq⟩ := hentry
      obtain ⟨rfl, rfl, hnode⟩ := OrderLocation.mk.inj heq
      rw [hloc, ← h.apart (hb.position_queued hloc) ⟨s, _, o, level, hlevel, hmem⟩ hnode]
    · intro hall k o hmem
      obtain ⟨n, hn, rfl⟩ := (mem_renamed g).mp hmem
      rw [h.index, hall n o hn]
      rfl
  have hempty : (level.renamed g).orders = [] ↔ level.orders = [] := List.map_eq_nil_iff
  have htotal : total RestingOrder.counted (level.renamed g).orders =
      total RestingOrder.counted level.orders := total_renamed g _
  rw [LevelOk, LevelOk, ne_eq, hempty, htotal, hentries]
  rfl

theorem length_nodes (hb : b.Linked) (hc : c.Linked) : c.nodes.length = b.nodes.length := by
  let move : Resting → Resting := fun x => (x.1, x.2.1, g x.2.2.1, x.2.2.2)
  have hnodup : (b.nodes.map move).Nodup := by
    refine hb.nodup_nodes.map_on ?_
    rintro ⟨s, p, n, o⟩ hx ⟨t, q, k, x⟩ hy heq
    obtain ⟨rfl, rfl, hnode, rfl⟩ : s = t ∧ p = q ∧ g n = g k ∧ o = x := by simpa [move] using heq
    rw [h.apart ⟨s, p, o, mem_nodes.mp hx⟩ ⟨s, p, o, mem_nodes.mp hy⟩ hnode]
  have hperm : (b.nodes.map move).Perm c.nodes := by
    refine (List.perm_ext_iff_of_nodup hnodup hc.nodup_nodes).mpr ?_
    rintro ⟨s, p, k, o⟩
    rw [mem_nodes, List.mem_map]
    constructor
    · rintro ⟨⟨t, q, n, x⟩, hmem, heq⟩
      obtain ⟨rfl, rfl, rfl, rfl⟩ : t = s ∧ q = p ∧ g n = k ∧ x = o := by simpa [move] using heq
      exact h.rests (mem_nodes.mp hmem)
    · intro hrest
      obtain ⟨n, hn, rfl⟩ := h.rests_preimage hrest
      exact ⟨(s, p, n, o), mem_nodes.mpr hn, rfl⟩
  rw [← hperm.length_eq, List.length_map]

/-- `check_rep` says the same of both books, also of corrupted ones. -/
theorem checkRep_eq (hb : b.Linked) (hc : c.Linked) : c.checkRep = b.checkRep := by
  have hsize : c.orders.size = b.orders.size := by
    apply size_congr
    intro r
    rw [h.index, Option.isSome_map]
  rw [Bool.eq_iff_iff, checkRep_iff, checkRep_iff, h.length_nodes hb hc, hsize]
  refine and_congr_left fun _ => ?_
  constructor
  · intro hall s p level hlevel
    have hlevel' := h.levels s p
    rw [hlevel] at hlevel'
    exact (h.levelOk_iff hb hlevel).mp (hall s p _ hlevel')
  · intro hall s p level' hlevel'
    rw [h.levels, Option.map_eq_some_iff] at hlevel'
    obtain ⟨level, hlevel, rfl⟩ := hlevel'
    exact (h.levelOk_iff hb hlevel).mpr (hall s p level hlevel)

end Renames

theorem SameHoldings.answersAlike {b c : OrderBook} (h : SameHoldings b c) : AnswersAlike b c :=
  answersAlike_of h.index fun s p => by
    have htotals := congrArg (Option.map Prod.snd) (h.levels s p)
    rwa [Option.map_map, Option.map_map] at htotals

/-- Two linked books that differ in their nodes, and in their tallies by `d`. -/
structure Twins (d : Tally → UInt64) (b c : OrderBook) : Prop where
  linked : b.Linked
  linked' : c.Linked
  renames : ∃ g, Renames g b c
  tallies : ∀ t, c.stats.get t = b.stats.get t + d t

namespace Twins

variable {d : Tally → UInt64} {b c : OrderBook} (h : Twins d b c)
include h

theorem locate : c.locate = b.locate := by
  obtain ⟨g, hg⟩ := h.renames
  exact hg.locate

theorem tallied (t : Tally) : Twins d (b.tallied t) (c.tallied t) where
  linked := h.linked.tallied t
  linked' := h.linked'.tallied t
  renames := by
    obtain ⟨g, hg⟩ := h.renames
    exact ⟨g, hg.tallied t⟩
  tallies := by
    intro u
    rw [OrderBook.tallied, OrderBook.tallied, get_bump, get_bump, h.tallies, add_right_comm]

theorem insert (side : Side) (r : UInt64) (p : PriceTicks) (n : UInt32) :
    Twins d (b.insert side r p n) (c.insert side r p n) where
  linked := h.linked.insert side r p n
  linked' := h.linked'.insert side r p n
  renames := by
    obtain ⟨g, hg⟩ := h.renames
    exact ⟨_, hg.insert h.linked h.linked' side r p n⟩
  tallies := by simpa using h.tallies

theorem takeOff (r : UInt64) (n : UInt32) (removeAll : Bool) :
    Twins d (b.takeOff r n removeAll) (c.takeOff r n removeAll) where
  linked := h.linked.takeOff r n removeAll
  linked' := h.linked'.takeOff r n removeAll
  renames := by
    obtain ⟨g, hg⟩ := h.renames
    exact ⟨g, hg.takeOff h.linked r n removeAll⟩
  tallies := by simpa using h.tallies

theorem effect (a : BookAction) : Twins d (b.effect a) (c.effect a) := by
  cases a with
  | add side r p n => exact (h.insert _ _ _ _).tallied _
  | execute r n => exact (h.takeOff _ _ _).tallied _
  | cancel r n => exact (h.takeOff _ _ _).tallied _
  | delete r => exact (h.takeOff _ _ _).tallied _
  | trade => exact h.tallied _
  | replace original new p n =>
    obtain ⟨g, hg⟩ := h.renames
    simp only [OrderBook.effect, hg.find? h.linked]
    cases b.find? original with
    | none => exact h
    | some f => exact ((h.takeOff original 0 true).insert f.location.side new p n).tallied _

theorem received (m : Message) : Twins d (b.received m) (c.received m) := by
  rw [OrderBook.received, OrderBook.received, h.locate]
  cases m.actionAt? b.locate with
  | none => exact h
  | some a => exact h.effect a

/-- One message, in either build: both books take it, or both stop at the assert. -/
theorem on (build : Build) (m : Message) : Alike (Twins d) (b.on build m) (c.on build m) := by
  obtain ⟨g, hg⟩ := h.renames
  have hsame := hg.fits h.linked m
  by_cases hstop : build = .debug ∧ ¬ b.Fits m
  · obtain ⟨rfl, hover⟩ := hstop
    rw [on_over hover, on_over fun hfits => hover (hsame.mp hfits)]
    exact rfl
  · have hfits : build = .debug → b.Fits m := fun hbuild => by
      by_contra hover
      exact hstop ⟨hbuild, hover⟩
    rw [h.linked.on hfits, h.linked'.on fun hbuild => hsame.mpr (hfits hbuild)]
    exact h.received m

theorem relocated (l : UInt16) :
    Twins d ({ b with locate := l } : OrderBook) ({ c with locate := l } : OrderBook) where
  linked := h.linked.relocated l
  linked' := h.linked'.relocated l
  renames := by
    obtain ⟨g, hg⟩ := h.renames
    have hlevel : ∀ (x : OrderBook) s p,
        ({ x with locate := l } : OrderBook).level? s p = x.level? s p := by
      intro x s p
      cases s <;> rfl
    refine ⟨g, rfl, fun s p => ?_, hg.index, ?_⟩
    · rw [hlevel, hlevel, hg.levels]
    · rw [queued, rests_congr (hlevel b)]
      exact hg.apart
  tallies := h.tallies

theorem event (build : Build) (e : Event) :
    Alike (Twins d) (OrderBook.event build b e) (OrderBook.event build c e) := by
  cases e with
  | message m => exact h.on build m
  | setLocate l =>
    rw [OrderBook.event, OrderBook.event, setLocate, setLocate, h.locate]
    cases cassert build .locateSetOnce (b.locate == 0) with
    | error fault => exact rfl
    | ok _ =>
      cases cassert build .locateNotSentinel (l != 0) with
      | error fault => exact rfl
      | ok _ => exact h.relocated l

theorem run (build : Build) (events : List Event) :
    Alike (Twins d) (CheckedRuns.run (OrderBook.event build) b events)
      (CheckedRuns.run (OrderBook.event build) c events) := by
  have halike : Alike (Twins d) (CheckedRuns.run (OrderBook.event build) b events)
      (CheckedRuns.run (OrderBook.event build) c (events.map id)) :=
    run_alike (Twins d) id (fun _ _ e _ h => h.event build e) h
  rwa [List.map_id] at halike

end Twins

section Refining

variable {b c : OrderBook} {L : List Entry}

/-- Books of the same list differ in their nodes only. -/
theorem Refines.renames (hb : b.Refines L) (hc : c.Refines L) (hlocate : c.locate = b.locate) :
    ∃ g, Renames g b c := by
  have hnode : ∀ n, ∃ k, ∀ s p o, b.Rests s p n o → c.Rests s p k o := by
    intro n
    by_cases hn : n ∈ b.queued
    · obtain ⟨s, p, o, hrest⟩ := hn
      obtain ⟨k, x, hx, heq⟩ := hc.rests_of_entry (hb.entry_of_rests hrest)
      obtain rfl := entry_injective s p heq
      refine ⟨k, fun t q y hy => ?_⟩
      obtain ⟨rfl, rfl⟩ := hb.linked.place hy hrest
      rw [hb.linked.rests_unique hy hrest]
      exact hx
    · exact ⟨0, fun s p o hrest => absurd ⟨s, p, o, hrest⟩ hn⟩
  choose g hg using hnode
  have hsame := hb.sameHoldings hc
  refine ⟨g, hlocate, ?_, ?_, ?_⟩
  · intro s p
    have hboth := hsame.levels s p
    cases hlevel : b.level? s p with
    | none =>
      rw [hlevel, Option.map_none, eq_comm, Option.map_eq_none_iff] at hboth
      rw [hboth]
      rfl
    | some level =>
      rw [hlevel, Option.map_some, eq_comm, Option.map_eq_some_iff] at hboth
      obtain ⟨level', hlevel', heq⟩ := hboth
      obtain ⟨hpayloads, htotal⟩ := Prod.mk.inj heq
      have hnodup : (payloads level.orders).Nodup := by
        refine List.Nodup.of_map (RestingOrder.entry s p) ?_
        rw [hb.queues hlevel]
        exact (List.Nodup.of_map _ hb.distinct).filter _
      have hqueue : NodeQueue.renamed g level.orders = level'.orders := by
        refine renamed_eq g hpayloads.symm hnodup fun n o hmem => ?_
        obtain ⟨there, hthere, hin⟩ := hg n s p o ⟨level, hlevel, hmem⟩
        rw [hlevel'] at hthere
        obtain rfl := Option.some.inj hthere
        exact hin
      rw [hlevel', Option.map_some, PriceLevel.renamed, hqueue, ← htotal]
  · intro r
    cases hloc : b.orders[r]? with
    | none =>
      have hboth := hsame.index r
      rw [hloc, Option.map_none, eq_comm, Option.map_eq_none_iff] at hboth
      rw [hboth]
      rfl
    | some location =>
      obtain ⟨s, o, hside, hrest, rfl⟩ := hb.linked.position hloc
      rw [hc.accounted.indexed (hg _ _ _ _ hrest), Option.map_some, OrderLocation.renamed, hside]
  · rintro n ⟨s, p, o, ho⟩ k ⟨t, q, x, hx⟩ heq
    have ho' := hg n s p o ho
    have hx' := hg k t q x hx
    rw [heq] at ho'
    have hentry := hb.accounted.indexed hx
    rw [← hc.linked.rests_unique ho' hx', hb.accounted.indexed ho] at hentry
    exact (OrderLocation.mk.inj (Option.some.inj hentry)).2.2

theorem RefinesAt.twins {l : UInt16} (hb : RefinesAt l b L) (hc : RefinesAt l c L) :
    Twins (fun t => c.stats.get t - b.stats.get t) b c where
  linked := hb.linked
  linked' := hc.linked
  renames := hb.toRefines.renames hc.toRefines (hc.locate.trans hb.locate.symm)
  tallies := fun _ => (add_sub_cancel _ _).symm

end Refining

end OrderBook

end Itch
