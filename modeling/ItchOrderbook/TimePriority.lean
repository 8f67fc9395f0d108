import ItchOrderbook.ReplayRobustness
import Mathlib.Data.Multiset.AddSub

/-!
# Time priority

A node gets its identity when its order is inserted, so smaller means earlier.
Along any run the queue of a price loses the nodes of the orders taken off whole
and gains later ones at its end, and nothing else happens to it: an order that is
executed or cancelled in part stays where it stands. No order is ever overtaken,
whatever the messages.
-/

namespace Itch

open NodeQueue CheckedRuns

namespace OrderBook

/-- The nodes queued at a price, front first. -/
def nodesAt (b : OrderBook) (s : BookSide) (p : PriceTicks) : List NodeId :=
  ((b.level? s p).map fun level => ids level.orders).getD []

section NodesAt

variable {b : OrderBook} {s : BookSide} {p : PriceTicks}

theorem nodesAt_of_level {level : PriceLevel} (h : b.level? s p = some level) :
    b.nodesAt s p = ids level.orders := by
  rw [nodesAt, h]
  rfl

theorem mem_nodesAt {n : NodeId} : n ∈ b.nodesAt s p ↔ ∃ o, b.Rests s p n o := by
  cases hlevel : b.level? s p with
  | none => simp [nodesAt, Rests, hlevel]
  | some level =>
    rw [nodesAt_of_level hlevel, mem_ids]
    simp [Rests, hlevel]

theorem nodesAt_congr {b' : OrderBook} (h : b'.level? s p = b.level? s p) :
    b'.nodesAt s p = b.nodesAt s p := by
  rw [nodesAt, nodesAt, h]

theorem nodesAt_insert (side : Side) (r : UInt64) (q : PriceTicks) (n : UInt32) :
    (b.insert side r q n).nodesAt s p =
      b.nodesAt s p ++ if side.book = s ∧ q = p then [b.nextNode] else [] := by
  rw [nodesAt, level?_insert]
  by_cases hplace : side.book = s ∧ q = p
  · obtain ⟨rfl, rfl⟩ := hplace
    simp only [and_self, if_true, Option.map_some, Option.getD_some, pushed, ids_pushBack, nodesAt]
    cases b.level? side.book q with
    | none => rfl
    | some level => rfl
  · rw [if_neg hplace, if_neg hplace, List.append_nil, nodesAt]

/-- A reduction takes the node of its order out of its queue, if the order is gone, and moves
none. -/
theorem Linked.nodesAt_afterReduction (h : b.Linked) {r : UInt64} {t : BookSide} {f : Found}
    (hf : b.FoundAt r t f) (removed : UInt32) (removeAll : Bool) :
    (b.afterReduction r f removed removeAll).nodesAt s p =
      (b.nodesAt s p).filter fun n =>
        n ∉ if removeAll || f.order.shares - removed == 0 then {f.location.position}
          else (0 : Multiset NodeId) := by
  have hbook : f.location.side.book = t := by rw [hf.side, book_tag]
  have helsewhere : ∀ n ∈ b.nodesAt s p, ¬ (t = s ∧ f.location.price = p) →
      n ≠ f.location.position := by
    intro n hn hplace
    obtain ⟨o, ho⟩ := mem_nodesAt.mp hn
    exact h.node_ne hf ho hplace
  rw [nodesAt, level?_afterReduction, hbook]
  by_cases hgone : (removeAll || f.order.shares - removed == 0) = true
  · simp only [hgone, if_true, Multiset.mem_singleton]
    by_cases hplace : t = s ∧ f.location.price = p
    · obtain ⟨rfl, rfl⟩ := hplace
      rw [if_pos ⟨rfl, rfl⟩, nodesAt_of_level hf.level, ← ids_unlink, unlinked]
      by_cases hempty : (unlink f.level.orders f.location.position).isEmpty
      · simp [List.isEmpty_iff.mp hempty, ids]
      · simp [hempty]
    · rw [if_neg hplace, ← nodesAt, List.filter_eq_self.mpr]
      exact fun n hn => decide_eq_true (helsewhere n hn hplace)
  · simp only [hgone, if_false, Bool.false_eq_true, Multiset.notMem_zero, not_false_eq_true,
      decide_true, List.filter_true]
    by_cases hplace : t = s ∧ f.location.price = p
    · obtain ⟨rfl, rfl⟩ := hplace
      rw [if_pos ⟨rfl, rfl⟩, nodesAt_of_level hf.level]
      simp [reduced]
    · rw [if_neg hplace, ← nodesAt]

end NodesAt

/-- The node a reduction takes off the book: that of the order, if no shares are left. -/
def takenOff (b : OrderBook) (reference : UInt64) (shares : UInt32) (removeAll : Bool) :
    Multiset NodeId :=
  match b.find? reference with
  | none => 0
  | some f => if removeAll || f.order.shares - shares == 0 then {f.location.position} else 0

/-- The nodes an event takes off the book, one at most. -/
def finished (b : OrderBook) : Event → Multiset NodeId
  | .setLocate _ => 0
  | .message m =>
    match m.actionAt? b.locate with
    | some (.execute reference shares) | some (.cancel reference shares) =>
      b.takenOff reference shares false
    | some (.delete reference) | some (.replace reference _ _ _) => b.takenOff reference 0 true
    | _ => 0

/-- A message that executes or cancels a part of a resting order and leaves shares. -/
def ReducesInPart (b : OrderBook) (m : Message) : Prop :=
  ∃ r shares f, (m.actionAt? b.locate = some (.execute r shares) ∨
    m.actionAt? b.locate = some (.cancel r shares)) ∧
    b.find? r = some f ∧ f.order.shares - shares ≠ 0

/-- From `b` to `b'` every queue lost the nodes in `gone` and gained later ones at its end, and
nothing else; what is still there is the same order at the same price, under its old entry. -/
structure Ages (gone : Multiset NodeId) (b b' : OrderBook) : Prop where
  clock : b.nextNode ≤ b'.nextNode
  queues : ∀ s p, ∃ joined, (∀ n ∈ joined, b.nextNode ≤ n ∧ n < b'.nextNode) ∧
    joined.Pairwise (· < ·) ∧ b'.nodesAt s p = (b.nodesAt s p).filter (· ∉ gone) ++ joined
  orders : ∀ {s t p q n o x}, b.Rests s p n o → b'.Rests t q n x →
    s = t ∧ p = q ∧ o.orderReference = x.orderReference
  index : ∀ {r : UInt64} {location : OrderLocation}, b.orders[r]? = some location →
    location.position ∉ gone → b'.orders[r]? = some location

namespace Ages

variable {b c d : OrderBook} {gone gone' : Multiset NodeId}

/-- A node of the later book that was allocated earlier was queued there all along. -/
theorem rests_of_old (h : Ages gone b c) {t : BookSide} {q : PriceTicks} {n : NodeId}
    {x : RestingOrder} (hrest : c.Rests t q n x) (hold : n < b.nextNode) :
    ∃ o, b.Rests t q n o := by
  obtain ⟨joined, hnew, _, hqueue⟩ := h.queues t q
  have hn := mem_nodesAt.mpr ⟨x, hrest⟩
  rw [hqueue] at hn
  rcases List.mem_append.mp hn with hin | hjoined
  · exact mem_nodesAt.mp (List.mem_of_mem_filter hin)
  · exact absurd (hnew n hjoined).1 (Nat.not_le.mpr hold)

theorem refl (h : b.Linked) : Ages 0 b b where
  clock := Nat.le_refl _
  queues := fun s p => ⟨[], by simp, List.Pairwise.nil, by simp⟩
  orders := by
    intro s t p q n o x ho hx
    obtain ⟨rfl, rfl⟩ := h.place ho hx
    exact ⟨rfl, rfl, by rw [h.rests_unique ho hx]⟩
  index := fun hloc _ => hloc

theorem trans (h : b.Linked) (hbc : Ages gone b c) (hcd : Ages gone' c d) :
    Ages (gone + gone') b d where
  clock := hbc.clock.trans hcd.clock
  queues := by
    intro s p
    obtain ⟨first, hfirst, hsorted, hqueue⟩ := hbc.queues s p
    obtain ⟨second, hsecond, hsorted', hqueue'⟩ := hcd.queues s p
    refine ⟨first.filter (· ∉ gone') ++ second, ?_, ?_, ?_⟩
    · intro n hn
      rcases List.mem_append.mp hn with hn | hn
      · have hin := hfirst n (List.mem_of_mem_filter hn)
        exact ⟨hin.1, hin.2.trans_le hcd.clock⟩
      · exact ⟨hbc.clock.trans (hsecond n hn).1, (hsecond n hn).2⟩
    · refine List.pairwise_append.mpr ⟨hsorted.filter _, hsorted', fun n hn k hk => ?_⟩
      exact (hfirst n (List.mem_of_mem_filter hn)).2.trans_le (hsecond k hk).1
    · have hboth : (b.nodesAt s p).filter (· ∉ gone + gone') =
          ((b.nodesAt s p).filter (· ∉ gone)).filter (· ∉ gone') := by
        rw [List.filter_filter]
        exact List.filter_congr fun n _ => by simp [Multiset.mem_add, Bool.and_comm]
      rw [hqueue', hqueue, List.filter_append, hboth, List.append_assoc]
  orders := by
    intro s t p q n o x ho hx
    have hold : n < b.nextNode := h.fresh ho
    obtain ⟨y, hy⟩ := hcd.rests_of_old hx (hold.trans_le hbc.clock)
    obtain ⟨rfl, rfl, hoy⟩ := hbc.orders ho hy
    obtain ⟨_, _, hyx⟩ := hcd.orders hy hx
    exact ⟨rfl, rfl, hoy.trans hyx⟩
  index := by
    intro r location hloc hstays
    rw [Multiset.mem_add, not_or] at hstays
    exact hcd.index (hbc.index hloc hstays.1) hstays.2

/-- Only the containers and the allocator matter. -/
theorem of_containers (h : Ages gone b c) (hlevel : ∀ s p, d.level? s p = c.level? s p)
    (horders : d.orders = c.orders) (hnext : d.nextNode = c.nextNode) : Ages gone b d where
  clock := by rw [hnext]; exact h.clock
  queues := by
    intro s p
    rw [hnext, nodesAt_congr (hlevel s p)]
    exact h.queues s p
  orders := by
    intro s t p q n o x ho hx
    rw [rests_congr hlevel] at hx
    exact h.orders ho hx
  index := by
    rw [horders]
    exact h.index

theorem tallied (h : Ages gone b c) (t : Tally) : Ages gone b (c.tallied t) :=
  h.of_containers (fun s p => tallied_level? c t s p) rfl rfl

theorem insert (h : b.Linked) (side : Side) (r : UInt64) (q : PriceTicks) (n : UInt32) :
    Ages 0 b (b.insert side r q n) where
  clock := by
    rw [nextNode_insert]
    exact Nat.le_succ _
  queues := by
    intro s p
    refine ⟨if side.book = s ∧ q = p then [b.nextNode] else [], ?_, ?_, ?_⟩
    · split <;> simp
    · split <;> simp
    · rw [nodesAt_insert]
      simp
  orders := by
    intro s t p k m o x ho hx
    rcases (rests_insert side r q n).mp hx with hx | ⟨_, _, rfl, _⟩
    · exact (refl h).orders ho hx
    · exact absurd (h.fresh ho) (Nat.lt_irrefl _)
  index := by
    intro k location hloc _
    have hmem : k ∈ b.orders := by
      rw [Std.ExtTreeMap.mem_iff_isSome_getElem?, hloc]
      rfl
    rw [orders_insert, Std.ExtTreeMap.getElem?_insertIfNew, if_neg, hloc]
    rintro ⟨heq, hnew⟩
    rw [Std.LawfulEqCmp.compare_eq_iff_eq.mp heq] at hnew
    exact hnew hmem

theorem afterReduction (h : b.Linked) {r : UInt64} {u : BookSide} {f : Found}
    (hf : b.FoundAt r u f) (removed : UInt32) (removeAll : Bool) :
    Ages (if removeAll || f.order.shares - removed == 0 then {f.location.position} else 0) b
      (b.afterReduction r f removed removeAll) where
  clock := by rw [nextNode_afterReduction]
  queues := by
    intro s p
    refine ⟨[], by simp, List.Pairwise.nil, ?_⟩
    rw [List.append_nil]
    exact h.nodesAt_afterReduction hf removed removeAll
  orders := by
    intro s t p q n o x ho hx
    by_cases hgone : Gone f removed removeAll
    · exact (refl h).orders ho ((h.rests_removed hf hgone).mp hx).2
    · rcases (h.rests_reduced hf hgone).mp hx with ⟨rfl, rfl, rfl, rfl⟩ | ⟨_, hx⟩
      · obtain ⟨rfl, rfl⟩ := h.place ho hf.rests
        exact ⟨rfl, rfl, by rw [h.rests_unique ho hf.rests]⟩
      · exact (refl h).orders ho hx
  index := by
    intro k location hloc hstays
    rw [orders_afterReduction]
    by_cases hgone : (removeAll || f.order.shares - removed == 0) = true
    · rw [if_pos hgone, Multiset.mem_singleton] at hstays
      rw [if_pos hgone, Std.ExtTreeMap.getElem?_erase, if_neg, hloc]
      intro heq
      obtain rfl := Std.LawfulEqCmp.compare_eq_iff_eq.mp heq
      rw [hf.index] at hloc
      exact hstays (by rw [Option.some.inj hloc])
    · rw [if_neg hgone]
      exact hloc

theorem takeOff (h : b.Linked) (r : UInt64) (n : UInt32) (removeAll : Bool) :
    Ages (b.takenOff r n removeAll) b (b.takeOff r n removeAll) := by
  rw [OrderBook.takeOff, takenOff]
  cases hf : b.find? r with
  | none => exact refl h
  | some f =>
    obtain ⟨s, hat⟩ := h.foundAt hf
    have hages := afterReduction h hat (removedShares f n removeAll) removeAll
    cases removeAll with
    | true => exact hages
    | false => exact hages

theorem received (h : b.Linked) (m : Message) :
    Ages (b.finished (.message m)) b (b.received m) := by
  rw [OrderBook.received, finished]
  cases m.actionAt? b.locate with
  | none => exact refl h
  | some a =>
    cases a with
    | add side reference price shares => exact (insert h _ _ _ _).tallied _
    | execute reference shares => exact (takeOff h _ _ _).tallied _
    | cancel reference shares => exact (takeOff h _ _ _).tallied _
    | delete reference => exact (takeOff h _ _ _).tallied _
    | replace original new price shares =>
      have hoff := takeOff h original 0 true
      simp only [OrderBook.effect]
      cases hf : b.find? original with
      | none =>
        rw [OrderBook.takeOff, hf] at hoff
        exact hoff
      | some f =>
        have hages := trans h hoff (insert (h.takeOff original 0 true) f.location.side new price
          shares)
        rw [add_zero] at hages
        exact hages.tallied _
    | trade => exact (refl h).tallied _

/-- One event, in either build, when no assert stops it. -/
theorem event (h : b.Linked) {build : Build} {e : Event}
    (he : OrderBook.event build b e = .ok c) : c.Linked ∧ Ages (b.finished e) b c := by
  cases e with
  | setLocate l =>
    obtain ⟨_, _, he⟩ := bind_eq_ok he
    obtain ⟨_, _, he⟩ := bind_eq_ok he
    obtain rfl := Except.ok.inj he
    exact ⟨h.relocated l, (refl h).of_containers (fun s p => by cases s <;> rfl) rfl rfl⟩
  | message m =>
    obtain rfl := h.on_ok he
    exact ⟨h.received m, received h m⟩

end Ages

/-- A reduction that leaves shares leaves every queue and every entry of the index as it was. -/
theorem Linked.reducesInPart {b c : OrderBook} (h : b.Linked) {m : Message} {build : Build}
    (hpart : b.ReducesInPart m) (hc : b.on build m = .ok c) :
    (∀ s p, c.nodesAt s p = b.nodesAt s p) ∧ c.orders = b.orders := by
  obtain ⟨r, shares, f, hact, hf, hleft⟩ := hpart
  obtain ⟨t, hat⟩ := h.foundAt hf
  have hgone : ¬ (false || f.order.shares - shares == 0) = true := by simpa using hleft
  have hkept : ∀ u, (∀ s p, ((b.takeOff r shares false).tallied u).nodesAt s p = b.nodesAt s p) ∧
      ((b.takeOff r shares false).tallied u).orders = b.orders := by
    intro u
    rw [OrderBook.takeOff, hf]
    constructor
    · intro s p
      rw [nodesAt_congr (tallied_level? _ u s p)]
      refine (h.nodesAt_afterReduction hat shares false).trans ?_
      simp [hgone]
    · exact (orders_afterReduction ..).trans (if_neg hgone)
  obtain rfl := h.on_ok hc
  rw [OrderBook.received]
  rcases hact with hact | hact
  · rw [hact]
    exact hkept .executions
  · rw [hact]
    exact hkept .cancels

/-- Every queue is in the order its nodes were allocated in. -/
def InOrderOfArrival (b : OrderBook) : Prop :=
  ∀ s p, (b.nodesAt s p).Pairwise (· < ·) ∧ ∀ n ∈ b.nodesAt s p, n < b.nextNode

theorem Ages.inOrderOfArrival {b c : OrderBook} {gone : Multiset NodeId} (h : Ages gone b c)
    (hb : b.InOrderOfArrival) : c.InOrderOfArrival := by
  intro s p
  obtain ⟨joined, hnew, hsorted, hqueue⟩ := h.queues s p
  obtain ⟨hpairs, hold⟩ := hb s p
  rw [hqueue]
  constructor
  · refine List.pairwise_append.mpr ⟨hpairs.filter _, hsorted, fun n hn k hk => ?_⟩
    exact (hold n (List.mem_of_mem_filter hn)).trans_le (hnew k hk).1
  · intro n hn
    rcases List.mem_append.mp hn with hn | hn
    · exact (hold n (List.mem_of_mem_filter hn)).trans_le h.clock
    · exact (hnew n hn).2

theorem inOrderOfArrival_fresh : InOrderOfArrival {} := by
  intro s p
  cases s <;> simp [nodesAt, level?]

/-- The nodes that a run takes off the book. -/
def finishedAlong (build : Build) : OrderBook → List Event → Multiset NodeId :=
  accumulate (event build) finished

/-- No order is ever overtaken. In every state a run reaches, in either build and on any
events, each queue is in order of arrival, and an execution or a cancel that leaves shares moves
nothing in any queue. From there to any later state a queue loses the nodes of the orders taken
off whole, no others, and gains later ones at its end; a node that is still queued holds the same
order at the same price. -/
theorem time_priority (build : Build) {events later : List Event} {b c : OrderBook}
    (hb : run (event build) {} events = .ok b) (hc : run (event build) b later = .ok c) :
    b.InOrderOfArrival ∧ c.InOrderOfArrival ∧
      (∀ m d, b.ReducesInPart m → b.on build m = .ok d →
        (∀ s p, d.nodesAt s p = b.nodesAt s p) ∧ d.orders = b.orders) ∧
      Ages (finishedAlong build b later) b c := by
  have hrelates : ∀ {b c : OrderBook} {events : List Event}, b.Linked →
      run (event build) b events = .ok c → c.Linked ∧ Ages (finishedAlong build b events) b c :=
    fun h hrun => run_relates (fun _ h => Ages.refl h)
      (fun _ _ _ _ _ h hbc hcd => Ages.trans h hbc hcd) (fun _ _ _ h he => Ages.event h he) h hrun
  obtain ⟨hlinked, hfirst⟩ := hrelates linked_fresh hb
  have harrival := hfirst.inOrderOfArrival inOrderOfArrival_fresh
  obtain ⟨_, hlater⟩ := hrelates hlinked hc
  exact ⟨harrival, hlater.inOrderOfArrival harrival,
    fun _ _ hpart hd => hlinked.reducesInPart hpart hd, hlater⟩

/-- Two orders at a price; the first is executed in part, and a third one joins. -/
theorem time_priority_partial_fill : ∃ b c,
    run (event .relWithDebInfo) {} [.setLocate 7, .message (.bid 7 1 100 5000),
      .message (.bid 7 2 50 5000)] = .ok b ∧
    run (event .relWithDebInfo) b [.message (.executing 7 1 40), .message (.bid 7 3 10 5000)] =
      .ok c ∧
    b.InOrderOfArrival ∧ c.InOrderOfArrival ∧
      (∀ m d, b.ReducesInPart m → b.on .relWithDebInfo m = .ok d →
        (∀ s p, d.nodesAt s p = b.nodesAt s p) ∧ d.orders = b.orders) ∧
      Ages (finishedAlong .relWithDebInfo b
        [.message (.executing 7 1 40), .message (.bid 7 3 10 5000)]) b c := by
  obtain ⟨b, hb, _⟩ := events_linked [.setLocate 7, .message (.bid 7 1 100 5000),
    .message (.bid 7 2 50 5000)] _ (List.prefix_refl _)
  obtain ⟨c, hc, _⟩ := events_linked ([.setLocate 7, .message (.bid 7 1 100 5000),
    .message (.bid 7 2 50 5000)] ++ [.message (.executing 7 1 40), .message (.bid 7 3 10 5000)]) _
    (List.prefix_refl _)
  rw [run_append_ok hb] at hc
  exact ⟨b, c, hb, hc, time_priority .relWithDebInfo hb hc⟩

end OrderBook

end Itch
