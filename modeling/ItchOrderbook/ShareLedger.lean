import ItchOrderbook.BookAgreement
import ItchOrderbook.NamedOrders

/-!
# The ledger of shares

Shares enter the book with the orders inserted and leave it by executions,
cancels, deletes and replaces. Over any selection of orders (one order, one
price, one side, the whole book) what went in is what went out and what rests.
-/

namespace Itch

open NodeQueue KeyedList CheckedRuns

/-- The part of an entry that an action takes off the list. -/
def taken (L : List Entry) : BookAction → Option Entry
  | .execute reference shares | .cancel reference shares =>
    (L.find? fun e => e.reference = reference).map fun e => { e with shares := shares.toNat }
  | .delete reference | .replace reference _ _ _ => L.find? fun e => e.reference = reference
  | .add _ _ _ _ | .trade => none

section Lists

variable (select : Selection) {L : List Entry}

theorem volume_toList (e : Option Entry) : volume select e.toList = countedIn select e := by
  cases e <;> simp [volume, countedIn]

theorem volume_perm {L L' : List Entry} (h : L.Perm L') : volume select L = volume select L' :=
  (h.map _).sum_eq

theorem find?_cases (L : List Entry) (r : UInt64) :
    (L.find? fun e => e.reference = r) = none ∧ Absent Entry.reference r L ∨
      ∃ e ∈ L, e.reference = r ∧ (L.find? fun e => e.reference = r) = some e := by
  cases hfind : L.find? fun e => e.reference = r with
  | none =>
    refine Or.inl ⟨rfl, fun e he => ?_⟩
    simpa using List.find?_eq_none.mp hfind e he
  | some e =>
    exact Or.inr ⟨e, List.mem_of_find?_eq_some hfind, by simpa using List.find?_some hfind, rfl⟩

/-- A reduction leaves what it does not take. -/
theorem volume_less (hdistinct : (L.map Entry.reference).Nodup) {r : UInt64} {n : ℕ}
    (hfits : ∀ e ∈ L, e.reference = r → n ≤ e.shares) :
    volume select (update Entry.reference r (Entry.less n) L) +
        countedIn select ((L.find? fun e => e.reference = r).map fun e =>
          { e with shares := n }) = volume select L := by
  rcases find?_cases L r with ⟨hfind, habsent⟩ | ⟨e, he, rfl, hfind⟩
  · rw [hfind, update_of_absent habsent]
    rfl
  · have hmoved := volume_update select hdistinct he (Entry.less n)
    have hparts := counted_less select e (hfits e he rfl)
    rw [hfind]
    simp only [Option.map_some, countedIn, Option.getD_some] at hmoved hparts ⊢
    omega

theorem volume_drop (hdistinct : (L.map Entry.reference).Nodup) (r : UInt64) :
    volume select (update Entry.reference r (fun _ => none) L) +
      countedIn select (L.find? fun e => e.reference = r) = volume select L := by
  rcases find?_cases L r with ⟨hfind, habsent⟩ | ⟨e, he, rfl, hfind⟩
  · rw [hfind, update_of_absent habsent]
    rfl
  · rw [hfind]
    exact volume_update select hdistinct he fun _ => none

/-- One action: what is there afterwards and what was taken is what was there and what was
placed. -/
theorem volume_fifo (hdistinct : (L.map Entry.reference).Nodup) {a : BookAction}
    (ha : Admissible L a) : volume select (fifo L a) + countedIn select (taken L a) =
      volume select L + countedIn select (placed L a) := by
  have hshrink : volume select (shrink L a) + countedIn select (taken L a) = volume select L := by
    cases a with
    | execute reference shares => exact volume_less select hdistinct ha
    | cancel reference shares => exact volume_less select hdistinct ha
    | delete reference => exact volume_drop select hdistinct reference
    | replace original new price shares => exact volume_drop select hdistinct original
    | add side reference price shares => rfl
    | trade => rfl
  rw [fifo_eq, volume_append, volume_toList]
  omega

end Lists

namespace OrderBook

/-- The part of a resting order that a message takes off, with its side and price: the shares it
carries, or all of them where it removes the order. -/
def removal? (b : OrderBook) (m : Message) : Option (BookSide × PriceTicks × RestingOrder) :=
  match m.actionAt? b.locate with
  | some (.execute reference shares) | some (.cancel reference shares) =>
    (b.find? reference).map fun f =>
      (f.location.side.book, f.location.price, { f.order with shares := shares })
  | some (.delete reference) | some (.replace reference _ _ _) =>
    (b.find? reference).map fun f => (f.location.side.book, f.location.price, f.order)
  | _ => none

/-- The shares of an order at a side and price, when it is one of those selected. -/
def selectedShares (select : Selection) : Option (BookSide × PriceTicks × RestingOrder) → ℕ
  | some (s, p, o) => if select s p o.orderReference then o.shares.toNat else 0
  | none => 0

/-- The shares a message adds to the selected orders. -/
def joining (select : Selection) (b : OrderBook) (m : Message) : ℕ :=
  selectedShares select (b.insertion? m)

/-- The shares a message of one kind takes off the selected orders. -/
def leaving (select : Selection) (t : Tally) (b : OrderBook) (m : Message) : ℕ :=
  if m.action?.map BookAction.tally = some t then selectedShares select (b.removal? m) else 0

/-- The shares of the selected orders in the queues of the book. -/
def resting (select : Selection) (b : OrderBook) : ℕ :=
  (b.nodes.map fun x => selectedShares select (some (x.1, x.2.1, x.2.2.2))).sum

theorem selectedShares_eq (select : Selection)
    (o : Option (BookSide × PriceTicks × RestingOrder)) :
    selectedShares select o = countedIn select (o.map fun x => x.2.2.entry x.1 x.2.1) := by
  cases o <;> rfl

/-- The queues of the book hold the entries of the list, each once. -/
theorem Refines.nodes_perm {b : OrderBook} {L : List Entry} (h : b.Refines L) :
    (b.nodes.map fun x => x.2.2.2.entry x.1 x.2.1).Perm L := by
  have hreferences : ((b.nodes.map fun x => x.2.2.2.entry x.1 x.2.1).map
      Entry.reference).Nodup := by
    rw [List.map_map]
    exact h.linked.nodup_references h.accounted.indexed
  refine (List.perm_ext_iff_of_nodup (List.Nodup.of_map _ hreferences)
    (List.Nodup.of_map _ h.distinct)).mpr fun e => ?_
  simp only [List.mem_map, Prod.exists]
  constructor
  · rintro ⟨s, p, n, o, hmem, rfl⟩
    exact h.entry_of_rests (mem_nodes.mp hmem)
  · intro he
    obtain ⟨n, o, hrest, heq⟩ := h.rests_of_entry he
    exact ⟨_, _, n, o, mem_nodes.mpr hrest, heq⟩

theorem Refines.resting_eq {b : OrderBook} {L : List Entry} (h : b.Refines L)
    (select : Selection) : b.resting select = volume select L := by
  rw [← volume_perm select h.nodes_perm, volume, List.map_map]
  rfl

section Steps

variable {l : UInt16} {b : OrderBook} {L : List Entry} {m : Message}

/-- The part a message takes off is the part its action takes off the list. -/
theorem RefinesAt.taken_eq (h : RefinesAt l b L) {a : BookAction}
    (hact : m.actionAt? l = some a) :
    taken L a = (b.removal? m).map fun x => x.2.2.entry x.1 x.2.1 := by
  have hlookup : ∀ r, L.find? (fun e => e.reference = r) = (b.find? r).map fun f =>
      f.order.entry f.location.side.book f.location.price := by
    intro r
    cases hf : b.find? r with
    | none => exact h.find?_absent (h.linked.followable.find?_eq_none.mp hf)
    | some f =>
      obtain ⟨s, hat⟩ := h.linked.foundAt hf
      rw [h.find?_found hat, Option.map_some, hat.side, book_tag]
  rw [removal?, h.locate, hact]
  cases a with
  | execute reference shares =>
    rw [taken, hlookup, Option.map_map, Option.map_map]
    rfl
  | cancel reference shares =>
    rw [taken, hlookup, Option.map_map, Option.map_map]
    rfl
  | delete reference =>
    rw [taken, hlookup, Option.map_map]
    rfl
  | replace original new price shares =>
    rw [taken, hlookup, Option.map_map]
    rfl
  | add side reference price shares => rfl
  | trade => rfl

/-- What a message takes off, it takes off as an execution, a cancel, a delete or a replace. -/
theorem leaving_sum (select : Selection) (b : OrderBook) (m : Message) :
    leaving select .executions b m + leaving select .cancels b m + leaving select .deletes b m +
      leaving select .replaces b m = selectedShares select (b.removal? m) := by
  by_cases hgate : m.stockLocate = b.locate
  · cases hact : m.action? with
    | none => simp [leaving, removal?, Message.actionAt?, hgate, hact, selectedShares]
    | some a => cases a <;>
        simp [leaving, removal?, Message.actionAt?, hgate, hact, selectedShares, BookAction.tally]
  · have hnone : b.removal? m = none := by rw [removal?, Message.actionAt?, if_neg hgate]
    simp [leaving, hnone, selectedShares]

theorem RefinesAt.balance (h : RefinesAt l b L) (select : Selection) (hm : Valid l L m) :
    (b.received m).resting select +
        (leaving select .executions b m + leaving select .cancels b m +
          leaving select .deletes b m + leaving select .replaces b m) =
      b.resting select + joining select b m := by
  rw [leaving_sum, joining, (h.received hm).resting_eq, h.resting_eq, selectedShares_eq,
    selectedShares_eq, ← h.placedBy_eq, placedBy, fifoStep]
  cases hact : m.actionAt? l with
  | none =>
    have hnone : b.removal? m = none := by rw [removal?, h.locate, hact]
    rw [hnone]
    rfl
  | some a =>
    rw [← h.taken_eq hact]
    exact volume_fifo select h.distinct (hm a hact)

end Steps

/-- The shares a run takes off the selected orders by messages of one kind. -/
def left (build : Build) (select : Selection) (t : Tally) : OrderBook → List Message → ℕ :=
  accumulate (OrderBook.on build) (leaving select t)

/-- The shares a run adds to the selected orders. -/
def entered (build : Build) (select : Selection) : OrderBook → List Message → ℕ :=
  accumulate (OrderBook.on build) (joining select)

/-- The ledger of a run the book accepts. -/
theorem RefinesAt.ledger {l : UInt16} {b : OrderBook} {L : List Entry} (h : RefinesAt l b L)
    (build : Build) (select : Selection) {ms : List Message}
    (haccepts : Along (OrderBook.on build) Accepts b ms) :
    ∃ b', run (OrderBook.on build) b ms = .ok b' ∧ (∃ L', RefinesAt l b' L') ∧
      b'.resting select +
          (left build select .executions b ms + left build select .cancels b ms +
            left build select .deletes b ms + left build select .replaces b ms) =
        b.resting select + entered build select b ms := by
  have hstep : ∀ b m, (∃ L, RefinesAt l b L) → b.Accepts m →
      ∃ b', b.on build m = .ok b' ∧ (∃ L, RefinesAt l b' L) ∧
        b'.resting select +
            (leaving select .executions b m + leaving select .cancels b m +
              leaving select .deletes b m + leaving select .replaces b m) =
          b.resting select + joining select b m := by
    rintro b m ⟨L, h⟩ hm
    have hvalid := (h.accepts_iff m).mp hm
    exact ⟨_, h.on hvalid build, ⟨_, h.received hvalid⟩, h.balance select hvalid⟩
  have hbalance := run_balance hstep ⟨L, h⟩ haccepts
  simpa only [accumulate_add, left, entered] using hbalance

theorem Refines.total_eq_resting {b : OrderBook} {L : List Entry} (h : b.Refines L)
    {s : BookSide} {p : PriceTicks} {level : PriceLevel} (hlevel : b.level? s p = some level) :
    level.totalShares = UInt64.ofNat (b.resting (atLevel s p)) := by
  have hsum : ∀ l : List Entry, UInt64.ofNat (l.map Entry.shares).sum =
      (l.map fun e => UInt64.ofNat e.shares).sum := by
    intro l
    induction l with
    | nil => rfl
    | cons e l ih => rw [List.map_cons, List.sum_cons, UInt64.ofNat_add, ih]; rfl
  rw [h.total_eq hlevel, h.resting_eq, volume_atLevel, sharesAt, hsum]

theorem Refines.toNat_total_eq_resting {b : OrderBook} {L : List Entry} (h : b.Refines L)
    (hfew : b.orderCount < 2 ^ 32) {s : BookSide} {p : PriceTicks} {level : PriceLevel}
    (hlevel : b.level? s p = some level) :
    level.totalShares.toNat = b.resting (atLevel s p) := by
  rw [h.orderCount] at hfew
  rw [h.resting_eq, volume_atLevel]
  exact h.totals hfew hlevel

/-- No share is created or lost. After every message the book accepts, for any selection of
orders, the shares resting in its queues and those executed, cancelled, deleted and replaced
away make up the shares inserted; and every level's total is the shares resting there, modulo
2^64, and exactly so with fewer than 2^32 orders on the book. -/
theorem shares_conserved (build : Build) (l : UInt16) (ms : List Message) (hl : l ≠ 0)
    (haccepts : Along (OrderBook.on build) Accepts (located l) ms) :
    OrderBook.setLocate build {} l = .ok (located l) ∧
      ∀ pre, pre <+: ms → ∃ b, run (OrderBook.on build) (located l) pre = .ok b ∧
        (∀ select, b.resting select +
            (left build select .executions (located l) pre +
              left build select .cancels (located l) pre +
              left build select .deletes (located l) pre +
              left build select .replaces (located l) pre) =
          entered build select (located l) pre) ∧
        ∀ s p level, b.level? s p = some level →
          level.totalShares = UInt64.ofNat (b.resting (atLevel s p)) ∧
          (b.orderCount < 2 ^ 32 → level.totalShares.toNat = b.resting (atLevel s p)) := by
  refine ⟨setLocate_fresh build hl, fun pre hpre => ?_⟩
  have hledger := fun select =>
    (refinesAt_located l).ledger build select (along_initial hpre haccepts)
  obtain ⟨b, hb, ⟨L, h⟩, _⟩ := hledger fun _ _ _ => true
  refine ⟨b, hb, fun select => ?_, fun s p level hlevel =>
    ⟨h.total_eq_resting hlevel, fun hfew => h.toNat_total_eq_resting hfew hlevel⟩⟩
  obtain ⟨c, hc, _, heq⟩ := hledger select
  obtain rfl := Except.ok.inj (hb.symm.trans hc)
  have hempty : (located l).resting select = 0 := (refinesAt_located l).resting_eq select
  rwa [hempty, zero_add] at heq

/-- An order executed in part and then replaced. -/
theorem shares_conserved_replace :
    OrderBook.setLocate .debug {} 7 = .ok (located 7) ∧
      ∀ pre, pre <+: [.bid 7 1 100 5000, .executing 7 1 40, .replacing 7 1 2 30 5001] →
        ∃ b, run (OrderBook.on .debug) (located 7) pre = .ok b ∧
          (∀ select, b.resting select +
              (left .debug select .executions (located 7) pre +
                left .debug select .cancels (located 7) pre +
                left .debug select .deletes (located 7) pre +
                left .debug select .replaces (located 7) pre) =
            entered .debug select (located 7) pre) ∧
          ∀ s p level, b.level? s p = some level →
            level.totalShares = UInt64.ofNat (b.resting (atLevel s p)) ∧
            (b.orderCount < 2 ^ 32 → level.totalShares.toNat = b.resting (atLevel s p)) :=
  shares_conserved .debug 7 _ (by decide) (by decide)

end OrderBook

end Itch
