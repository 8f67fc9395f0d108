import ItchOrderbook.BookRep

/-!
# A plain FIFO list of orders

What the book is for: one list of resting orders in insertion order. Every
action has a plain meaning on it, and the book simulates that meaning. Its
queues are the list, read one price at a time.
-/

namespace Itch

open NodeQueue KeyedList CheckedRuns

structure Entry where
  reference : UInt64
  side : BookSide
  price : PriceTicks
  shares : ℕ
deriving DecidableEq, Repr

/-- Take shares off an order; nothing is left of one that reaches 0. -/
def Entry.less (n : ℕ) (e : Entry) : Option Entry :=
  if e.shares - n = 0 then none else some { e with shares := e.shares - n }

/-- The plain meaning of an action. -/
def fifo (L : List Entry) : BookAction → List Entry
  | .add side reference price shares => L ++ [⟨reference, side, price, shares.toNat⟩]
  | .execute reference shares => update Entry.reference reference (Entry.less shares.toNat) L
  | .cancel reference shares => update Entry.reference reference (Entry.less shares.toNat) L
  | .delete reference => update Entry.reference reference (fun _ => none) L
  | .replace original new price shares =>
    match L.find? fun e => e.reference = original with
    | none => L
    | some e => update Entry.reference original (fun _ => none) L ++
        [⟨new, e.side, price, shares.toNat⟩]
  | .trade => L

/-- Messages for other locates leave the list alone. -/
def fifoStep (l : UInt16) (L : List Entry) (m : Message) : List Entry :=
  match m.actionAt? l with
  | none => L
  | some a => fifo L a

/-- Inserted references are not resting, and reductions fit the order they name. -/
def Admissible (L : List Entry) : BookAction → Prop
  | .add _ reference _ _ => Absent Entry.reference reference L
  | .execute reference shares => ∀ e ∈ L, e.reference = reference → shares.toNat ≤ e.shares
  | .cancel reference shares => ∀ e ∈ L, e.reference = reference → shares.toNat ≤ e.shares
  | .replace original new _ _ =>
    Absent Entry.reference original L ∨ new = original ∨ Absent Entry.reference new L
  | .delete _ => True
  | .trade => True

instance decidableAdmissible (L : List Entry) : ∀ a, Decidable (Admissible L a)
  | .add _ reference _ _ => inferInstanceAs (Decidable (Absent Entry.reference reference L))
  | .execute reference shares =>
    inferInstanceAs (Decidable (∀ e ∈ L, e.reference = reference → shares.toNat ≤ e.shares))
  | .cancel reference shares =>
    inferInstanceAs (Decidable (∀ e ∈ L, e.reference = reference → shares.toNat ≤ e.shares))
  | .replace original new _ _ =>
    inferInstanceAs (Decidable (Absent Entry.reference original L ∨ new = original ∨
      Absent Entry.reference new L))
  | .delete _ => inferInstanceAs (Decidable True)
  | .trade => inferInstanceAs (Decidable True)

def Valid (l : UInt16) (L : List Entry) (m : Message) : Prop :=
  ∀ a ∈ m.actionAt? l, Admissible L a

instance decidableValid (l : UInt16) (L : List Entry) (m : Message) : Decidable (Valid l L m) :=
  inferInstanceAs (Decidable (∀ a ∈ m.actionAt? l, Admissible L a))

/-- The entries at one side and price, oldest first. -/
def entriesAt (L : List Entry) (s : BookSide) (p : PriceTicks) : List Entry :=
  L.filter fun e => e.side = s ∧ e.price = p

theorem mem_entriesAt {L : List Entry} {s : BookSide} {p : PriceTicks} {e : Entry} :
    e ∈ entriesAt L s p ↔ e ∈ L ∧ e.side = s ∧ e.price = p := by
  simp [entriesAt]

theorem entriesAt_append (L L' : List Entry) (s : BookSide) (p : PriceTicks) :
    entriesAt (L ++ L') s p = entriesAt L s p ++ entriesAt L' s p :=
  List.filter_append _ _

/-- A rewriting of entries that moves none of them. -/
structure InPlace (g : Entry → Option Entry) : Prop where
  reference : Keeps Entry.reference g
  side : Keeps Entry.side g
  price : Keeps Entry.price g

theorem inPlace_drop : InPlace fun _ => none := ⟨keeps_none _, keeps_none _, keeps_none _⟩

theorem inPlace_less (n : ℕ) : InPlace (Entry.less n) := by
  refine ⟨?_, ?_, ?_⟩ <;>
  · intro e x hx
    rw [Entry.less] at hx
    split at hx
    · cases hx
    · cases hx
      rfl

theorem entriesAt_update {g : Entry → Option Entry} (hg : InPlace g) (r : UInt64)
    (L : List Entry) (s : BookSide) (p : PriceTicks) :
    entriesAt (update Entry.reference r g L) s p =
      update Entry.reference r g (entriesAt L s p) := by
  refine filter_update _ ?_ L
  intro e x hx
  simp only [hg.side e x hx, hg.price e x hx]

/-- A queued order as an entry of the list. -/
def RestingOrder.entry (s : BookSide) (p : PriceTicks) (o : RestingOrder) : Entry :=
  ⟨o.orderReference, s, p, o.shares.toNat⟩

/-- What a reduction leaves of a queued order. -/
def RestingOrder.less (removed : UInt32) (removeAll : Bool) (o : RestingOrder) :
    Option RestingOrder :=
  if removeAll || o.shares - removed == 0 then none
  else some { o with shares := o.shares - removed }

namespace OrderBook

/-- The queue of a price, empty where there is no level. -/
def queueAt (b : OrderBook) (s : BookSide) (p : PriceTicks) : List RestingOrder :=
  ((b.level? s p).map fun level => payloads level.orders).getD []

section QueueAt

variable {b : OrderBook} {s : BookSide} {p : PriceTicks}

theorem queueAt_of_level {level : PriceLevel} (h : b.level? s p = some level) :
    b.queueAt s p = payloads level.orders := by
  simp [queueAt, h]

theorem mem_queueAt {o : RestingOrder} : o ∈ b.queueAt s p ↔ ∃ n, b.Rests s p n o := by
  cases hl : b.level? s p with
  | none => simp [queueAt, Rests, hl]
  | some level => simp [queueAt, Rests, hl, payloads]

theorem queueAt_insert (side : Side) (r : UInt64) (q : PriceTicks) (n : UInt32) :
    (b.insert side r q n).queueAt s p =
      b.queueAt s p ++ if side.book = s ∧ q = p then [⟨r, n⟩] else [] := by
  rw [queueAt, level?_insert]
  by_cases hplace : side.book = s ∧ q = p
  · obtain ⟨rfl, rfl⟩ := hplace
    cases hl : b.level? side.book q with
    | none => simp [queueAt, hl, pushed, payloads, pushBack]
    | some level => simp [queueAt, hl, pushed]
  · simp [hplace, queueAt]

variable {r : UInt64} {f : Found} {removed : UInt32} {removeAll : Bool} {t : BookSide}

theorem payloads_unlinked (f : Found) (removed : UInt32) :
    ((unlinked f removed).map fun level => payloads level.orders).getD [] =
      payloads (unlink f.level.orders f.location.position) := by
  rw [unlinked]
  split
  · rename_i hempty
    rw [List.isEmpty_iff.mp hempty]
    rfl
  · rfl

/-- In an accounted book a reduction is an update of the queues at the order's reference. -/
theorem Accounted.queueAt_afterReduction (hacc : b.Accounted) (h : b.Linked)
    (hf : b.FoundAt r t f) : (b.afterReduction r f removed removeAll).queueAt s p =
      update RestingOrder.orderReference r (RestingOrder.less removed removeAll)
        (b.queueAt s p) := by
  rw [queueAt, level?_afterReduction, hf.side, book_tag]
  by_cases hplace : t = s ∧ f.location.price = p
  · obtain ⟨rfl, rfl⟩ := hplace
    have hkey : ∀ e ∈ f.level.orders, e.1 = f.location.position ↔ e.2.orderReference = r := by
      rintro ⟨n, o⟩ hmem
      have hloc := hacc.indexed ⟨f.level, hf.level, hmem⟩
      constructor
      · rintro rfl
        rw [h.rests_unique ⟨f.level, hf.level, hmem⟩ hf.rests, hf.reference]
      · rintro rfl
        rw [hf.index] at hloc
        rw [Option.some.inj hloc]
    have honly : ∀ o ∈ payloads f.level.orders, o.orderReference = r → o = f.order := by
      intro o ho href
      obtain ⟨⟨n, _⟩, hmem, rfl⟩ := List.mem_map.mp ho
      exact (hacc.reference_injective h ⟨f.level, hf.level, hmem⟩ hf.rests
        (href.trans hf.reference.symm)).2.2.2
    rw [queueAt_of_level hf.level, if_pos ⟨rfl, rfl⟩]
    by_cases hgone : (removeAll || f.order.shares - removed == 0) = true
    · rw [if_pos hgone, payloads_unlinked, payloads_unlink hkey]
      apply update_congr
      intro o ho href
      rw [honly o ho href, RestingOrder.less, if_pos hgone]
    · rw [if_neg hgone, reduced, Option.map_some, Option.getD_some, payloads_assign hkey]
      apply update_congr
      intro o ho href
      rw [honly o ho href, RestingOrder.less, if_neg hgone]
  · rw [if_neg hplace]
    refine (update_of_absent ?_).symm
    intro o ho href
    obtain ⟨n, hrest⟩ := mem_queueAt.mp ho
    obtain ⟨hs, hp, _⟩ := hacc.reference_injective h hf.rests hrest (hf.reference.trans href.symm)
    exact hplace ⟨hs, hp⟩

end QueueAt

/-- The book holds exactly the orders of the list, queue by queue. -/
structure Refines (b : OrderBook) (L : List Entry) : Prop where
  linked : b.Linked
  accounted : b.Accounted
  queue : ∀ s p, (b.queueAt s p).map (RestingOrder.entry s p) = entriesAt L s p
  distinct : (L.map Entry.reference).Nodup

theorem refines_fresh : Refines {} [] where
  linked := linked_fresh
  accounted := accounted_fresh
  queue := by
    intro s p
    cases s <;> simp [queueAt, level?, entriesAt]
  distinct := List.nodup_nil

namespace Refines

variable {b : OrderBook} {L : List Entry}

theorem of_containers (h : b.Refines L) {b' : OrderBook}
    (hlevel : ∀ s p, b'.level? s p = b.level? s p) (horders : b'.orders = b.orders)
    (hnext : b'.nextNode = b.nextNode) : b'.Refines L where
  linked := h.linked.of_containers hlevel horders hnext
  accounted := h.accounted.of_containers hlevel horders
  queue := by
    intro s p
    rw [queueAt, hlevel]
    exact h.queue s p
  distinct := h.distinct

theorem tallied (h : b.Refines L) (t : Tally) : (b.tallied t).Refines L :=
  h.of_containers (fun s p => tallied_level? b t s p) rfl rfl

theorem entry_of_rests (h : b.Refines L) {s : BookSide} {p : PriceTicks} {n : NodeId}
    {o : RestingOrder} (hrest : b.Rests s p n o) : o.entry s p ∈ L := by
  have hmem := List.mem_map_of_mem (f := RestingOrder.entry s p) (mem_queueAt.mpr ⟨n, hrest⟩)
  rw [h.queue] at hmem
  exact (mem_entriesAt.mp hmem).1

theorem rests_of_entry (h : b.Refines L) {e : Entry} (he : e ∈ L) :
    ∃ n o, b.Rests e.side e.price n o ∧ o.entry e.side e.price = e := by
  have hmem : e ∈ entriesAt L e.side e.price := mem_entriesAt.mpr ⟨he, rfl, rfl⟩
  rw [← h.queue] at hmem
  obtain ⟨o, ho, heq⟩ := List.mem_map.mp hmem
  obtain ⟨n, hrest⟩ := mem_queueAt.mp ho
  exact ⟨n, o, hrest, heq⟩

/-- The index knows exactly the references of the list. -/
theorem orders_eq_none (h : b.Refines L) {r : UInt64} :
    b.orders[r]? = none ↔ Absent Entry.reference r L := by
  constructor
  · rintro hnone e he rfl
    obtain ⟨n, o, hrest, heq⟩ := h.rests_of_entry he
    have hloc := h.accounted.indexed hrest
    rw [← heq] at hnone
    rw [show o.orderReference = (o.entry e.side e.price).reference from rfl, hnone] at hloc
    cases hloc
  · intro habsent
    cases hloc : b.orders[r]? with
    | none => rfl
    | some location =>
      obtain ⟨s, f, hf, _⟩ := h.linked.foundAt_of_index hloc
      exact absurd hf.reference (habsent _ (h.entry_of_rests hf.rests))

theorem find?_eq_none (h : b.Refines L) {r : UInt64} :
    b.find? r = none ↔ Absent Entry.reference r L :=
  h.linked.followable.find?_eq_none.trans h.orders_eq_none

/-- The one entry of a reference that the index follows to a node. -/
theorem entry_of_found (h : b.Refines L) {r : UInt64} {s : BookSide} {f : Found}
    (hf : b.FoundAt r s f) {e : Entry} (he : e ∈ L) (href : e.reference = r) :
    e = f.order.entry s f.location.price :=
  List.inj_on_of_nodup_map h.distinct he (h.entry_of_rests hf.rests)
    (href.trans hf.reference.symm)

theorem find?_found (h : b.Refines L) {r : UInt64} {s : BookSide} {f : Found}
    (hf : b.FoundAt r s f) :
    L.find? (fun e => e.reference = r) = some (f.order.entry s f.location.price) := by
  rw [← hf.reference]
  exact find?_key h.distinct (h.entry_of_rests hf.rests)

theorem find?_absent (h : b.Refines L) {r : UInt64} (hnone : b.orders[r]? = none) :
    L.find? (fun e => e.reference = r) = none := by
  simpa [Absent] using h.orders_eq_none.mp hnone

theorem insert (h : b.Refines L) {r : UInt64} (hfree : Absent Entry.reference r L) (side : Side)
    (p : PriceTicks) (n : UInt32) :
    (b.insert side r p n).Refines (L ++ [⟨r, side.book, p, n.toNat⟩]) where
  linked := h.linked.insert side r p n
  accounted := (h.accounted.insert_iff h.linked side r p n).mpr (h.orders_eq_none.mpr hfree)
  queue := by
    intro t q
    rw [queueAt_insert, List.map_append, h.queue, entriesAt_append]
    congr 1
    by_cases hplace : side.book = t ∧ p = q
    · obtain ⟨rfl, rfl⟩ := hplace
      simp [entriesAt, RestingOrder.entry]
    · simp [entriesAt, hplace]
  distinct := nodup_append h.distinct hfree

/-- A reduction of the book is an update of the list, when both leave the same of the order. -/
theorem afterReduction (h : b.Refines L) {r : UInt64} {s : BookSide} {f : Found}
    {removed : UInt32} {removeAll : Bool} (hf : b.FoundAt r s f)
    (hfits : removed ≤ f.order.shares) (hall : removeAll = true → removed = f.order.shares)
    {g : Entry → Option Entry} (hg : InPlace g)
    (hless : ∀ t q, g (f.order.entry t q) =
      (f.order.less removed removeAll).map (RestingOrder.entry t q)) :
    (b.afterReduction r f removed removeAll).Refines (update Entry.reference r g L) where
  linked := h.linked.afterReduction hf
  accounted := h.accounted.afterReduction h.linked hf hfits hall
  queue := by
    intro t q
    rw [h.accounted.queueAt_afterReduction h.linked hf, entriesAt_update hg, ← h.queue]
    have hkey : ∀ o ∈ b.queueAt t q, (o.entry t q).reference = o.orderReference :=
      fun _ _ => rfl
    refine (update_map hkey ?_).symm
    intro o ho href
    obtain ⟨n, hrest⟩ := mem_queueAt.mp ho
    obtain rfl := (h.accounted.reference_injective h.linked hrest hf.rests
      (href.trans hf.reference.symm)).2.2.2
    exact hless t q
  distinct := nodup_update hg.reference h.distinct

theorem drop (h : b.Refines L) (r : UInt64) :
    (b.takeOff r 0 true).Refines (update Entry.reference r (fun _ => none) L) := by
  rw [takeOff]
  cases hfind : b.find? r with
  | none =>
    rw [update_of_absent (h.find?_eq_none.mp hfind)]
    exact h
  | some f =>
    obtain ⟨s, hf⟩ := h.linked.foundAt hfind
    exact h.afterReduction hf (UInt32.le_refl _) (fun _ => rfl) inPlace_drop fun _ _ => rfl

/-- Machine subtraction leaves what plain subtraction leaves, where the reduction fits. -/
theorem less_entry {o : RestingOrder} {n : UInt32} (hfits : n ≤ o.shares) (s : BookSide)
    (p : PriceTicks) :
    Entry.less n.toNat (o.entry s p) = (o.less n false).map (RestingOrder.entry s p) := by
  have hsub : (o.shares - n).toNat = o.shares.toNat - n.toNat :=
    UInt32.toNat_sub_of_le o.shares n hfits
  by_cases hzero : o.shares - n = 0
  · have hnat : o.shares.toNat - n.toNat = 0 := by
      rw [← hsub, hzero]
      rfl
    simp [Entry.less, RestingOrder.less, RestingOrder.entry, hzero, hnat]
  · have hnat : o.shares.toNat - n.toNat ≠ 0 := by
      rw [← hsub]
      exact fun hz => hzero (UInt32.toNat_inj.mp hz)
    simp [Entry.less, RestingOrder.less, RestingOrder.entry, hzero, hnat, hsub]

/-- The bound on a reduction in the list is the bound the code asserts. -/
theorem fits_iff (h : b.Refines L) {r : UInt64} {n : UInt32} :
    (∀ f ∈ b.find? r, n ≤ f.order.shares) ↔
      ∀ e ∈ L, e.reference = r → n.toNat ≤ e.shares := by
  constructor
  · intro hfits e he href
    cases hfind : b.find? r with
    | none => exact absurd href (h.find?_eq_none.mp hfind e he)
    | some f =>
      obtain ⟨s, hf⟩ := h.linked.foundAt hfind
      rw [h.entry_of_found hf he href]
      exact UInt32.le_iff_toNat_le.mp (hfits f hfind)
  · intro hfits f hfind
    obtain ⟨s, hf⟩ := h.linked.foundAt hfind
    exact UInt32.le_iff_toNat_le.mpr (hfits _ (h.entry_of_rests hf.rests) hf.reference)

theorem reduce (h : b.Refines L) {r : UInt64} {n : UInt32}
    (hfits : ∀ e ∈ L, e.reference = r → n.toNat ≤ e.shares) :
    (b.takeOff r n false).Refines (update Entry.reference r (Entry.less n.toNat) L) := by
  rw [takeOff]
  cases hfind : b.find? r with
  | none =>
    rw [update_of_absent (h.find?_eq_none.mp hfind)]
    exact h
  | some f =>
    obtain ⟨s, hf⟩ := h.linked.foundAt hfind
    have hbound : n ≤ f.order.shares := h.fits_iff.mpr hfits f hfind
    exact h.afterReduction hf hbound (fun hall => absurd hall Bool.false_ne_true)
      (inPlace_less _) (less_entry hbound)

/-- An admissible action has its plain meaning on the list. -/
theorem effect (h : b.Refines L) {a : BookAction} (ha : Admissible L a) :
    (b.effect a).Refines (fifo L a) := by
  cases a with
  | add side reference price shares =>
    have hinsert := h.insert ha side.tag price shares
    rw [book_tag] at hinsert
    exact hinsert.tallied _
  | execute reference shares => exact (h.reduce ha).tallied _
  | cancel reference shares => exact (h.reduce ha).tallied _
  | delete reference => exact (h.drop reference).tallied _
  | replace original new price shares =>
    rw [OrderBook.effect, fifo]
    cases hfind : b.find? original with
    | none =>
      rw [h.find?_absent (h.linked.followable.find?_eq_none.mp hfind)]
      exact h
    | some f =>
      obtain ⟨s, hf⟩ := h.linked.foundAt hfind
      have hfree : Absent Entry.reference new
          (update Entry.reference original (fun _ => none) L) := by
        rcases ha with habsent | rfl | habsent
        · exact absurd hf.reference (habsent _ (h.entry_of_rests hf.rests))
        · exact absent_drop L
        · exact absent_update (keeps_none _) habsent
      have hinsert := (h.drop original).insert hfree f.location.side price shares
      rw [h.find?_found hf]
      rw [hf.side, book_tag] at hinsert
      simp only [hf.side]
      exact hinsert.tallied _
  | trade => exact h.tallied _

theorem within_of_admissible (h : b.Refines L) {a : BookAction} (ha : Admissible L a) :
    b.Within a := by
  cases a with
  | execute reference shares => exact h.fits_iff.mpr ha
  | cancel reference shares => exact h.fits_iff.mpr ha
  | add side reference price shares => trivial
  | delete reference => trivial
  | replace original new price shares => trivial
  | trade => trivial

end Refines

/-- The relation the run keeps: the list of the book's own locate. -/
structure RefinesAt (l : UInt16) (b : OrderBook) (L : List Entry) : Prop extends b.Refines L where
  locate : b.locate = l

theorem refinesAt_located (l : UInt16) : RefinesAt l (located l) [] :=
  ⟨refines_fresh.of_containers (fun s p => by cases s <;> rfl) rfl rfl, rfl⟩

/-- A valid message takes its full effect, in either build. -/
theorem RefinesAt.on {l : UInt16} {b : OrderBook} {L : List Entry} (h : RefinesAt l b L)
    {m : Message} (hm : Valid l L m) (build : Build) : b.on build m = .ok (b.received m) := by
  refine h.linked.on fun _ a ha => ?_
  rw [h.locate] at ha
  exact h.toRefines.within_of_admissible (hm a ha)

theorem RefinesAt.received {l : UInt16} {b : OrderBook} {L : List Entry} (h : RefinesAt l b L)
    {m : Message} (hm : Valid l L m) : RefinesAt l (b.received m) (fifoStep l L m) := by
  refine ⟨?_, (on_locate (h.on hm .debug)).trans h.locate⟩
  rw [OrderBook.received, fifoStep, h.locate]
  cases hact : m.actionAt? l with
  | none => exact h.toRefines
  | some a => exact h.toRefines.effect (hm a hact)

/-- One message: the book steps, in either build, and the list steps with it. -/
theorem RefinesAt.step {l : UInt16} {b : OrderBook} {L : List Entry} (h : RefinesAt l b L)
    {m : Message} (hm : Valid l L m) (build : Build) :
    ∃ b', b.on build m = .ok b' ∧ RefinesAt l b' (fifoStep l L m) :=
  ⟨b.received m, h.on hm build, h.received hm⟩

end OrderBook

end Itch
