import ItchOrderbook.RepCheck
import Mathlib.Tactic.Abel

/-!
# The representation invariant along runs

On a linked book the check decides that totals are right and that no order is
queued behind the back of the index. An insertion of a resting reference is
the one thing that breaks it.
-/

namespace Itch

open NodeQueue CheckedRuns

namespace OrderBook

/-- Totals are right modulo 2^64, and every queued order is the one its reference leads to. -/
structure Accounted (b : OrderBook) : Prop where
  totals : b.TotalsHold
  indexed : b.Indexed

section Counting

variable {b : OrderBook}

/-- In an accounted book an order is known by its reference. -/
theorem Accounted.reference_injective (hacc : b.Accounted) (h : b.Linked) {s t : BookSide}
    {p q : PriceTicks} {n k : NodeId} {o x : RestingOrder} (ho : b.Rests s p n o)
    (hx : b.Rests t q k x) (href : o.orderReference = x.orderReference) :
    s = t ∧ p = q ∧ n = k ∧ o = x :=
  h.reference_injective hacc.indexed ho hx href

/-- On a linked book the check passes exactly when nothing is unaccounted for. -/
theorem Linked.checkRep_iff (h : b.Linked) : b.checkRep = true ↔ b.Accounted :=
  ⟨fun hcheck => ⟨totalsHold_of_checkRep hcheck, indexed_of_checkRep hcheck⟩,
    fun hacc => h.checkRep_of h.nonempty hacc.totals h.position hacc.indexed⟩

end Counting

section Steps

variable {b : OrderBook}

theorem accounted_fresh : Accounted {} where
  totals := by
    intro s p level hlevel
    cases s <;> simp [level?] at hlevel
  indexed := by
    rintro s p n o ⟨level, hlevel, _⟩
    cases s <;> simp [level?] at hlevel

theorem Accounted.of_containers (hacc : b.Accounted) {b' : OrderBook}
    (hlevel : ∀ s p, b'.level? s p = b.level? s p) (horders : b'.orders = b.orders) :
    b'.Accounted where
  totals := by
    intro s p level hl
    exact hacc.totals ((hlevel s p).symm.trans hl)
  indexed := by
    intro s p n o hrest
    rw [rests_congr hlevel] at hrest
    rw [horders]
    exact hacc.indexed hrest

@[simp] theorem accounted_tallied {t : Tally} : (b.tallied t).Accounted ↔ b.Accounted :=
  ⟨fun h => h.of_containers (fun s p => (tallied_level? b t s p).symm) rfl,
    fun h => h.of_containers (fun s p => tallied_level? b t s p) rfl⟩

/-- An insertion is accounted for exactly when its reference was free: `emplace` leaves an
older entry in place, and the new order is then queued behind the back of the index. -/
theorem Accounted.insert_iff (hacc : b.Accounted) (h : b.Linked) (side : Side) (r : UInt64)
    (p : PriceTicks) (shares : UInt32) :
    (b.insert side r p shares).Accounted ↔ b.orders[r]? = none := by
  constructor
  · intro hnew
    cases hold : b.orders[r]? with
    | none => rfl
    | some location =>
      have hrest : (b.insert side r p shares).Rests side.book p b.nextNode ⟨r, shares⟩ :=
        (rests_insert side r p shares).mpr (Or.inr ⟨rfl, rfl, rfl, rfl⟩)
      have hloc := hnew.indexed hrest
      have hmem : r ∈ b.orders := by
        rw [Std.ExtTreeMap.mem_iff_isSome_getElem?, hold]
        rfl
      rw [orders_insert, Std.ExtTreeMap.getElem?_insertIfNew, if_neg (by simp [hmem]), hold] at hloc
      obtain ⟨s, o, _, hlive, _⟩ := h.position hold
      have hfresh := h.fresh hlive
      rw [Option.some.inj hloc] at hfresh
      exact absurd hfresh (Nat.lt_irrefl _)
  · intro hfree
    have hmem : r ∉ b.orders := by
      rw [Std.ExtTreeMap.mem_iff_isSome_getElem?, hfree]
      simp
    refine ⟨?_, ?_⟩
    · intro t q level hlevel
      rw [level?_insert] at hlevel
      split at hlevel
      · obtain rfl := Option.some.inj hlevel
        rw [pushed, total_pushBack]
        cases hold : b.level? side.book p with
        | none => rfl
        | some level =>
          rw [Option.getD_some, hacc.totals hold]
          rfl
      · exact hacc.totals hlevel
    · intro t q n o hrest
      rw [orders_insert, Std.ExtTreeMap.getElem?_insertIfNew]
      rcases (rests_insert side r p shares).mp hrest with hold | ⟨rfl, rfl, rfl, rfl⟩
      · have hloc := hacc.indexed hold
        have hne : r ≠ o.orderReference := by
          rintro rfl
          rw [hfree] at hloc
          cases hloc
        rw [if_neg (by simp [hne]), hloc]
      · rw [if_pos (by simpa using hmem)]

variable {r : UInt64} {s : BookSide} {f : Found} {removed : UInt32} {removeAll : Bool}

theorem toUInt64_sub_add {a c : UInt32} (h : c ≤ a) :
    (a - c).toUInt64 + c.toUInt64 = a.toUInt64 := by
  have ha := a.toNat_lt
  have hle : c.toNat ≤ a.toNat := UInt32.le_iff_toNat_le.mp h
  apply UInt64.toNat_inj.mp
  simp only [UInt64.toNat_add, UInt32.toNat_toUInt64, UInt32.toNat_sub_of_le a c h]
  omega

theorem sub_eq_zero_imp {a c : UInt32} (h : a - c = 0) : c = a := (sub_eq_zero.mp h).symm

/-- A reduction that fits the order keeps the book accounted for. -/
theorem Accounted.afterReduction (hacc : b.Accounted) (h : b.Linked) (hf : b.FoundAt r s f)
    (hfits : removed ≤ f.order.shares) (hall : removeAll = true → removed = f.order.shares) :
    (b.afterReduction r f removed removeAll).Accounted where
  totals := by
    intro t q level hlevel
    have htotal := hacc.totals hf.level
    have hids := h.distinct hf.level
    rw [level?_afterReduction] at hlevel
    split at hlevel
    · split at hlevel
      · rename_i hgone
        have hremoved : removed = f.order.shares := by
          rcases gone_iff.mp hgone with hb | hz
          · exact hall hb
          · exact sub_eq_zero_imp hz
        rw [unlinked] at hlevel
        split at hlevel
        · cases hlevel
        · obtain rfl := Option.some.inj hlevel
          have hsum := total_unlink RestingOrder.counted hids hf.node
          simp only [htotal, ← hsum, hremoved]
          exact add_sub_cancel_right _ _
      · obtain rfl := Option.some.inj hlevel
        have hsum := total_assign RestingOrder.counted hids hf.node
          { f.order with shares := f.order.shares - removed }
        have hcut := toUInt64_sub_add hfits
        simp only [reduced, htotal, RestingOrder.counted] at hsum ⊢
        rw [← hcut, add_comm (f.order.shares - removed).toUInt64, ← add_assoc] at hsum
        exact sub_eq_of_eq_add (add_right_cancel hsum).symm
    · exact hacc.totals hlevel
  indexed := by
    intro t q n o hrest
    rw [orders_afterReduction]
    by_cases hgone : Gone f removed removeAll
    · obtain ⟨hne, hold⟩ := (h.rests_removed hf hgone).mp hrest
      have hloc := hacc.indexed hold
      have href : r ≠ o.orderReference := by
        rintro rfl
        rw [hf.index] at hloc
        exact hne (by rw [Option.some.inj hloc])
      rw [if_pos (gone_iff.mpr hgone), Std.ExtTreeMap.getElem?_erase, if_neg (by simpa using href),
        hloc]
    · rw [if_neg (mt gone_iff.mp hgone)]
      rcases (h.rests_reduced hf hgone).mp hrest with ⟨rfl, rfl, rfl, rfl⟩ | ⟨_, hold⟩
      · have hloc := hacc.indexed hf.rests
        exact hloc
      · exact hacc.indexed hold

theorem Accounted.takeOff (hacc : b.Accounted) (h : b.Linked) {n : UInt32}
    (hfits : removeAll = false → ∀ f, b.find? r = some f → n ≤ f.order.shares) :
    (b.takeOff r n removeAll).Accounted := by
  rw [OrderBook.takeOff]
  cases hfind : b.find? r with
  | none => exact hacc
  | some f =>
    obtain ⟨s, hf⟩ := h.foundAt hfind
    cases hall : removeAll with
    | true => exact hacc.afterReduction h hf (UInt32.le_refl _) fun _ => rfl
    | false =>
      exact hacc.afterReduction h hf (hfits hall f hfind) fun hb => absurd hb Bool.false_ne_true

theorem orders_takeOff_all (hf : b.find? r = some f) (n : UInt32) :
    (b.takeOff r n true).orders = b.orders.erase r := by
  simp only [OrderBook.takeOff, hf, orders_afterReduction, Bool.true_or, if_true]

/-- The reference an action inserts is free, or freed by the action itself. -/
def InsertsFresh (b : OrderBook) : BookAction → Prop
  | .add _ reference _ _ => b.orders[reference]? = none
  | .replace original new _ _ =>
    b.orders[original]? = none ∨ new = original ∨ b.orders[new]? = none
  | _ => True

instance decidableInsertsFresh (b : OrderBook) : ∀ a, Decidable (b.InsertsFresh a)
  | .add _ reference _ _ => inferInstanceAs (Decidable (b.orders[reference]? = none))
  | .replace original new _ _ => inferInstanceAs (Decidable
      (b.orders[original]? = none ∨ new = original ∨ b.orders[new]? = none))
  | .execute _ _ => inferInstanceAs (Decidable True)
  | .cancel _ _ => inferInstanceAs (Decidable True)
  | .delete _ => inferInstanceAs (Decidable True)
  | .trade => inferInstanceAs (Decidable True)

theorem Accounted.effect_iff (hacc : b.Accounted) (h : b.Linked) {a : BookAction}
    (hwithin : b.Within a) : (b.effect a).Accounted ↔ b.InsertsFresh a := by
  cases a with
  | add side reference price shares =>
    rw [OrderBook.effect, accounted_tallied]
    exact hacc.insert_iff h side.tag reference price shares
  | execute reference shares =>
    rw [OrderBook.effect, accounted_tallied]
    exact iff_of_true (hacc.takeOff h fun _ => hwithin) trivial
  | cancel reference shares =>
    rw [OrderBook.effect, accounted_tallied]
    exact iff_of_true (hacc.takeOff h fun _ => hwithin) trivial
  | delete reference =>
    rw [OrderBook.effect, accounted_tallied]
    exact iff_of_true (hacc.takeOff h fun hall => absurd hall.symm Bool.false_ne_true) trivial
  | replace original new price shares =>
    rw [OrderBook.effect, InsertsFresh]
    cases hfind : b.find? original with
    | none => exact iff_of_true hacc (Or.inl (h.followable.find?_eq_none.mp hfind))
    | some f =>
      have hindex : b.orders[original]? ≠ none := by
        rw [(find?_eq_some.mp hfind).1]
        exact Option.some_ne_none _
      have hacc' : (b.takeOff original 0 true).Accounted :=
        hacc.takeOff h fun hall => absurd hall.symm Bool.false_ne_true
      simp only [accounted_tallied]
      rw [hacc'.insert_iff (h.takeOff original 0 true), orders_takeOff_all hfind,
        Std.ExtTreeMap.getElem?_erase]
      by_cases hsame : original = new
      · subst hsame
        simp
      · have hne : new ≠ original := fun heq => hsame heq.symm
        simp [hsame, hne, hindex]
  | trade =>
    rw [OrderBook.effect, accounted_tallied]
    exact iff_of_true hacc trivial

end Steps

/-- No insertion by the message meets a resting order of the same reference. -/
def ReferencesFresh (b : OrderBook) (m : Message) : Prop :=
  ∀ a ∈ m.actionAt? b.locate, b.InsertsFresh a

instance decidableReferencesFresh (b : OrderBook) (m : Message) :
    Decidable (b.ReferencesFresh m) :=
  inferInstanceAs (Decidable (∀ a ∈ m.actionAt? b.locate, b.InsertsFresh a))

/-- The message reduces within bounds and inserts no resting reference. -/
def Accepts (b : OrderBook) (m : Message) : Prop := b.Fits m ∧ b.ReferencesFresh m

instance decidableAccepts (b : OrderBook) (m : Message) : Decidable (b.Accepts m) :=
  inferInstanceAs (Decidable (b.Fits m ∧ b.ReferencesFresh m))

theorem Accounted.received_iff {b : OrderBook} (hacc : b.Accounted) (h : b.Linked) {m : Message}
    (hfits : b.Fits m) : (b.received m).Accounted ↔ b.ReferencesFresh m := by
  rw [received, ReferencesFresh]
  cases hact : m.actionAt? b.locate with
  | none => exact iff_of_true hacc fun a ha => absurd ha (Option.not_mem_none a)
  | some a =>
    rw [hacc.effect_iff h (hfits a hact)]
    simp

/-- What `check_rep` is there for. -/
structure RepHolds (b : OrderBook) : Prop where
  checked : b.checkRep = true
  reachable : b.Indexed

theorem Linked.repHolds_iff {b : OrderBook} (h : b.Linked) : b.RepHolds ↔ b.Accounted :=
  ⟨fun hrep => h.checkRep_iff.mp hrep.checked,
    fun hacc => ⟨h.checkRep_iff.mpr hacc, hacc.indexed⟩⟩

/-- Along a run whose reductions fit, the representation invariant survives exactly as long
as no inserted reference is resting. -/
theorem rep_survives_iff (build : Build) (l : UInt16) (ms : List Message) (hl : l ≠ 0)
    (hfits : Along (OrderBook.on build) Fits (located l) ms) :
    OrderBook.setLocate build {} l = .ok (located l) ∧
      (Throughout (OrderBook.on build) RepHolds (located l) ms ↔
        Along (OrderBook.on build) ReferencesFresh (located l) ms) := by
  refine ⟨setLocate_fresh build hl, throughout_iff_along ?_ (linked_located l) ?_ hfits⟩
  · intro b m hlinked hrep hm
    refine ⟨_, hlinked.on fun _ => hm, hlinked.received m, ?_⟩
    rw [(hlinked.received m).repHolds_iff]
    exact (hlinked.repHolds_iff.mp hrep).received_iff hlinked hm
  · rw [(linked_located l).repHolds_iff]
    exact accounted_fresh.of_containers (fun s p => by cases s <;> rfl) rfl

theorem rep_survives_two_bids :
    OrderBook.setLocate .debug {} 7 = .ok (located 7) ∧
      (Throughout (OrderBook.on .debug) RepHolds (located 7)
          [.bid 7 1 100 5000, .bid 7 2 50 5000] ↔
        Along (OrderBook.on .debug) ReferencesFresh (located 7)
          [.bid 7 1 100 5000, .bid 7 2 50 5000]) :=
  rep_survives_iff .debug 7 _ (by decide) (by decide)

/-- A second Add of a resting reference leaves the first order's entry in the index. -/
theorem rep_fails_repeated_reference :
    Along (OrderBook.on .relWithDebInfo) Fits (located 7)
        [.bid 7 1 100 5000, .bid 7 1 50 6000] ∧
      ¬ Throughout (OrderBook.on .relWithDebInfo) RepHolds (located 7)
        [.bid 7 1 100 5000, .bid 7 1 50 6000] := by
  refine ⟨by decide, fun hrep => ?_⟩
  obtain ⟨b, hb, hrep⟩ := hrep _ List.prefix_rfl
  have hchecked := congrArg (Except.map checkRep) hb
  rw [Except.map, hrep.checked] at hchecked
  revert hchecked
  decide

end OrderBook

end Itch
