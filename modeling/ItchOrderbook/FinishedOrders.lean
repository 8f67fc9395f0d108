import ItchOrderbook.BookAgreement
import ItchOrderbook.NamedOrders

/-!
# Orders that have come and gone

The messages that carry one reference work on the entries of that reference
only. Dropping those entries from the list therefore undoes all of them, and
once the order is gone the list is what it would be without them.
-/

namespace Itch

open NodeQueue KeyedList CheckedRuns

/-- The list without the entries of one reference. -/
def dropped (r : UInt64) (L : List Entry) : List Entry :=
  update Entry.reference r (fun _ => none) L

def Message.isReplace : Message → Bool
  | orderReplace _ => true
  | _ => false

/-- The messages that do not carry the reference. -/
def without (r : UInt64) (ms : List Message) : List Message :=
  ms.filter fun m => r ∉ m.references

section Lists

variable {l : UInt16} {r : UInt64} {L : List Entry} {m : Message}

theorem dropped_of_absent (h : Absent Entry.reference r L) : dropped r L = L :=
  update_of_absent h

theorem mem_dropped {e : Entry} : e ∈ dropped r L ↔ e ∈ L ∧ e.reference ≠ r := by
  simp [dropped, mem_update]

/-- An action that does not name the reference works beside its entries. -/
theorem fifo_dropped {a : BookAction} (h : r ∉ a.references) (L : List Entry) :
    fifo (dropped r L) a = dropped r (fifo L a) := by
  have hapart : (BookAction.delete r).Apart a := by
    intro k hk
    rw [List.mem_singleton.mp hk]
    exact h
  have hfirst := fifo_fifo hapart L
  have hsecond := fifo_fifo hapart.symm L
  have hnone : (placed L (.delete r)).toList = [] := rfl
  rw [shrink_comm hapart, hnone, List.nil_append] at hfirst
  rw [hnone, List.append_nil] at hsecond
  exact hfirst.trans hsecond.symm

theorem fifoStep_dropped (h : r ∉ m.references) (L : List Entry) :
    fifoStep l (dropped r L) m = dropped r (fifoStep l L m) := by
  simp only [fifoStep]
  cases ha : m.actionAt? l with
  | none => rfl
  | some a => exact fifo_dropped (fun hr => h (references_action ha r hr)) L

theorem valid_dropped (h : r ∉ m.references) : Valid l (dropped r L) m ↔ Valid l L m := by
  refine forall₂_congr fun a ha => admissible_congr fun e he => ?_
  have hne : e.reference ≠ r := by
    rintro rfl
    exact h (references_action ha e.reference he)
  rw [mem_dropped]
  exact and_iff_left hne

/-- Nothing is left of what a message does to the entries it names, once they are dropped. -/
theorem dropped_fifoStep (hr : r ∈ m.references) (hm : m.isReplace = false) (L : List Entry) :
    dropped r (fifoStep l L m) = dropped r L := by
  have hless : ∀ n, dropped r (update Entry.reference r (Entry.less n) L) = dropped r L :=
    fun n => drop_update (inPlace_less n).reference L
  have hreduced : ∀ k n, r ∈ [k] →
      dropped r (update Entry.reference k (Entry.less n) L) = dropped r L := by
    intro k n hk
    rw [← List.mem_singleton.mp hk]
    exact hless n
  have hadded : ∀ e : Entry, r ∈ [e.reference] → dropped r (L ++ [e]) = dropped r L := by
    intro e he
    have hgone : dropped r [e] = [] := by
      simp [dropped, update, (List.mem_singleton.mp he).symm]
    rw [dropped, update_append]
    exact (congrArg (dropped r L ++ ·) hgone).trans (List.append_nil _)
  simp only [fifoStep, Message.actionAt?]
  by_cases hgate : m.stockLocate = l
  · rw [if_pos hgate]
    cases m with
    | addOrder m => exact hadded _ hr
    | addOrderWithMpid m => exact hadded _ hr
    | orderExecuted m => exact hreduced _ _ hr
    | orderExecutedWithPrice m => exact hreduced _ _ hr
    | orderCancel m => exact hreduced _ _ hr
    | orderDelete m =>
      have href : r = m.orderReference := List.mem_singleton.mp hr
      subst href
      exact drop_update (keeps_none _) L
    | orderReplace m => cases hm
    | tradeNonCross m => rfl
    | systemEvent m => rfl
    | stockDirectory m => rfl
    | other type record => rfl
  · rw [if_neg hgate]

/-- Leaving out the messages that carry the reference is dropping its entries. -/
theorem foldl_without (seg : List Message)
    (hseg : ∀ m ∈ seg, m.isReplace = true → r ∉ m.references) (L : List Entry) :
    (without r seg).foldl (fifoStep l) (dropped r L) =
      dropped r (seg.foldl (fifoStep l) L) := by
  induction seg generalizing L with
  | nil => rfl
  | cons m seg ih =>
    have hrest := ih (fun m hm => hseg m (List.mem_cons_of_mem _ hm)) (fifoStep l L m)
    rw [List.foldl_cons, ← hrest, without, without]
    by_cases hr : r ∈ m.references
    · have hkind : m.isReplace = false :=
        Bool.eq_false_iff.mpr fun hm => hseg m List.mem_cons_self hm hr
      rw [List.filter_cons_of_neg (by simpa using hr), dropped_fifoStep hr hkind]
    · rw [List.filter_cons_of_pos (by simpa using hr), List.foldl_cons, fifoStep_dropped hr]

theorem along_without (seg : List Message)
    (hseg : ∀ m ∈ seg, m.isReplace = true → r ∉ m.references)
    (hvalid : Along (OrderBook.listStep l) (Valid l) L seg) :
    Along (OrderBook.listStep l) (Valid l) (dropped r L) (without r seg) := by
  induction seg generalizing L with
  | nil => trivial
  | cons m seg ih =>
    have hrest := ih (L := fifoStep l L m) (fun m hm => hseg m (List.mem_cons_of_mem _ hm))
      hvalid.2
    rw [without]
    by_cases hr : r ∈ m.references
    · have hkind : m.isReplace = false :=
        Bool.eq_false_iff.mpr fun hm => hseg m List.mem_cons_self hm hr
      rw [List.filter_cons_of_neg (by simpa using hr)]
      rw [dropped_fifoStep hr hkind] at hrest
      exact hrest
    · rw [List.filter_cons_of_pos (by simpa using hr)]
      rw [← fifoStep_dropped hr] at hrest
      exact ⟨(valid_dropped hr).mpr hvalid.1, hrest⟩

end Lists

namespace OrderBook

theorem run_listStep (l : UInt16) (L : List Entry) (ms : List Message) :
    run (listStep l) L ms = .ok (ms.foldl (fifoStep l) L) := by
  induction ms generalizing L with
  | nil => rfl
  | cons m ms ih => exact ih (fifoStep l L m)

theorem along_listStep_append {l : UInt16} {L : List Entry} {xs ys : List Message} :
    Along (listStep l) (Valid l) L (xs ++ ys) ↔ Along (listStep l) (Valid l) L xs ∧
      Along (listStep l) (Valid l) (xs.foldl (fifoStep l) L) ys := by
  rw [along_append, run_listStep]
  simp

/-- A Delete, Executed or Cancel of the order. -/
def TakesOff (l : UInt16) (r : UInt64) (m : Message) : Prop :=
  m.actionAt? l = some (.delete r) ∨ (∃ n, m.actionAt? l = some (.execute r n)) ∨
    ∃ n, m.actionAt? l = some (.cancel r n)

/-- After `first` no replace names the order, until `last` takes it off and it is gone. -/
structure Finished (build : Build) (l : UInt16) (before : List Message) (first : Message)
    (between : List Message) (last : Message) (r : UInt64) : Prop where
  unreplaced : ∀ m ∈ between, m.isReplace = true → r ∉ m.references
  takenOff : TakesOff l r last
  gone : ∃ b, run (OrderBook.on build) (located l) (before ++ (first :: between ++ [last])) =
    .ok b ∧ b.orders[r]? = none

/-- Every order a message of the run inserts is finished later in the run. -/
def EveryOrderFinishes (build : Build) (l : UInt16) (ms : List Message) : Prop :=
  ∀ before m after b s p o, ms = before ++ m :: after →
    run (OrderBook.on build) (located l) before = .ok b → b.insertion? m = some (s, p, o) →
    ∃ between last rest, after = between ++ last :: rest ∧
      Finished build l before m between last o.orderReference

section Lifetime

variable {build : Build} {l : UInt16} {r : UInt64}

theorem TakesOff.not_replace {m : Message} (h : TakesOff l r m) : m.isReplace = false := by
  cases m with
  | orderReplace m =>
    simp only [TakesOff, Message.actionAt?] at h
    split at h
    · simp [Message.action?] at h
    · simp at h
  | _ => rfl

theorem Finished.unreplaced_segment {before between : List Message} {first last : Message}
    (h : Finished build l before first between last r) (hfirst : first.isReplace = false) :
    ∀ m ∈ first :: between ++ [last], m.isReplace = true → r ∉ m.references := by
  intro m hm hkind
  rcases List.mem_append.mp hm with hm | hm
  · rcases List.mem_cons.mp hm with rfl | hm
    · rw [hfirst] at hkind
      cases hkind
    · exact h.unreplaced m hm hkind
  · rw [List.mem_singleton.mp hm, h.takenOff.not_replace] at hkind
    cases hkind

/-- A run that inserts an order and finishes it ends where the run without it ends. -/
theorem Finished.leavesNoTrace {before between after : List Message} {first last : Message}
    (h : Finished build l before first between last r)
    (hfirst : ∃ side price shares, first.actionAt? l = some (.add side r price shares))
    (hvalid : Along (OrderBook.on build) Accepts (located l)
      (before ++ (first :: between ++ [last]) ++ after)) :
    Along (OrderBook.on build) Accepts (located l)
        (before ++ without r (first :: between ++ [last]) ++ after) ∧
      ∃ b b', run (OrderBook.on build) (located l)
          (before ++ (first :: between ++ [last]) ++ after) = .ok b ∧
        run (OrderBook.on build) (located l)
          (before ++ without r (first :: between ++ [last]) ++ after) = .ok b' ∧
        SameHoldings b b' := by
  obtain ⟨side, price, shares, hadd⟩ := hfirst
  have hstart := refinesAt_located l
  have hkind : first.isReplace = false := by
    cases first with
    | orderReplace m =>
      rw [Message.actionAt?] at hadd
      split at hadd <;> cases hadd
    | _ => rfl
  have hseg := h.unreplaced_segment hkind
  rw [hstart.along_accepts_iff] at hvalid
  obtain ⟨hpre, hpost⟩ := along_listStep_append.mp hvalid
  obtain ⟨hbefore, hsegment⟩ := along_listStep_append.mp hpre
  -- before the Add and after the last message no entry has the reference
  have hfree : Absent Entry.reference r (before.foldl (fifoStep l) []) :=
    hsegment.1 _ hadd
  have hgone : Absent Entry.reference r
      ((before ++ (first :: between ++ [last])).foldl (fifoStep l) []) := by
    obtain ⟨b, hb, hnone⟩ := h.gone
    obtain ⟨b', hb', hrefines⟩ := run_refines build hstart hpre
    obtain rfl := Except.ok.inj (hb.symm.trans hb')
    exact hrefines.toRefines.orders_eq_none.mp hnone
  have hsame : (before ++ without r (first :: between ++ [last])).foldl (fifoStep l) [] =
      (before ++ (first :: between ++ [last])).foldl (fifoStep l) [] := by
    have hlist := foldl_without (l := l) _ hseg (before.foldl (fifoStep l) [])
    rw [List.foldl_append] at hgone
    rw [dropped_of_absent hfree, dropped_of_absent hgone] at hlist
    rw [List.foldl_append, List.foldl_append, hlist]
  have hshorter : Along (listStep l) (Valid l) []
      (before ++ without r (first :: between ++ [last]) ++ after) := by
    rw [along_listStep_append, along_listStep_append, hsame]
    have hkept := along_without _ hseg hsegment
    rw [dropped_of_absent hfree] at hkept
    exact ⟨⟨hbefore, hkept⟩, hpost⟩
  obtain ⟨b, hb, hrefines⟩ := run_refines build hstart hvalid
  obtain ⟨b', hb', hrefines'⟩ := run_refines build hstart hshorter
  rw [List.foldl_append, hsame, ← List.foldl_append] at hrefines'
  rw [hstart.along_accepts_iff]
  exact ⟨hshorter, b, b', hb, hb', hrefines.toRefines.sameHoldings hrefines'.toRefines⟩

end Lifetime

section AllFinished

variable {build : Build} {l : UInt16}

/-- The order of reference `r` was inserted by a message seen, and has rested ever since. -/
def RestingSince (build : Build) (l : UInt16) (seen : List Message) (r : UInt64) : Prop :=
  ∃ before m after b s p o, seen = before ++ m :: after ∧
    run (OrderBook.on build) (located l) before = .ok b ∧ b.insertion? m = some (s, p, o) ∧
    o.orderReference = r ∧ ∀ between, between <+: after →
      ∃ c, run (OrderBook.on build) (located l) (before ++ m :: between) = .ok c ∧
        c.orders[r]? ≠ none

/-- What the messages seen say about the book they lead to. -/
structure Dated (build : Build) (l : UInt16) (b : OrderBook) (seen : List Message) : Prop where
  reached : run (OrderBook.on build) (located l) seen = .ok b
  refines : ∃ L, RefinesAt l b L
  since : ∀ r : UInt64, b.orders[r]? ≠ none → RestingSince build l seen r

theorem RefinesAt.resting_iff {b : OrderBook} {L : List Entry} (h : RefinesAt l b L)
    {r : UInt64} : b.orders[r]? ≠ none ↔ ∃ e ∈ L, e.reference = r := by
  rw [ne_eq, h.toRefines.orders_eq_none]
  simp [Absent]

/-- An entry after a message has the reference of one before, or the message appended it. -/
theorem mem_fifoStep {L : List Entry} {m : Message} {e : Entry} (he : e ∈ fifoStep l L m) :
    (∃ x ∈ L, x.reference = e.reference) ∨ placedBy l L m = some e := by
  rw [fifoStep] at he
  rw [placedBy]
  cases ha : m.actionAt? l with
  | none =>
    rw [ha] at he
    exact Or.inl ⟨e, he, rfl⟩
  | some a =>
    rw [ha] at he
    simp only [fifo_eq, List.mem_append, Option.mem_toList] at he
    rcases he with he | he
    · left
      rcases shrink_eq a with hid | ⟨r, _, g, hg, hupdate⟩
      · rw [hid] at he
        exact ⟨e, he, rfl⟩
      · rw [hupdate, mem_update] at he
        rcases he with ⟨hmem, _⟩ | ⟨x, hx, _, heq⟩
        · exact ⟨e, hmem, rfl⟩
        · exact ⟨x, hx, (hg.reference x e heq).symm⟩
    · exact Or.inr he

theorem RestingSince.extend {seen : List Message} {m : Message} {b : OrderBook} {r : UInt64}
    (h : RestingSince build l seen r)
    (hb : run (OrderBook.on build) (located l) (seen ++ [m]) = .ok b)
    (hrests : b.orders[r]? ≠ none) : RestingSince build l (seen ++ [m]) r := by
  obtain ⟨before, first, after, c, s, p, o, rfl, hc, hinsert, href, hstays⟩ := h
  refine ⟨before, first, after ++ [m], c, s, p, o, by simp, hc, hinsert, href, ?_⟩
  intro between hbetween
  rcases List.prefix_concat_iff.mp hbetween with rfl | hprefix
  · refine ⟨b, ?_, hrests⟩
    rw [← hb]
    simp
  · exact hstays between hprefix

theorem Dated.step {b : OrderBook} {seen : List Message} (h : Dated build l b seen)
    {m : Message} (hm : b.Accepts m) :
    ∃ b', b.on build m = .ok b' ∧ Dated build l b' (seen ++ [m]) := by
  obtain ⟨L, hL⟩ := h.refines
  have hvalid := (hL.accepts_iff m).mp hm
  have hafter := hL.received hvalid
  have hrun : run (OrderBook.on build) (located l) (seen ++ [m]) = .ok (b.received m) := by
    rw [run_append_ok h.reached, run_singleton, hL.on hvalid build]
  refine ⟨_, hL.on hvalid build, hrun, ⟨_, hafter⟩, ?_⟩
  intro r hr
  obtain ⟨e, he, rfl⟩ := hafter.resting_iff.mp hr
  rcases mem_fifoStep he with ⟨x, hx, href⟩ | hplaced
  · have hold : b.orders[e.reference]? ≠ none := hL.resting_iff.mpr ⟨x, hx, href⟩
    exact (h.since e.reference hold).extend hrun hr
  · rw [hL.placedBy_eq, Option.map_eq_some_iff] at hplaced
    obtain ⟨⟨s, p, o⟩, hinsert, rfl⟩ := hplaced
    refine ⟨seen, m, [], b, s, p, o, rfl, h.reached, hinsert, rfl, ?_⟩
    intro between hbetween
    rw [List.prefix_nil.mp hbetween]
    exact ⟨_, hrun, hr⟩

theorem dated_located : Dated build l (located l) [] where
  reached := rfl
  refines := ⟨[], refinesAt_located l⟩
  since := fun _ hr => absurd rfl hr

/-- An order that finishes later in the run does not rest at its end. -/
theorem EveryOrderFinishes.absent {ms : List Message} (h : EveryOrderFinishes build l ms)
    {r : UInt64} : ¬ RestingSince build l ms r := by
  rintro ⟨before, m, after, b, s, p, o, rfl, hb, hinsert, rfl, hstays⟩
  obtain ⟨between, last, rest, rfl, hfinished⟩ := h before m after b s p o rfl hb hinsert
  obtain ⟨c, hc, hnone⟩ := hfinished.gone
  obtain ⟨d, hd, hrests⟩ := hstays (between ++ [last]) ⟨rest, by simp⟩
  obtain rfl := Except.ok.inj (hc.symm.trans hd)
  exact hrests hnone

theorem RefinesAt.empty {b : OrderBook} (h : RefinesAt l b []) : b.bids = ∅ ∧ b.asks = ∅ := by
  have hnone : ∀ s p, b.level? s p = none := by
    intro s p
    have hlevel := h.toRefines.levels s p
    rw [mem_pricesOf] at hlevel
    simpa using hlevel
  constructor
  · apply Std.ExtTreeMap.ext_getElem?
    intro p
    rw [show b.bids[p]? = none from hnone .bids p]
    simp
  · apply Std.ExtTreeMap.ext_getElem?
    intro p
    rw [show b.asks[p]? = none from hnone .asks p]
    simp

theorem EveryOrderFinishes.empty {ms : List Message} (h : EveryOrderFinishes build l ms)
    (hvalid : Along (OrderBook.on build) Accepts (located l) ms) :
    ∃ b, run (OrderBook.on build) (located l) ms = .ok b ∧ b.bids = ∅ ∧ b.asks = ∅ := by
  obtain ⟨b, hb, hdated⟩ := run_history_along (fun _ _ _ hR hm => hR.step hm)
    (dated_located : Dated build l (located l) []) hvalid
  obtain ⟨L, hL⟩ := hdated.refines
  have hnil : L = [] := by
    rw [List.eq_nil_iff_forall_not_mem]
    intro e he
    exact h.absent (hdated.since e.reference (hL.resting_iff.mpr ⟨e, he, rfl⟩))
  subst hnil
  exact ⟨b, hb, hL.empty⟩

end AllFinished

/-- An order that an Add inserts and that a later Delete, Executed or Cancel takes off leaves no
trace: the run without its messages is still valid and ends with the same holdings. A run
that finishes every order it inserts ends with no level on either side. -/
theorem finished_orders_leave_no_trace (build : Build) (l : UInt16) (hl : l ≠ 0) :
    OrderBook.setLocate build {} l = .ok (located l) ∧
    (∀ before first between last after r side price shares,
      Along (OrderBook.on build) Accepts (located l)
        (before ++ (first :: between ++ [last]) ++ after) →
      first.actionAt? l = some (.add side r price shares) →
      Finished build l before first between last r →
      Along (OrderBook.on build) Accepts (located l)
          (before ++ without r (first :: between ++ [last]) ++ after) ∧
        ∃ b b', run (OrderBook.on build) (located l)
            (before ++ (first :: between ++ [last]) ++ after) = .ok b ∧
          run (OrderBook.on build) (located l)
            (before ++ without r (first :: between ++ [last]) ++ after) = .ok b' ∧
          SameHoldings b b') ∧
    (∀ ms, Along (OrderBook.on build) Accepts (located l) ms → EveryOrderFinishes build l ms →
      ∃ b, run (OrderBook.on build) (located l) ms = .ok b ∧ b.bids = ∅ ∧ b.asks = ∅) :=
  ⟨setLocate_fresh build hl,
    fun _ _ _ _ _ _ side price shares hvalid hadd h =>
      h.leavesNoTrace ⟨side, price, shares, hadd⟩ hvalid,
    fun _ hvalid h => h.empty hvalid⟩

/-- A filled order and the order that queued behind it. -/
theorem finished_orders_leave_no_trace_fill :
    Along (OrderBook.on .debug) Accepts (located 7) [.bid 7 2 50 5000] ∧
      ∃ b b', run (OrderBook.on .debug) (located 7)
          [.bid 7 1 100 5000, .bid 7 2 50 5000, .executing 7 1 100] = .ok b ∧
        run (OrderBook.on .debug) (located 7) [.bid 7 2 50 5000] = .ok b' ∧
        SameHoldings b b' := by
  have hgone : ∃ b, run (OrderBook.on .debug) (located 7)
      [.bid 7 1 100 5000, .bid 7 2 50 5000, .executing 7 1 100] = .ok b ∧
        b.orders[(1 : UInt64)]? = none := by
    have hlast : (run (OrderBook.on .debug) (located 7) [.bid 7 1 100 5000, .bid 7 2 50 5000,
        .executing 7 1 100]).map (fun b => b.orders[(1 : UInt64)]?) = .ok none := by decide
    cases hb : run (OrderBook.on .debug) (located 7)
        [.bid 7 1 100 5000, .bid 7 2 50 5000, .executing 7 1 100] with
    | error fault =>
      rw [hb] at hlast
      cases hlast
    | ok b =>
      rw [hb] at hlast
      exact ⟨b, rfl, Except.ok.inj hlast⟩
  exact (finished_orders_leave_no_trace .debug 7 (by decide)).2.1 [] (.bid 7 1 100 5000)
    [.bid 7 2 50 5000] (.executing 7 1 100) [] 1 .bids 5000 100 (by decide) rfl
    ⟨by decide, Or.inr (Or.inl ⟨100, rfl⟩), hgone⟩

end OrderBook

end Itch
