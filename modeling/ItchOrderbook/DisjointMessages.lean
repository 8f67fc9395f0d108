import ItchOrderbook.BookAgreement
import ItchOrderbook.NamedOrders

/-!
# Messages about different orders

Fed in either order, two valid messages that carry no reference in common lead
to books that answer alike. Only time priority can tell them apart: two orders
inserted at one price queue up in the order in which they came.
-/

namespace Itch

open NodeQueue KeyedList CheckedRuns

theorem Message.Apart.symm {m m' : Message} (h : m.Apart m') : m'.Apart m :=
  fun r hr' hr => h r hr hr'

namespace OrderBook

/-- The message inserts an order at this side and price. -/
def InsertsAt (b : OrderBook) (m : Message) (s : BookSide) (p : PriceTicks) : Prop :=
  ∃ x, b.insertion? m = some (s, p, x)

/-- `c` and `d` are what `b` becomes by `m` then `m'` and by `m'` then `m`. -/
structure Commuted (b c d : OrderBook) (m m' : Message) : Prop where
  alike : AnswersAlike c d
  tallies : c.stats = d.stats
  swapped : ∀ s p x y, b.insertion? m = some (s, p, x) → b.insertion? m' = some (s, p, y) →
    ∃ q, c.queueAt s p = q ++ [x, y] ∧ d.queueAt s p = q ++ [y, x]
  same : ∀ s p, ¬ (b.InsertsAt m s p ∧ b.InsertsAt m' s p) → c.queueAt s p = d.queueAt s p

section Pairs

variable {l : UInt16} {b c d : OrderBook} {L : List Entry} {m m' : Message}

/-- What a message appends at a price is an order it inserts there. -/
theorem RefinesAt.entriesAt_placedBy (h : RefinesAt l b L) {s : BookSide} {p : PriceTicks}
    (hnone : ¬ b.InsertsAt m s p) : entriesAt (placedBy l L m).toList s p = [] := by
  rw [List.eq_nil_iff_forall_not_mem]
  intro e he
  obtain ⟨hmem, rfl, rfl⟩ := mem_entriesAt.mp he
  rw [Option.mem_toList, h.placedBy_eq, Option.map_eq_some_iff] at hmem
  obtain ⟨⟨s, p, x⟩, hinsert, rfl⟩ := hmem
  exact hnone ⟨x, hinsert⟩

theorem Refines.queueAt_append_pair {s : BookSide} {p : PriceTicks} {x y : RestingOrder}
    (h : c.Refines (L ++ [x.entry s p, y.entry s p])) :
    ∃ q, q.map (RestingOrder.entry s p) = entriesAt L s p ∧ c.queueAt s p = q ++ [x, y] := by
  have hqueue := h.queue s p
  have hpair : entriesAt [x.entry s p, y.entry s p] s p = [x, y].map (RestingOrder.entry s p) := by
    simp [entriesAt, RestingOrder.entry]
  rw [entriesAt_append, hpair, List.map_eq_append_iff] at hqueue
  obtain ⟨q, last, hsplit, hq, hlast⟩ := hqueue
  rw [List.map_injective_iff.mpr (entry_injective s p) hlast] at hsplit
  exact ⟨q, hq, hsplit⟩

theorem RefinesAt.stats_received (h : RefinesAt l b L) (m : Message) (t : Tally) :
    (b.received m).stats.get t =
      b.stats.get t + if tallyBy l L m = some t then 1 else 0 := by
  rw [OrderBook.received, tallyBy, h.locate]
  cases m.actionAt? l with
  | none => simp
  | some a => exact h.toRefines.stats_effect a t

theorem RefinesAt.commuted (h : RefinesAt l b L) (hm : Valid l L m) (hm' : Valid l L m')
    (hapart : m.Apart m') :
    Commuted b ((b.received m).received m') ((b.received m').received m) m m' := by
  have h₁ := h.received hm
  have h₂ := h.received hm'
  have hc := h₁.received ((valid_fifoStep hapart).mpr hm')
  have hd := h₂.received ((valid_fifoStep hapart.symm).mpr hm)
  obtain ⟨rest, hfirst, hsecond⟩ := fifoStep_fifoStep (l := l) hapart L
  rw [hfirst] at hc
  rw [hsecond] at hd
  refine ⟨hc.toRefines.answersAlike hd.toRefines ?_, ?_, ?_, ?_⟩
  · exact (List.perm_append_comm).append_left rest
  · apply Stats.ext_get
    intro t
    rw [h₁.stats_received, h.stats_received, h₂.stats_received, h.stats_received,
      tallyBy_fifoStep hapart, tallyBy_fifoStep hapart.symm]
    exact add_right_comm _ _ _
  · intro s p x y hx hy
    rw [h.placedBy_eq m, h.placedBy_eq m', hx, hy] at hc hd
    obtain ⟨q, hq, hqueue⟩ := hc.toRefines.queueAt_append_pair
    obtain ⟨q', hq', hqueue'⟩ := hd.toRefines.queueAt_append_pair
    have hsame : q = q' :=
      List.map_injective_iff.mpr (entry_injective s p) (hq.trans hq'.symm)
    exact ⟨q, hqueue, by rw [hqueue', hsame]⟩
  · intro s p hnot
    apply hc.toRefines.queueAt_eq hd.toRefines
    simp only [entriesAt_append]
    rcases not_and_or.mp hnot with hnone | hnone
    · rw [h.entriesAt_placedBy hnone, List.nil_append, List.append_nil]
    · rw [h.entriesAt_placedBy hnone, List.nil_append, List.append_nil]

end Pairs

/-- In every state a valid run reaches, two valid messages without a reference in common stay
valid after each other, and their order shows only in the queue of a price where both insert. -/
theorem disjoint_messages_commute (build : Build) (l : UInt16) (ms : List Message)
    (b : OrderBook) (m m' : Message) (hl : l ≠ 0)
    (hvalid : Along (OrderBook.on build) Accepts (located l) ms)
    (hb : run (OrderBook.on build) (located l) ms = .ok b) (hm : b.Accepts m)
    (hm' : b.Accepts m') (hapart : m.Apart m') :
    OrderBook.setLocate build {} l = .ok (located l) ∧ ∃ b₁ b₂ c d,
      b.on build m = .ok b₁ ∧ b₁.Accepts m' ∧ b₁.on build m' = .ok c ∧
      b.on build m' = .ok b₂ ∧ b₂.Accepts m ∧ b₂.on build m = .ok d ∧
      Commuted b c d m m' := by
  have hstart := refinesAt_located l
  obtain ⟨b', hb', h⟩ := run_refines build hstart ((hstart.along_accepts_iff build ms).mp hvalid)
  obtain rfl := Except.ok.inj (hb'.symm.trans hb)
  rw [h.accepts_iff] at hm hm'
  have h₁ := h.received hm
  have h₂ := h.received hm'
  have hlater := (valid_fifoStep hapart).mpr hm'
  have hlater' := (valid_fifoStep hapart.symm).mpr hm
  exact ⟨setLocate_fresh build hl, _, _, _, _, h.on hm build, (h₁.accepts_iff m').mpr hlater,
    h₁.on hlater build, h.on hm' build, (h₂.accepts_iff m).mpr hlater', h₂.on hlater' build,
    h.commuted hm hm' hapart⟩

/-- A replace empties the only level and re-creates it, beside an Add at the same price. -/
theorem disjoint_messages_commute_replace :
    OrderBook.setLocate .debug {} 7 = .ok (located 7) ∧ ∃ b₁ b₂ c d,
      ((located 7).received (.bid 7 1 100 5000)).on .debug (.replacing 7 1 3 30 5000) = .ok b₁ ∧
      b₁.Accepts (.bid 7 2 50 5000) ∧ b₁.on .debug (.bid 7 2 50 5000) = .ok c ∧
      ((located 7).received (.bid 7 1 100 5000)).on .debug (.bid 7 2 50 5000) = .ok b₂ ∧
      b₂.Accepts (.replacing 7 1 3 30 5000) ∧ b₂.on .debug (.replacing 7 1 3 30 5000) = .ok d ∧
      Commuted ((located 7).received (.bid 7 1 100 5000)) c d (.replacing 7 1 3 30 5000)
        (.bid 7 2 50 5000) :=
  disjoint_messages_commute .debug 7 [.bid 7 1 100 5000] _ _ _ (by decide) (by decide)
    ((run_singleton _ _ _).trans ((linked_located 7).on fun _ => by decide)) (by decide)
    (by decide) (by decide)

end OrderBook

end Itch
