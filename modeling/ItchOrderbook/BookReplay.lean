import ItchOrderbook.FifoRefinement
import ItchOrderbook.ReadSafety
import Mathlib.Data.List.DropRight

/-!
# Replaying a session for one symbol

The replay waits for the directory record of its symbol, locates the book, and
forwards everything else. What it computes is a view of the session: the locate,
the resting orders as one list, and six tallies.
-/

namespace Itch

open NodeQueue KeyedList CheckedRuns

/-- The significant characters of a space-padded field. -/
def trim {n : ℕ} (field : Vector UInt8 n) : List UInt8 :=
  field.toList.rdropWhile fun b => b = ' '.toUInt8

structure BookReplayHandler where
  book : OrderBook := {}
  resolved : Bool := false

namespace BookReplayHandler

variable (build : Build) (symbol : List UInt8)

def forward (handler : BookReplayHandler) (message : Message) :
    Except Fault BookReplayHandler := do
  let book ← handler.book.on build message
  return { handler with book }

/-- The overload set of the replay. -/
def on : MessageHandler BookReplayHandler
  | .stockDirectory message, handler =>
    if !handler.resolved && trim message.stock = symbol then do
      let book ← handler.book.setLocate build message.header.stockLocate
      return { book, resolved := true }
    else .ok handler
  | .systemEvent message, handler => handler.forward build (.systemEvent message)
  | .addOrder message, handler => handler.forward build (.addOrder message)
  | .addOrderWithMpid message, handler => handler.forward build (.addOrderWithMpid message)
  | .orderExecuted message, handler => handler.forward build (.orderExecuted message)
  | .orderExecutedWithPrice message, handler =>
    handler.forward build (.orderExecutedWithPrice message)
  | .orderCancel message, handler => handler.forward build (.orderCancel message)
  | .orderDelete message, handler => handler.forward build (.orderDelete message)
  | .orderReplace message, handler => handler.forward build (.orderReplace message)
  | .tradeNonCross message, handler => handler.forward build (.tradeNonCross message)
  | .other _ _, handler => .ok handler

end BookReplayHandler

/-- The message announces the symbol, and under which locate. -/
def Message.announces? (symbol : List UInt8) : Message → Option UInt16
  | .stockDirectory message =>
    if trim message.stock = symbol then some message.header.stockLocate else none
  | _ => none

/-- What a session comes to for one symbol. -/
structure SymbolView where
  locate : Option UInt16 := none
  orders : List Entry := []
  tallies : Tally → ℕ := fun _ => 0

def SymbolView.act (v : SymbolView) (a : BookAction) : SymbolView :=
  { v with
    orders := fifo v.orders a
    tallies := fun t => v.tallies t + if tallyOf v.orders a = some t then 1 else 0 }

def SymbolView.step (symbol : List UInt8) (v : SymbolView) (m : Message) : SymbolView :=
  match v.locate with
  | none => { v with locate := m.announces? symbol }
  | some l =>
    match m.actionAt? l with
    | none => v
    | some a => v.act a

section ViewSteps

variable {v : SymbolView} {symbol : List UInt8} {m : Message} {l : UInt16}

theorem SymbolView.step_unlocated (hl : v.locate = none) :
    v.step symbol m = { v with locate := m.announces? symbol } := by
  rw [step, hl]

theorem SymbolView.step_ignored (hl : v.locate = some l) (hact : m.actionAt? l = none) :
    v.step symbol m = v := by
  simp only [step, hl, hact]

theorem SymbolView.step_act (hl : v.locate = some l) {a : BookAction}
    (hact : m.actionAt? l = some a) : v.step symbol m = v.act a := by
  simp only [step, hl, hact]

end ViewSteps

/-- Inserted orders are not empty. -/
def Positive (L : List Entry) : BookAction → Prop
  | .add _ _ _ shares => 0 < shares
  | .replace original _ _ shares => Absent Entry.reference original L ∨ 0 < shares
  | _ => True

instance decidablePositive (L : List Entry) : ∀ a, Decidable (Positive L a)
  | .add _ _ _ shares => inferInstanceAs (Decidable (0 < shares))
  | .replace original _ _ shares =>
    inferInstanceAs (Decidable (Absent Entry.reference original L ∨ 0 < shares))
  | .execute _ _ => inferInstanceAs (Decidable True)
  | .cancel _ _ => inferInstanceAs (Decidable True)
  | .delete _ => inferInstanceAs (Decidable True)
  | .trade => inferInstanceAs (Decidable True)

/-- After the announcement, what the records of the symbol must respect. -/
def SymbolView.Ok (v : SymbolView) (m : Message) : Prop :=
  ∀ l ∈ v.locate, ∀ a ∈ m.actionAt? l, Admissible v.orders a ∧ Positive v.orders a

-- By the locate there is, not by trying all locates.
instance decidableViewOk (v : SymbolView) (m : Message) : Decidable (v.Ok m) :=
  Option.decidableForallMem v.locate

/-- Locate 0 is not used by any record the book acts on, nor announced for the symbol. -/
def Message.Located (symbol : List UInt8) (m : Message) : Prop :=
  (m.action?.isSome → m.stockLocate ≠ 0) ∧ ∀ l ∈ m.announces? symbol, l ≠ 0

instance (symbol : List UInt8) (m : Message) : Decidable (m.Located symbol) :=
  have := Option.decidableForallMem (p := fun l : UInt16 => l ≠ 0) (m.announces? symbol)
  instDecidableAnd

namespace BookReplayHandler

/-- The replay holds the view of the session so far. -/
structure Refines (handler : BookReplayHandler) (v : SymbolView) : Prop where
  resolved : handler.resolved = v.locate.isSome
  locate : handler.book.locate = v.locate.getD 0
  nonzero : ∀ l ∈ v.locate, l ≠ 0
  orders : handler.book.Refines v.orders
  tallies : ∀ t, handler.book.stats.get t = UInt64.ofNat (v.tallies t)

theorem refines_fresh : Refines {} {} where
  resolved := rfl
  locate := rfl
  nonzero := by simp
  orders := OrderBook.refines_fresh
  tallies := by
    intro t
    cases t <;> rfl

/-- A message that the view ignores leaves the book alone. -/
theorem forward_ignored {handler : BookReplayHandler} {build : Build} {m : Message}
    (h : m.actionAt? handler.book.locate = none) : handler.forward build m = .ok handler := by
  rw [forward, OrderBook.on_eq, h]
  rfl

/-- Everything but a directory record reaches the book. -/
theorem on_forward {build : Build} {symbol : List UInt8} {m : Message}
    {handler : BookReplayHandler} (h : handler.resolved = true ∨ m.announces? symbol = none) :
    on build symbol m handler = handler.forward build m := by
  cases m with
  | stockDirectory m =>
    have hstay : (!handler.resolved && decide (trim m.stock = symbol)) = false := by
      rcases h with h | h
      · simp [h]
      · have hother : trim m.stock ≠ symbol := by
          intro heq
          simp [Message.announces?, heq] at h
        simp [hother]
    rw [on, if_neg (by simp [hstay])]
    exact (forward_ignored (by simp [Message.actionAt?, Message.action?])).symm
  | other type record =>
    exact (forward_ignored (by simp [Message.actionAt?, Message.action?])).symm
  | systemEvent m => rfl
  | addOrder m => rfl
  | addOrderWithMpid m => rfl
  | orderExecuted m => rfl
  | orderExecutedWithPrice m => rfl
  | orderCancel m => rfl
  | orderDelete m => rfl
  | orderReplace m => rfl
  | tradeNonCross m => rfl

/-- The announcement locates the book. -/
theorem on_announce {build : Build} {symbol : List UInt8} {m : Message} {l : UInt16}
    {handler : BookReplayHandler} (hresolved : handler.resolved = false)
    (hlocate : handler.book.locate = 0) (hannounce : m.announces? symbol = some l)
    (hl : l ≠ 0) :
    on build symbol m handler = .ok ⟨{ handler.book with locate := l }, true⟩ := by
  cases m with
  | stockDirectory m =>
    rw [Message.announces?] at hannounce
    split at hannounce
    · rename_i htrim
      cases hannounce
      have hset : handler.book.setLocate build m.header.stockLocate =
          .ok { handler.book with locate := m.header.stockLocate } := by
        have hne : (m.header.stockLocate != 0) = true := by simpa using hl
        have hzero : (handler.book.locate == 0) = true := by simpa using hlocate
        simp only [OrderBook.setLocate, hne, hzero]
        cases build <;> rfl
      rw [on, if_pos (by simp [hresolved, htrim]), hset]
      rfl
    · cases hannounce
  | _ => cases hannounce

/-- One record: the replay steps, in either build, and the view steps with it. -/
theorem Refines.step {handler : BookReplayHandler} {v : SymbolView} (h : handler.Refines v)
    {symbol : List UInt8} {m : Message} (hlocated : m.Located symbol) (hok : v.Ok m)
    (build : Build) :
    ∃ handler', on build symbol m handler = .ok handler' ∧
      handler'.Refines (v.step symbol m) := by
  cases hl : v.locate with
  | none =>
    have hresolved : handler.resolved = false := by rw [h.resolved, hl]; rfl
    have hzero : handler.book.locate = 0 := by rw [h.locate, hl]; rfl
    rw [SymbolView.step_unlocated hl]
    cases hannounce : m.announces? symbol with
    | none =>
      have hignored : m.actionAt? handler.book.locate = none := by
        rw [hzero, Message.actionAt?]
        split
        · rename_i hz
          by_contra hact
          exact hlocated.1 (Option.isSome_iff_ne_none.mpr hact) hz
        · rfl
      refine ⟨handler, ?_, h.resolved.trans (by rw [hl]), h.locate.trans (by rw [hl]), by simp,
        h.orders, h.tallies⟩
      rw [on_forward (Or.inr hannounce), forward_ignored hignored]
    | some l =>
      have hne := hlocated.2 l hannounce
      refine ⟨_, on_announce hresolved hzero hannounce hne, rfl, rfl, ?_, ?_, h.tallies⟩
      · rintro k ⟨⟩
        exact hne
      · exact h.orders.of_containers (fun s p => by cases s <;> rfl) rfl rfl
  | some l =>
    have hresolved : handler.resolved = true := by rw [h.resolved, hl]; rfl
    have hlocate : handler.book.locate = l := by rw [h.locate, hl]; rfl
    rw [on_forward (Or.inl hresolved)]
    cases hact : m.actionAt? l with
    | none =>
      rw [SymbolView.step_ignored hl hact]
      refine ⟨handler, forward_ignored ?_, h⟩
      rw [hlocate, hact]
    | some a =>
      obtain ⟨hadm, _⟩ := hok l hl a hact
      have heffect : handler.book.on build m = .ok (handler.book.effect a) := by
        rw [OrderBook.on_eq, hlocate, hact]
        exact h.orders.linked.followable.apply fun _ => h.orders.within_of_admissible hadm
      rw [SymbolView.step_act hl hact]
      refine ⟨{ handler with book := handler.book.effect a }, ?_, ?_⟩
      · rw [forward, heffect]
        rfl
      · refine ⟨?_, ?_, h.nonzero, h.orders.effect hadm, ?_⟩
        · exact h.resolved
        · exact (OrderBook.on_locate heffect).trans h.locate
        · intro t
          rw [h.orders.stats_effect a t, h.tallies]
          simp only [SymbolView.act]
          split <;> simp [UInt64.ofNat_add]

end BookReplayHandler

end Itch
