import ItchOrderbook.BookView
import ItchOrderbook.Decoding

/-!
# What a message asks of the book

Eleven kinds of message come down to six actions, gated by the locate. On a
book whose index can be followed, an action has a total effect; the assert of a
reduction is the only thing a debug build adds.
-/

namespace Itch

open NodeQueue

inductive BookAction
  | add (side : BookSide) (reference : UInt64) (price : PriceTicks) (shares : UInt32)
  | execute (reference : UInt64) (shares : UInt32)
  | cancel (reference : UInt64) (shares : UInt32)
  | delete (reference : UInt64)
  | replace (original new : UInt64) (price : PriceTicks) (shares : UInt32)
  | trade
deriving DecidableEq, Repr

namespace Message

def stockLocate (m : Message) : UInt16 := m.header.stockLocate

def action? : Message → Option BookAction
  | addOrder m => some (.add m.side.book m.orderReference m.price m.shares)
  | addOrderWithMpid m =>
    some (.add m.order.side.book m.order.orderReference m.order.price m.order.shares)
  | orderExecuted m => some (.execute m.orderReference m.executedShares)
  | orderExecutedWithPrice m => some (.execute m.executed.orderReference m.executed.executedShares)
  | orderCancel m => some (.cancel m.orderReference m.cancelledShares)
  | orderDelete m => some (.delete m.orderReference)
  | orderReplace m =>
    some (.replace m.originalOrderReference m.newOrderReference m.price m.shares)
  | tradeNonCross _ => some .trade
  | systemEvent _ => none
  | stockDirectory _ => none
  | other _ _ => none

/-- The action a message asks of a book at locate `l`. -/
def actionAt? (l : UInt16) (m : Message) : Option BookAction :=
  if m.stockLocate = l then m.action? else none

/-- A buy order at one locate, its other fields left at zero. -/
def bid (locate : UInt16) (reference : UInt64) (shares : UInt32) (price : PriceTicks) : Message :=
  addOrder
    { header :=
        { type := 'A'.toUInt8, stockLocate := locate, trackingNumber := 0, timestampNs := 0 }
      orderReference := reference
      side := .buy
      shares
      stock := Vector.replicate 8 0
      price }

/-- A replace at one locate. -/
def replacing (locate : UInt16) (original new : UInt64) (shares : UInt32) (price : PriceTicks) :
    Message :=
  orderReplace
    { header :=
        { type := 'U'.toUInt8, stockLocate := locate, trackingNumber := 0, timestampNs := 0 }
      originalOrderReference := original
      newOrderReference := new
      shares
      price }

/-- An execution at one locate. -/
def executing (locate : UInt16) (reference : UInt64) (shares : UInt32) : Message :=
  orderExecuted
    { header :=
        { type := 'E'.toUInt8, stockLocate := locate, trackingNumber := 0, timestampNs := 0 }
      orderReference := reference
      executedShares := shares
      matchNumber := 0 }

end Message

inductive Tally
  | adds
  | executions
  | cancels
  | deletes
  | replaces
  | trades
deriving DecidableEq, Repr

/-- The tally an action counts for, when it has an effect. -/
def BookAction.tally : BookAction → Tally
  | add _ _ _ _ => .adds
  | execute _ _ => .executions
  | cancel _ _ => .cancels
  | delete _ => .deletes
  | replace _ _ _ _ => .replaces
  | trade => .trades

def Stats.bump (stats : Stats) : Tally → Stats
  | .adds => { stats with adds := stats.adds + 1 }
  | .executions => { stats with executions := stats.executions + 1 }
  | .cancels => { stats with cancels := stats.cancels + 1 }
  | .deletes => { stats with deletes := stats.deletes + 1 }
  | .replaces => { stats with replaces := stats.replaces + 1 }
  | .trades => { stats with trades := stats.trades + 1 }

namespace OrderBook

def tallied (b : OrderBook) (t : Tally) : OrderBook := { b with stats := b.stats.bump t }

section Tallied

variable (b : OrderBook) (t : Tally)

@[simp] theorem tallied_locate : (b.tallied t).locate = b.locate := rfl

@[simp] theorem tallied_level? (s : BookSide) (p : PriceTicks) :
    (b.tallied t).level? s p = b.level? s p := by
  cases s <;> rfl

end Tallied

theorem bump_ne (stats : Stats) (t : Tally) : stats.bump t ≠ stats := by
  have hsucc : ∀ n : UInt64, n + 1 ≠ n := by
    intro n h
    have := congrArg UInt64.toBitVec h
    simp at this
  intro h
  rw [Stats.ext_iff] at h
  cases t <;> simp [Stats.bump, hsucc] at h

/-- The mutators as they stand in the source, one for each action. -/
def apply (build : Build) (b : OrderBook) : BookAction → Except Fault OrderBook
  | .add side reference price shares =>
    .ok ((b.insert side.tag reference price shares).tallied .adds)
  | .execute reference shares => do
    return (← b.reduceOrRemove build reference shares false).tallied .executions
  | .cancel reference shares => do
    return (← b.reduceOrRemove build reference shares false).tallied .cancels
  | .delete reference => do
    return (← b.reduceOrRemove build reference 0 true).tallied .deletes
  | .replace original new price shares =>
    match b.orders[original]? with
    | none => .ok b
    | some location => do
      let without ← b.reduceOrRemove build original 0 true
      return (without.insert location.side new price shares).tallied .replaces
  | .trade => .ok (b.tallied .trades)

theorem insert_book_tag (b : OrderBook) (side : Side) (reference : UInt64) (price : PriceTicks)
    (shares : UInt32) :
    b.insert side.book.tag reference price shares = b.insert side reference price shares := by
  simp only [insert_eq, book_tag]

/-- Every overload of `on` is the locate gate in front of an action. -/
theorem on_eq (build : Build) (b : OrderBook) (m : Message) :
    b.on build m = match m.actionAt? b.locate with
      | none => .ok b
      | some a => b.apply build a := by
  by_cases hgate : m.stockLocate = b.locate
  · rw [Message.actionAt?, if_pos hgate]
    cases m with
    | addOrder m =>
      simp only [on, onAddOrder, Message.action?, apply, insert_book_tag]
      exact if_neg (not_not.mpr hgate)
    | addOrderWithMpid m =>
      simp only [on, onAddOrder, Message.action?, apply, insert_book_tag]
      exact if_neg (not_not.mpr hgate)
    | tradeNonCross m => exact if_pos hgate
    | orderExecuted m => exact if_neg (not_not.mpr hgate)
    | orderExecutedWithPrice m => exact if_neg (not_not.mpr hgate)
    | orderCancel m => exact if_neg (not_not.mpr hgate)
    | orderDelete m => exact if_neg (not_not.mpr hgate)
    | orderReplace m => exact if_neg (not_not.mpr hgate)
    | systemEvent m => rfl
    | stockDirectory m => rfl
    | other type record => rfl
  · rw [Message.actionAt?, if_neg hgate]
    cases m with
    | tradeNonCross m => exact if_neg hgate
    | addOrder m => exact if_pos hgate
    | addOrderWithMpid m => exact if_pos hgate
    | orderExecuted m => exact if_pos hgate
    | orderExecutedWithPrice m => exact if_pos hgate
    | orderCancel m => exact if_pos hgate
    | orderDelete m => exact if_pos hgate
    | orderReplace m => exact if_pos hgate
    | systemEvent m => rfl
    | stockDirectory m => rfl
    | other type record => rfl

theorem reduceOrRemove_locate {build : Build} {b b' : OrderBook} {reference : UInt64}
    {shares : UInt32} {removeAll : Bool}
    (h : b.reduceOrRemove build reference shares removeAll = .ok b') : b'.locate = b.locate := by
  simp only [reduceOrRemove] at h
  split at h
  · cases h
    rfl
  · split at h
    · obtain ⟨reduced, _, h⟩ := bind_eq_ok h
      cases h
      rfl
    · obtain ⟨reduced, _, h⟩ := bind_eq_ok h
      cases h
      rfl

/-- No message moves a book to another locate. -/
theorem on_locate {build : Build} {b b' : OrderBook} {m : Message} (h : b.on build m = .ok b') :
    b'.locate = b.locate := by
  rw [on_eq] at h
  split at h
  · cases h
    rfl
  · rename_i a _
    cases a with
    | add side reference price shares =>
      cases h
      simp
    | trade =>
      cases h
      rfl
    | execute reference shares =>
      obtain ⟨without, hw, h⟩ := bind_eq_ok h
      cases h
      simpa using reduceOrRemove_locate hw
    | cancel reference shares =>
      obtain ⟨without, hw, h⟩ := bind_eq_ok h
      cases h
      simpa using reduceOrRemove_locate hw
    | delete reference =>
      obtain ⟨without, hw, h⟩ := bind_eq_ok h
      cases h
      simpa using reduceOrRemove_locate hw
    | replace original new price shares =>
      simp only [apply] at h
      split at h
      · cases h
        rfl
      · obtain ⟨without, hw, h⟩ := bind_eq_ok h
        cases h
        simpa using reduceOrRemove_locate hw

/-- `reduce_or_remove` past its assert; an unknown reference changes nothing. -/
def takeOff (b : OrderBook) (reference : UInt64) (shares : UInt32) (removeAll : Bool) :
    OrderBook :=
  match b.find? reference with
  | none => b
  | some f => b.afterReduction reference f (removedShares f shares removeAll) removeAll

@[simp] theorem stats_takeOff (b : OrderBook) (reference : UInt64) (shares : UInt32)
    (removeAll : Bool) : (b.takeOff reference shares removeAll).stats = b.stats := by
  rw [takeOff]
  split <;> simp

/-- The effect of an action, past the assert. -/
def effect (b : OrderBook) : BookAction → OrderBook
  | .add side reference price shares =>
    (b.insert side.tag reference price shares).tallied .adds
  | .execute reference shares => (b.takeOff reference shares false).tallied .executions
  | .cancel reference shares => (b.takeOff reference shares false).tallied .cancels
  | .delete reference => (b.takeOff reference 0 true).tallied .deletes
  | .replace original new price shares =>
    match b.find? original with
    | none => b
    | some f =>
      ((b.takeOff original 0 true).insert f.location.side new price shares).tallied .replaces
  | .trade => b.tallied .trades

/-- The assert of `reduce_or_remove_in`: a reduction fits the resting order it names. -/
def Within (b : OrderBook) : BookAction → Prop
  | .execute reference shares => ∀ f ∈ b.find? reference, shares ≤ f.order.shares
  | .cancel reference shares => ∀ f ∈ b.find? reference, shares ≤ f.order.shares
  | _ => True

instance decidableWithin (b : OrderBook) : ∀ a, Decidable (b.Within a)
  | .execute reference shares =>
    inferInstanceAs (Decidable (∀ f ∈ b.find? reference, shares ≤ f.order.shares))
  | .cancel reference shares =>
    inferInstanceAs (Decidable (∀ f ∈ b.find? reference, shares ≤ f.order.shares))
  | .add _ _ _ _ => inferInstanceAs (Decidable True)
  | .delete _ => inferInstanceAs (Decidable True)
  | .replace _ _ _ _ => inferInstanceAs (Decidable True)
  | .trade => inferInstanceAs (Decidable True)

/-- Every entry of the index leads to a level and to a node in it. -/
def Followable (b : OrderBook) : Prop :=
  ∀ reference location, b.orders[reference]? = some location →
    ∃ f, b.find? reference = some f ∧ f.location = location

theorem Followable.find?_eq_none {b : OrderBook} (h : b.Followable) {reference : UInt64} :
    b.find? reference = none ↔ b.orders[reference]? = none := by
  cases hloc : b.orders[reference]? with
  | none => simp [find?, hloc]
  | some location =>
    obtain ⟨f, hf, _⟩ := h reference location hloc
    simp [hf]

theorem Followable.reduceOrRemove {b : OrderBook} (h : b.Followable) {build : Build}
    {reference : UInt64} {shares : UInt32} {removeAll : Bool}
    (hassert : build = .debug → removeAll = false →
      ∀ f, b.find? reference = some f → shares ≤ f.order.shares) :
    b.reduceOrRemove build reference shares removeAll =
      .ok (b.takeOff reference shares removeAll) := by
  cases hfind : b.find? reference with
  | none =>
    rw [reduceOrRemove_unknown (h.find?_eq_none.mp hfind), takeOff, hfind]
  | some f =>
    have hpass : AssertPasses build f (removedShares f shares removeAll) := by
      intro hb
      cases hall : removeAll with
      | true => exact UInt32.le_refl _
      | false => exact hassert hb hall f hfind
    rw [reduceOrRemove_found hfind hpass, takeOff, hfind]

theorem Followable.removeAll {b : OrderBook} (h : b.Followable) {build : Build}
    (reference : UInt64) (shares : UInt32) :
    b.reduceOrRemove build reference shares true = .ok (b.takeOff reference shares true) :=
  h.reduceOrRemove fun _ hall => Bool.noConfusion hall

theorem Followable.apply {b : OrderBook} (h : b.Followable) {build : Build} {a : BookAction}
    (hwithin : build = .debug → b.Within a) : b.apply build a = .ok (b.effect a) := by
  cases a with
  | add side reference price shares => rfl
  | trade => rfl
  | execute reference shares =>
    rw [OrderBook.apply, h.reduceOrRemove fun hb _ => hwithin hb]
    rfl
  | cancel reference shares =>
    rw [OrderBook.apply, h.reduceOrRemove fun hb _ => hwithin hb]
    rfl
  | delete reference =>
    rw [OrderBook.apply, h.removeAll]
    rfl
  | replace original new price shares =>
    cases hloc : b.orders[original]? with
    | none => simp only [OrderBook.apply, effect, hloc, h.find?_eq_none.mpr hloc]
    | some location =>
      obtain ⟨f, hf, rfl⟩ := h original location hloc
      simp only [OrderBook.apply, effect, hloc, hf]
      rw [h.removeAll]
      rfl

/-- In the debug build an action that does not fit stops at the assert. -/
theorem apply_over {b : OrderBook} {a : BookAction} (hover : ¬ b.Within a) :
    b.apply .debug a = .error (.assertion .reductionFitsOrder) := by
  cases a with
  | execute reference shares =>
    obtain ⟨f, hf, hshares⟩ : ∃ f, b.find? reference = some f ∧ ¬ shares ≤ f.order.shares := by
      simpa [Within] using hover
    rw [OrderBook.apply, reduceOrRemove_assert hf hshares]
    rfl
  | cancel reference shares =>
    obtain ⟨f, hf, hshares⟩ : ∃ f, b.find? reference = some f ∧ ¬ shares ≤ f.order.shares := by
      simpa [Within] using hover
    rw [OrderBook.apply, reduceOrRemove_assert hf hshares]
    rfl
  | add side reference price shares => exact absurd trivial hover
  | delete reference => exact absurd trivial hover
  | replace original new price shares => exact absurd trivial hover
  | trade => exact absurd trivial hover

/-- The effect of a message: that of its action, when it is for this book's locate. -/
def received (b : OrderBook) (m : Message) : OrderBook :=
  match m.actionAt? b.locate with
  | none => b
  | some a => b.effect a

/-- The order a message inserts, with its side and price; a replace inserts only where its
original rests. -/
def insertion? (b : OrderBook) (m : Message) : Option (BookSide × PriceTicks × RestingOrder) :=
  match m.actionAt? b.locate with
  | some (.add side reference price shares) => some (side, price, ⟨reference, shares⟩)
  | some (.replace original new price shares) =>
    (b.orders[original]?).map fun location => (location.side.book, price, ⟨new, shares⟩)
  | _ => none

/-- The reductions a message asks for fit the resting orders they name. -/
def Fits (b : OrderBook) (m : Message) : Prop :=
  ∀ a ∈ m.actionAt? b.locate, b.Within a

instance decidableFits (b : OrderBook) (m : Message) : Decidable (b.Fits m) :=
  inferInstanceAs (Decidable (∀ a ∈ m.actionAt? b.locate, b.Within a))

theorem Followable.on {b : OrderBook} (h : b.Followable) {build : Build} {m : Message}
    (hfits : build = .debug → b.Fits m) : b.on build m = .ok (b.received m) := by
  rw [on_eq, received]
  cases hact : m.actionAt? b.locate with
  | none => rfl
  | some a => exact h.apply fun hb => hfits hb a hact

theorem on_over {b : OrderBook} {m : Message} (hover : ¬ b.Fits m) :
    b.on .debug m = .error (.assertion .reductionFitsOrder) := by
  obtain ⟨a, hact, hwithin⟩ : ∃ a, m.actionAt? b.locate = some a ∧ ¬ b.Within a := by
    simpa [Fits] using hover
  rw [on_eq, hact]
  exact apply_over hwithin

end OrderBook

end Itch
