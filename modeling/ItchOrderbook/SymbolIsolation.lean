import ItchOrderbook.BookLinks

/-!
# One symbol's book inside a whole session

Once located, a book depends on the messages of its own locate and on nothing
else. Before that the sentinel 0 is itself compared with the locate of each
message, so the book stays untouched only while no message with a zero locate
has work for it.
-/

namespace Itch

open CheckedRuns

/-- Everything but a replace leaves a trace even on an empty book. -/
def BookAction.leavesTrace : BookAction → Bool
  | .replace _ _ _ _ => false
  | _ => true

/-- A message the unlocated book takes for its own, and that moves it. -/
def Message.movesUnlocated (m : Message) : Bool := (m.actionAt? 0).any BookAction.leavesTrace

namespace OrderBook

/-- Feed `pre` to a fresh book, locate it, feed `post`. -/
def session (build : Build) (pre : List Message) (l : UInt16) (post : List Message) :
    Except Fault OrderBook := do
  let unlocated ← run (OrderBook.on build) {} pre
  let located ← unlocated.setLocate build l
  run (OrderBook.on build) located post

/-- The book ends as if it had only been fed the messages of its locate, once located, and no
message before that moved it. -/
def Isolated (build : Build) (pre : List Message) (l : UInt16) (post : List Message) : Prop :=
  session build pre l post = session build [] l (post.filter fun m => m.stockLocate == l) ∧
    Throughout (OrderBook.on build) (· = {}) {} pre

theorem on_elsewhere {build : Build} {b : OrderBook} {m : Message}
    (h : m.stockLocate ≠ b.locate) : b.on build m = .ok b := by
  rw [on_eq, Message.actionAt?, if_neg h]

/-- Messages for other locates make no difference to a run. -/
theorem run_own_messages (build : Build) (b : OrderBook) (post : List Message) :
    run (OrderBook.on build) b (post.filter fun m => m.stockLocate == b.locate) =
      run (OrderBook.on build) b post := by
  have hkept : ∀ c m c', c.locate = b.locate → OrderBook.on build c m = .ok c' →
      c'.locate = b.locate :=
    fun _ _ _ hc hstep => (on_locate hstep).trans hc
  refine run_filter _ hkept ?_ rfl post
  intro c m hc hkeep
  refine on_elsewhere fun heq => ?_
  simp [heq, hc] at hkeep

/-- Each action but a replace moves a fresh book, if only its tallies. -/
theorem effect_fresh (a : BookAction) : OrderBook.effect {} a = {} ↔ a.leavesTrace = false := by
  have hempty : ∀ r, OrderBook.find? {} r = none := fun r => by simp [find?]
  have htallied : ∀ t, OrderBook.tallied {} t ≠ {} := fun t h =>
    bump_ne _ t (congrArg OrderBook.stats h)
  cases a with
  | add side r p n =>
    have hadded : (OrderBook.insert {} side.tag r p n).tallied .adds ≠ {} := by
      intro h
      refine bump_ne {} .adds ?_
      simpa [tallied] using congrArg OrderBook.stats h
    simp [effect, BookAction.leavesTrace, hadded]
  | execute r n => simp [effect, takeOff, hempty, BookAction.leavesTrace, htallied]
  | cancel r n => simp [effect, takeOff, hempty, BookAction.leavesTrace, htallied]
  | delete r => simp [effect, takeOff, hempty, BookAction.leavesTrace, htallied]
  | replace r r' p n => simp [effect, hempty, BookAction.leavesTrace]
  | trade => simp [effect, BookAction.leavesTrace, htallied]

/-- Nothing rests on a fresh book, so every reduction fits. -/
theorem fits_fresh (m : Message) : OrderBook.Fits {} m := by
  intro a _
  cases a <;> simp [Within, find?]

theorem on_unlocated (build : Build) (m : Message) :
    OrderBook.on build {} m = .ok {} ↔ m.movesUnlocated = false := by
  have hzero : ({} : OrderBook).locate = 0 := rfl
  rw [linked_fresh.on fun _ => fits_fresh m, Except.ok.injEq, received, Message.movesUnlocated,
    hzero]
  cases m.actionAt? 0 with
  | none => simp
  | some a => simpa using effect_fresh a

/-- A book is isolated exactly when no earlier message with locate 0 has work for it. -/
theorem isolated_iff (build : Build) (pre : List Message) (l : UInt16) (post : List Message)
    (hl : l ≠ 0) :
    Isolated build pre l post ↔ ∀ m ∈ pre, m.movesUnlocated = false := by
  have hstill : Throughout (OrderBook.on build) (· = {}) {} pre ↔
      ∀ m ∈ pre, m.movesUnlocated = false := by
    simp only [throughout_still, on_unlocated]
  rw [Isolated, hstill, and_iff_right_iff_imp, ← hstill]
  intro h
  obtain ⟨b, hb, rfl⟩ := h pre List.prefix_rfl
  simp only [session, hb, run_nil, ok_bind, setLocate_fresh build hl]
  exact (run_own_messages build (located l) post).symm

theorem isolated_locate_seven :
    Isolated .relWithDebInfo [.bid 3 1 100 5000] 7 [.bid 7 1 100 5000, .bid 8 2 100 5000] :=
  (isolated_iff _ _ _ _ (by decide)).mpr (by decide)

/-- An order at locate 0 enters the book before any locate is set. -/
theorem not_isolated_locate_zero :
    ¬ Isolated .relWithDebInfo [.bid 0 1 100 5000] 7 [] := by
  intro h
  have hcounts := congrArg (Except.map orderCount) h.1
  revert hcounts
  decide

end OrderBook

end Itch
