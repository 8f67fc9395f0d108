import ItchOrderbook.BookReplay

/-!
# Replaying any bytes whatever

No session is too broken for the replay. The default build reaches the end of
what can be framed, with the links of its book sound. The debug build computes
the same, or stops at one of three asserts; which of the two happens can be read
off the records and the states of the default build.
-/

namespace Itch

open CheckedRuns PrefixCode

namespace OrderBook

/-- A message on a linked book that is let through takes its full effect. -/
theorem Linked.on_ok {b b' : OrderBook} (h : b.Linked) {build : Build} {m : Message}
    (hon : b.on build m = .ok b') : b' = b.received m := by
  by_cases hfits : build = .debug → b.Fits m
  · rw [h.on hfits] at hon
    exact (Except.ok.inj hon).symm
  · obtain ⟨rfl, hover⟩ : build = .debug ∧ ¬ b.Fits m := by simpa using hfits
    rw [on_over hover] at hon
    cases hon

end OrderBook

namespace BookReplayHandler

/-- The book is sound, and it has no locate before the symbol is announced. -/
structure Sound (handler : BookReplayHandler) : Prop where
  linked : handler.book.Linked
  unlocated : handler.resolved = false → handler.book.locate = 0

theorem sound_fresh : Sound {} where
  linked := OrderBook.linked_fresh
  unlocated := fun _ => rfl

/-- What the debug build asks of a message: locate 0 is not announced for the symbol, and a
reduction fits the order it names. -/
structure Admits (symbol : List UInt8) (handler : BookReplayHandler) (m : Message) : Prop where
  announced : handler.resolved = false → ∀ l ∈ m.announces? symbol, l ≠ 0
  fits : handler.book.Fits m

section Step

variable {symbol : List UInt8} {handler : BookReplayHandler} {m : Message}

theorem announces_eq {l : UInt16} (h : m.announces? symbol = some l) :
    ∃ directory, m = .stockDirectory directory ∧ trim directory.stock = symbol ∧
      directory.header.stockLocate = l := by
  cases m with
  | stockDirectory directory =>
    rw [Message.announces?] at h
    split at h
    · exact ⟨directory, rfl, ‹_›, Option.some.inj h⟩
    · cases h
  | _ => cases h

theorem on_announcement {l : UInt16} (hresolved : handler.resolved = false)
    (h : m.announces? symbol = some l) (build : Build) : on build symbol m handler = do
      return { book := ← handler.book.setLocate build l, resolved := true } := by
  obtain ⟨directory, rfl, htrim, rfl⟩ := announces_eq h
  rw [on, if_pos (by simp [hresolved, htrim])]

theorem setLocate_default (b : OrderBook) (l : UInt16) :
    b.setLocate .relWithDebInfo l = .ok { b with locate := l } := rfl

/-- The default build takes every message. -/
theorem Sound.step (h : handler.Sound) (symbol : List UInt8) (m : Message) :
    ∃ handler', on .relWithDebInfo symbol m handler = .ok handler' ∧ handler'.Sound := by
  by_cases hannounce : handler.resolved = false ∧ (m.announces? symbol).isSome
  · obtain ⟨hresolved, hsome⟩ := hannounce
    obtain ⟨l, hl⟩ := Option.isSome_iff_exists.mp hsome
    rw [on_announcement hresolved hl, setLocate_default]
    exact ⟨_, rfl, h.linked.relocated l, fun hfalse => Bool.noConfusion hfalse⟩
  · have hother : handler.resolved = true ∨ m.announces? symbol = none := by
      simpa [or_iff_not_imp_left] using hannounce
    rw [on_forward hother, forward, h.linked.on Build.noConfusion]
    refine ⟨_, rfl, h.linked.received m, fun hresolved => ?_⟩
    exact (h.linked.received_locate m).trans (h.unlocated hresolved)

/-- The default build takes any messages. -/
theorem Sound.run (h : handler.Sound) (symbol : List UInt8) (ms : List Message) :
    ∃ handler', CheckedRuns.run (fun s m => on .relWithDebInfo symbol m s) handler ms =
      .ok handler' ∧ handler'.Sound := by
  induction ms generalizing handler with
  | nil => exact ⟨handler, rfl, h⟩
  | cons m ms ih =>
    obtain ⟨next, hnext, hsound⟩ := h.step symbol m
    rw [run_cons_ok (by exact hnext)]
    exact ih hsound

/-- The debug build does the same with a message it admits. -/
theorem Sound.debug_same (h : handler.Sound) (hadmits : handler.Admits symbol m) :
    on .debug symbol m handler = on .relWithDebInfo symbol m handler := by
  by_cases hannounce : handler.resolved = false ∧ (m.announces? symbol).isSome
  · obtain ⟨hresolved, hsome⟩ := hannounce
    obtain ⟨l, hl⟩ := Option.isSome_iff_exists.mp hsome
    have hzero : (handler.book.locate == 0) = true := by simpa using h.unlocated hresolved
    have hne : (l != 0) = true := by simpa using hadmits.announced hresolved l hl
    rw [on_announcement hresolved hl, on_announcement hresolved hl, OrderBook.setLocate, hzero,
      hne]
    rfl
  · have hother : handler.resolved = true ∨ m.announces? symbol = none := by
      simpa [or_iff_not_imp_left] using hannounce
    rw [on_forward hother, on_forward hother, forward, forward,
      h.linked.on fun _ => hadmits.fits, h.linked.on Build.noConfusion]

/-- The debug build stops at a message it does not admit. -/
theorem Sound.debug_stops (h : handler.Sound) (hadmits : ¬ handler.Admits symbol m) :
    on .debug symbol m handler = .error (.assertion .locateNotSentinel) ∨
      on .debug symbol m handler = .error (.assertion .reductionFitsOrder) := by
  by_cases hannounce : handler.resolved = false ∧ (m.announces? symbol).isSome
  · obtain ⟨hresolved, hsome⟩ := hannounce
    obtain ⟨l, hl⟩ := Option.isSome_iff_exists.mp hsome
    left
    have hl0 : l = 0 := by
      by_contra hne
      refine hadmits ⟨fun _ k hk => ?_, ?_⟩
      · obtain rfl : l = k := Option.some.inj (hl.symm.trans hk)
        exact hne
      · obtain ⟨directory, rfl, _⟩ := announces_eq hl
        simp [OrderBook.Fits, Message.actionAt?, Message.action?]
    subst hl0
    have hzero : (handler.book.locate == 0) = true := by simpa using h.unlocated hresolved
    rw [on_announcement hresolved hl, OrderBook.setLocate, hzero]
    rfl
  · have hother : handler.resolved = true ∨ m.announces? symbol = none := by
      simpa [or_iff_not_imp_left] using hannounce
    right
    have hover : ¬ handler.book.Fits m := by
      intro hfits
      refine hadmits ⟨fun hresolved l hl => ?_, hfits⟩
      exact absurd ⟨hresolved, Option.isSome_iff_exists.mpr ⟨l, hl⟩⟩ hannounce
    rw [on_forward hother, forward, OrderBook.on_over hover]
    rfl

end Step

end BookReplayHandler

/-- One record of a session, as `book_replay` takes it. -/
def replayRecord (build : Build) (symbol : List UInt8) :
    BookReplayHandler → List UInt8 → Except Fault BookReplayHandler :=
  deliver (dispatchRecord build (BookReplayHandler.on build symbol))

/-- What the debug build asks of a record. -/
def AdmitsRecord (symbol : List UInt8) (handler : BookReplayHandler) (f : List UInt8) : Prop :=
  SideOk (frameType f) (frameBody f) ∧ handler.Admits symbol (frameMessage f)

/-- The asserts a replay in the debug build can stop at. -/
def replayAsserts : List Assertion := [.validSide, .reductionFitsOrder, .locateNotSentinel]

section Records

variable {symbol f : List UInt8} (hf : IsFrame f) {handler : BookReplayHandler}
include hf

theorem replayRecord_default : replayRecord .relWithDebInfo symbol handler f =
    BookReplayHandler.on .relWithDebInfo symbol (frameMessage f) handler := by
  rw [replayRecord, deliver, dispatchRecord, decodeRecord_frame hf Build.noConfusion]

theorem replayRecord_same (h : handler.Sound) (hadmits : AdmitsRecord symbol handler f) :
    replayRecord .debug symbol handler f = replayRecord .relWithDebInfo symbol handler f := by
  rw [replayRecord_default hf, ← h.debug_same hadmits.2]
  rw [replayRecord, deliver, dispatchRecord, decodeRecord_frame hf fun _ => hadmits.1]

theorem replayRecord_stops (h : handler.Sound) (hadmits : ¬ AdmitsRecord symbol handler f) :
    ∃ fault, replayRecord .debug symbol handler f = .error fault ∧
      ∃ a ∈ replayAsserts, fault = .assertion a := by
  by_cases hside : SideOk (frameType f) (frameBody f)
  · have hmessage : ¬ handler.Admits symbol (frameMessage f) := fun hboth => hadmits ⟨hside, hboth⟩
    have hdecode : replayRecord .debug symbol handler f =
        BookReplayHandler.on .debug symbol (frameMessage f) handler := by
      rw [replayRecord, deliver, dispatchRecord, decodeRecord_frame hf fun _ => hside]
    rw [hdecode]
    rcases h.debug_stops hmessage with hstop | hstop
    · exact ⟨_, hstop, _, by simp [replayAsserts], rfl⟩
    · exact ⟨_, hstop, _, by simp [replayAsserts], rfl⟩
  · refine ⟨.assertion .validSide, ?_, _, by simp [replayAsserts], rfl⟩
    rw [replayRecord, deliver, dispatchRecord, decodeRecord_bad_side hf.body_length hside]

end Records

/-- On any file and for any symbol, `book_replay` in the default build runs to the end of what
can be framed, reports that, and nothing in its book is stale. The debug build ends with the
very same outcome and book exactly when every record is admitted where the default build meets
it, and otherwise at one of three asserts: a bad side byte, a reduction larger than its order,
or the symbol announced at locate 0. No other assert ever fires. -/
theorem replay_any_file (file symbol : List UInt8) :
    ∃ frames rest outcome handler, Parses itchCode frames rest file ∧
      outcome = sessionOutcome frames.length frames.flatten.length rest ∧
      parseAll .relWithDebInfo (BookReplayHandler.on .relWithDebInfo symbol) file {} =
        .ok (outcome, handler) ∧
      handler.book.NothingStale ∧
      (Along (replayRecord .relWithDebInfo symbol) (AdmitsRecord symbol) {} frames ∧
          parseAll .debug (BookReplayHandler.on .debug symbol) file {} = .ok (outcome, handler) ∨
        ¬ Along (replayRecord .relWithDebInfo symbol) (AdmitsRecord symbol) {} frames ∧
          ∃ a ∈ replayAsserts, parseAll .debug (BookReplayHandler.on .debug symbol) file {} =
            .error (.assertion a)) := by
  obtain ⟨frames, rest, h⟩ := parses_exists (C := itchCode) file
  have hplain : ∀ handler, ∀ f ∈ frames, BookReplayHandler.Sound handler →
      ∃ handler', replayRecord .relWithDebInfo symbol handler f = .ok handler' ∧
        handler'.Sound := by
    intro handler f hf hsound
    rw [replayRecord_default (h.isWord f hf)]
    exact hsound.step symbol (frameMessage f)
  obtain ⟨handler, hrun, hsound, hdebug⟩ := run_checked hplain
    (fun handler f hf hsound hadmits => replayRecord_same (h.isWord f hf) hsound hadmits)
    (fun handler f hf hsound hadmits => replayRecord_stops (h.isWord f hf) hsound hadmits)
    BookReplayHandler.sound_fresh
  refine ⟨frames, rest, sessionOutcome frames.length frames.flatten.length rest, handler, h, rfl,
    ?_, hsound.linked.nothingStale, ?_⟩
  · rw [parseAll, frameAll_eq _ h]
    exact congrArg (Except.map _) hrun
  · rcases hdebug with ⟨halong, hsame⟩ | ⟨hbroken, fault, hstop, a, ha, rfl⟩
    · refine Or.inl ⟨halong, ?_⟩
      rw [parseAll, frameAll_eq _ h]
      exact congrArg (Except.map _) hsame
    · refine Or.inr ⟨hbroken, a, ha, ?_⟩
      rw [parseAll, frameAll_eq _ h]
      exact congrArg (Except.map _) hstop

end Itch
