import ItchOrderbook.ReferenceReplay

/-!
# The two replays agree

The replay over the C++ book and the Python script both hold the view of the
session for their symbol: one through queues and sorted maps, the other through
totals in dictionaries. What they print is read off the view.
-/

namespace Itch

open ByteFields CheckedRuns PrefixCode

/-- What a replay prints, and where it stopped if it did. -/
structure ReplayReport where
  resolved : Bool
  locate : Option ℕ
  tallies : Tally → ℕ
  restingOrders : ℕ
  bidLevels : ℕ
  askLevels : ℕ
  bestBid : Option (ℕ × ℤ)
  bestAsk : Option (ℕ × ℤ)
  stopped : Option ℕ

def BookLevel.printed (level : BookLevel) : ℕ × ℤ := (level.price.toNat, level.shares.toNat)

/-- The report of `book_replay`. A locate of 0 means that none was set. -/
def BookReplayHandler.report (handler : BookReplayHandler) (outcome : FrameOutcome) :
    ReplayReport where
  resolved := handler.resolved
  locate := if handler.book.locate = 0 then none else some handler.book.locate.toNat
  tallies := fun t => (handler.book.stats.get t).toNat
  restingOrders := handler.book.orderCount
  bidLevels := handler.book.bidLevelCount
  askLevels := handler.book.askLevelCount
  bestBid := handler.book.bestBid.map BookLevel.printed
  bestAsk := handler.book.bestAsk.map BookLevel.printed
  stopped := outcome.error.map fun _ => outcome.errorOffset

/-- The report of the script. -/
def ReferenceBook.report (book : ReferenceBook) (resolved : Bool)
    (error : Option ReferenceError) : ReplayReport where
  resolved := resolved
  locate := book.locate
  tallies := book.tally
  restingOrders := book.orders.size
  bidLevels := book.bidLevels.size
  askLevels := book.askLevels.size
  bestBid := book.best 'B'
  bestAsk := book.best 'S'
  stopped := error.map ReferenceError.offset

/-- The view as a step over frames that never faults. -/
def viewStep (symbol : List UInt8) (v : SymbolView) (f : List UInt8) : Except Fault SymbolView :=
  .ok (v.step symbol (frameMessage f))

/-- The sessions the two replays are meant for: a symbol that is text, as ASCII is, good side
bytes, locate 0 kept for the book that has none, and records of the symbol that make sense for
the orders then resting. -/
structure ReplayableSession (symbol : List UInt8) (frames : List (List UInt8)) : Prop where
  utf8 : IsUtf8 symbol
  sides : ∀ f ∈ frames, SideOk (frameType f) (frameBody f)
  located : ∀ f ∈ frames, (frameMessage f).Located symbol
  few : frames.length < 2 ^ 32
  followed : Along (viewStep symbol) (fun v f => v.Ok (frameMessage f)) {} frames

/-- What the session comes to for the symbol. -/
def viewOf (symbol : List UInt8) (frames : List (List UInt8)) : SymbolView :=
  frames.foldl (fun v f => v.step symbol (frameMessage f)) {}

theorem tallyOf_le_one (L : List Entry) (a : BookAction) (t : Tally) :
    (if tallyOf L a = some t then 1 else 0) ≤ 1 := by
  split <;> decide

theorem inserted_le_one (L : List Entry) (a : BookAction) : inserted L a ≤ 1 := by
  cases a with
  | replace original new price shares =>
    rw [inserted]
    split <;> decide
  | _ => simp [inserted]

namespace SymbolView

variable (symbol : List UInt8) (v : SymbolView) (m : Message)

/-- A record leaves the view, locates it, or is acted on. -/
theorem step_cases : (v.step symbol m).orders = v.orders ∧ (v.step symbol m).tallies = v.tallies ∨
    ∃ a, v.step symbol m = v.act a := by
  cases hl : v.locate with
  | none =>
    rw [step_unlocated hl]
    exact Or.inl ⟨rfl, rfl⟩
  | some l =>
    cases hact : m.actionAt? l with
    | none =>
      rw [step_ignored hl hact]
      exact Or.inl ⟨rfl, rfl⟩
    | some a => exact Or.inr ⟨a, step_act hl hact⟩

theorem length_step_le : (v.step symbol m).orders.length ≤ v.orders.length + 1 := by
  rcases v.step_cases symbol m with ⟨horders, _⟩ | ⟨a, hact⟩
  · rw [horders]
    exact Nat.le_succ _
  · rw [hact]
    exact (length_fifo_le v.orders a).trans
      (Nat.add_le_add_left (inserted_le_one v.orders a) _)

theorem tallies_step_le (t : Tally) : (v.step symbol m).tallies t ≤ v.tallies t + 1 := by
  rcases v.step_cases symbol m with ⟨_, htallies⟩ | ⟨a, hact⟩
  · rw [htallies]
    exact Nat.le_succ _
  · rw [hact]
    exact Nat.add_le_add_left (tallyOf_le_one v.orders a t) _

end SymbolView

/-- What both hold they report alike. -/
theorem report_eq {handler : BookReplayHandler} {state : Replay} {v : SymbolView}
    (hbook : handler.Refines v) (hstate : state.Refines v) (hlen : v.orders.length < 2 ^ 32)
    (htallies : ∀ t, v.tallies t < 2 ^ 64) {outcome : FrameOutcome}
    {error : Option ReferenceError}
    (hstop : (outcome.error.map fun _ => outcome.errorOffset) = error.map ReferenceError.offset) :
    handler.report outcome = state.book.report state.resolved error := by
  have hmirrors := hbook.orders.mirrors hlen
  have hlocate : (if handler.book.locate = 0 then none else some handler.book.locate.toNat) =
      state.book.locate := by
    rw [hbook.locate, hstate.locate]
    cases hl : v.locate with
    | none => rfl
    | some l => exact if_neg (hbook.nonzero l hl)
  have htally : (fun t => (handler.book.stats.get t).toNat) = state.book.tally := by
    funext t
    rw [hbook.tallies, hstate.tallies, UInt64.toNat_ofNat_of_lt' (htallies t)]
  have hbid : handler.book.bestBid.map BookLevel.printed = state.book.best 'B' :=
    (hstate.mirrors.best hmirrors.bestBid).symm
  have hask : handler.book.bestAsk.map BookLevel.printed = state.book.best 'S' :=
    (hstate.mirrors.best hmirrors.bestAsk).symm
  rw [BookReplayHandler.report, ReferenceBook.report, hlocate, htally, hbid, hask, hstop,
    hbook.resolved, hstate.resolved, hmirrors.orderCount, hstate.mirrors.orderCount,
    hmirrors.bidLevelCount, hmirrors.askLevelCount]
  congr 1
  · exact (hstate.mirrors.levelCount .bids).symm
  · exact (hstate.mirrors.levelCount .asks).symm

section Runs

variable {symbol : List UInt8} {frames : List (List UInt8)}

theorem length_viewOf_le : (viewOf symbol frames).orders.length ≤ frames.length := by
  have hbound := foldl_le_length (fun v : SymbolView => v.orders.length)
    (fun v f => v.length_step_le symbol (frameMessage f)) {} frames
  simpa [viewOf] using hbound

theorem tallies_viewOf_le (t : Tally) : (viewOf symbol frames).tallies t ≤ frames.length := by
  have hbound := foldl_le_length (fun v : SymbolView => v.tallies t)
    (fun v f => v.tallies_step_le symbol (frameMessage f) t) {} frames
  simpa [viewOf] using hbound

/-- The handler over the frames of a session. -/
theorem run_handler (build : Build) (hsession : ReplayableSession symbol frames) :
    ∃ handler, run (fun s m => BookReplayHandler.on build symbol m s) {}
        (frames.map frameMessage) = .ok handler ∧ handler.Refines (viewOf symbol frames) := by
  have hstep : ∀ handler v f, BookReplayHandler.Refines handler v →
      v.Ok (frameMessage f) ∧ (frameMessage f).Located symbol →
      ∃ handler', BookReplayHandler.on build symbol (frameMessage f) handler = .ok handler' ∧
        handler'.Refines (v.step symbol (frameMessage f)) :=
    fun _ _ _ hR hf => hR.step hf.2 hf.1 build
  rw [run_map]
  exact run_refinement hstep BookReplayHandler.refines_fresh
    (along_and_forall hsession.followed hsession.located)

/-- The script over the frames of a session. -/
theorem run_script (hsymbol : symbol.getLast? ≠ some ' '.toUInt8)
    (hframes : ∀ f ∈ frames, IsFrame f) (hsession : ReplayableSession symbol frames) :
    ∃ state, run (fun s f => Replay.onRecord (ljust 8 symbol) [frameType f] (frameBody f) s) {}
        frames = .ok state ∧ state.Refines (viewOf symbol frames) := by
  have hstep : ∀ state v f, Replay.Refines state v →
      v.Ok (frameMessage f) ∧ IsFrame f ∧ SideOk (frameType f) (frameBody f) →
      ∃ state', Replay.onRecord (ljust 8 symbol) [frameType f] (frameBody f) state = .ok state' ∧
        state'.Refines (v.step symbol (frameMessage f)) :=
    fun _ _ _ hR hf => hR.step hsymbol hf.2.1 hf.2.2 hf.1
  exact run_refinement hstep Replay.refines_fresh (along_and_forall hsession.followed
    fun f hf => ⟨hframes f hf, hsession.sides f hf⟩)

end Runs

/-- On a session they are meant for, both replays run to the end of what can be framed, in
either build, and print the same. -/
theorem replays_agree (build : Build) {file symbol : List UInt8}
    (hsymbol : symbol.getLast? ≠ some ' '.toUInt8) {frames : List (List UInt8)}
    {rest : List UInt8} (h : Parses itchCode frames rest file)
    (hsession : ReplayableSession symbol frames) :
    ∃ outcome handler book resolved error,
      parseAll build (BookReplayHandler.on build symbol) file {} = .ok (outcome, handler) ∧
      replay file symbol = .ok (book, resolved, error) ∧
      handler.report outcome = book.report resolved error := by
  obtain ⟨handler, hhandler, hbook⟩ := run_handler build hsession
  obtain ⟨state, hscript, hstate⟩ := run_script hsymbol h.isWord hsession
  obtain ⟨error, hnone, hoffset, hloop⟩ :=
    referenceLoop_eq (Replay.onRecord (ljust 8 symbol)) h 0 {}
  have hstop : ((sessionOutcome frames.length frames.flatten.length rest).error.map fun _ =>
      (sessionOutcome frames.length frames.flatten.length rest).errorOffset) =
        error.map ReferenceError.offset := by
    cases error with
    | none => simp [sessionOutcome, hnone.mp rfl]
    | some e =>
      have hrest : rest ≠ [] := fun hnil =>
        absurd (hnone.mpr hnil) (Option.some_ne_none e)
      have hat : e.offset = frames.flatten.length := by simpa using hoffset e rfl
      simp [sessionOutcome, hrest, hat]
  have hlen : (viewOf symbol frames).orders.length < 2 ^ 32 :=
    length_viewOf_le.trans_lt hsession.few
  have htallies : ∀ t, (viewOf symbol frames).tallies t < 2 ^ 64 := fun t =>
    ((tallies_viewOf_le t).trans_lt hsession.few).trans (by decide)
  refine ⟨sessionOutcome frames.length frames.flatten.length rest, handler, state.book,
    state.resolved, error, ?_, ?_, report_eq hbook hstate hlen htallies hstop⟩
  · rw [parseAll_eq _ h fun _ => hsession.sides, hhandler]
    rfl
  · rw [replay_utf8 hsession.utf8, hloop, hscript]
    rfl

/-- A directory record for "AB" at locate 7. -/
def directoryAB : List UInt8 :=
  [0, 39, 'R'.toUInt8, 0, 7, 0, 0, 0, 0, 0, 0, 0, 0, 'A'.toUInt8, 'B'.toUInt8, 32, 32, 32, 32,
    32, 32] ++ List.replicate 20 0

/-- A buy order of 100 shares at locate 7. -/
def buyHundred : List UInt8 :=
  [0, 36, 'A'.toUInt8, 0, 7, 0, 0, 0, 0, 0, 0, 0, 1, 0, 0, 0, 0, 0, 0, 0, 1, 'B'.toUInt8,
   0, 0, 0, 100, 'A'.toUInt8, 'B'.toUInt8, 32, 32, 32, 32, 32, 32, 0, 0, 0, 9]

/-- The two replays on an announcement, an order, and a byte too many. -/
theorem replays_agree_one_order :
    ∃ outcome handler book resolved error,
      parseAll .relWithDebInfo (BookReplayHandler.on .relWithDebInfo ['A'.toUInt8, 'B'.toUInt8])
        (directoryAB ++ (buyHundred ++ [0])) {} = .ok (outcome, handler) ∧
      replay (directoryAB ++ (buyHundred ++ [0])) ['A'.toUInt8, 'B'.toUInt8] =
        .ok (book, resolved, error) ∧
      handler.report outcome = book.report resolved error := by
  have hdirectory : IsFrame directoryAB := ⟨_, _, _, _, rfl, by decide, by decide +kernel⟩
  have hbuy : IsFrame buyHundred := ⟨_, _, _, _, rfl, by decide, by decide +kernel⟩
  have hstuck : Stuck itchCode [0] := by
    rintro w ⟨hi, lo, type, tail, rfl, _, _⟩ hpre
    simpa using hpre.length_le
  have hsession : ReplayableSession ['A'.toUInt8, 'B'.toUInt8] [directoryAB, buyHundred] :=
    ⟨isUtf8_ascii (by decide +kernel), by decide +kernel, by decide +kernel, by decide,
      by decide +kernel⟩
  exact replays_agree .relWithDebInfo (by decide)
    (parses_cons hdirectory (parses_cons hbuy (parses_stuck hstuck))) hsession

end Itch
