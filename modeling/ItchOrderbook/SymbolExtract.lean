import ItchOrderbook.SymbolNames

/-!
# A session cut down to one symbol

Leave out every record that neither announces the symbol nor carries its locate.
What remains is a session of its own, and both replays make of it what they make
of the whole one, an exception of the script included. Records at locate 0 stay:
a book that has no locate yet takes them.
-/

namespace Itch

open ByteFields CheckedRuns PrefixCode

/-- The records of a session that can matter to a symbol at this locate. -/
def keeps (symbol : List UInt8) (located : Option UInt16) (f : List UInt8) : Bool :=
  ((frameMessage f).announces? symbol).isSome || (frameMessage f).stockLocate = 0 ||
    located = some (frameMessage f).stockLocate

/-- What is said of a record that is left out. -/
theorem keeps_eq_false {symbol : List UInt8} {located : Option UInt16} {f : List UInt8} :
    keeps symbol located f = false ↔ (frameMessage f).announces? symbol = none ∧
      (frameMessage f).stockLocate ≠ 0 ∧ located ≠ some (frameMessage f).stockLocate := by
  simp [keeps, and_assoc]

theorem resolution_some (announces : List UInt8 → Option UInt16) (l : UInt16)
    (frames : List (List UInt8)) : resolution announces (some l) frames = some l := by
  induction frames with
  | nil => rfl
  | cons f frames ih => exact ih

/-- What was heard so far is what will be heard, if anything was. -/
theorem heard_located {announces : List UInt8 → Option UInt16} {heard located : Option UInt16}
    {frames : List (List UInt8)} (h : resolution announces heard frames = located) :
    heard = none ∨ heard = located := by
  cases heard with
  | none => exact Or.inl rfl
  | some l => exact Or.inr ((resolution_some announces l frames).symm.trans h)

section Skips

variable {symbol : List UInt8} {located heard : Option UInt16} {f : List UInt8}
  (hkeep : keeps symbol located f = false) (hheard : heard = none ∨ heard = located)
include hkeep hheard

theorem BookReplayHandler.Heard.skip {handler : BookReplayHandler} (h : handler.Heard heard) :
    BookReplayHandler.on .relWithDebInfo symbol (frameMessage f) handler = .ok handler := by
  obtain ⟨hsilent, hzero, hother⟩ := keeps_eq_false.mp hkeep
  have hgate : (frameMessage f).stockLocate ≠ handler.book.locate := by
    rw [h.locate]
    rcases hheard with rfl | rfl
    · exact hzero
    · cases heard with
      | none => exact hzero
      | some l => exact fun heq => hother (congrArg some heq.symm)
  rw [BookReplayHandler.on_forward (Or.inr hsilent), BookReplayHandler.forward_ignored]
  exact if_neg hgate

theorem Replay.Heard.skip {state : Replay} (h : state.Heard heard) (hf : IsFrame f)
    (hsymbol : Resolvable symbol) :
    scriptStep (Replay.onRecord (ljust 8 symbol)) state f = .ok state := by
  obtain ⟨hsilent, -, hother⟩ := keeps_eq_false.mp hkeep
  rw [announces_padded hf hsymbol, announcesPadded?] at hsilent
  have hgate : some (frameMessage f).stockLocate.toNat ≠ state.book.locate := by
    rw [h.locate]
    rcases hheard with rfl | rfl
    · exact Option.some_ne_none _
    · cases heard with
      | none => exact Option.some_ne_none _
      | some l =>
        intro heq
        exact hother (congrArg some (UInt16.toNat_inj.mp (Option.some.inj heq)).symm)
  rw [scriptStep, Replay.onRecord, unpack_locate hf, ok_bind]
  by_cases hR : frameType f = 'R'.toUInt8
  · have htarget : pySlice (frameBody f) 11 19 ≠ ljust 8 symbol := by
      intro heq
      rw [if_pos ⟨hR, heq⟩] at hsilent
      cases hsilent
    rw [if_pos (List.singleton_inj.mpr hR), if_neg (by simp [htarget])]
    rfl
  · rw [if_neg fun heq => hR (List.singleton_inj.mp heq), if_neg (by simp [hgate])]
    rfl

end Skips

/-- The replay over the records that matter. -/
theorem run_handler_keeps (symbol : List UInt8) (frames : List (List UInt8)) :
    run (fun s f => BookReplayHandler.on .relWithDebInfo symbol (frameMessage f) s) {}
        (frames.filter (keeps symbol
          (resolution (fun f => (frameMessage f).announces? symbol) none frames))) =
      run (fun s f => BookReplayHandler.on .relWithDebInfo symbol (frameMessage f) s) {}
        frames := by
  apply run_filter_ahead _ fun (s : BookReplayHandler) ms => ∃ heard, s.Heard heard ∧
    resolution (fun f => (frameMessage f).announces? symbol) heard ms =
      resolution (fun f => (frameMessage f).announces? symbol) none frames
  · rintro handler f ms handler' ⟨heard, h, hlocated⟩ hon
    obtain ⟨next, hnext, hheard⟩ := h.step symbol (frameMessage f)
    obtain rfl := Except.ok.inj (hnext.symm.trans hon)
    exact ⟨_, hheard, hlocated⟩
  · rintro handler f ms ⟨heard, h, hlocated⟩ hkeep
    exact h.skip hkeep (heard_located hlocated)
  · exact ⟨none, BookReplayHandler.heard_fresh, rfl⟩

/-- The script over the records that matter; what it raises, it raises either way. -/
theorem run_script_keeps {symbol : List UInt8} (hsymbol : Resolvable symbol)
    {frames : List (List UInt8)} (hframes : ∀ f ∈ frames, IsFrame f) :
    run (scriptStep (Replay.onRecord (ljust 8 symbol))) {}
        (frames.filter (keeps symbol
          (resolution (announcesPadded? (ljust 8 symbol)) none frames))) =
      run (scriptStep (Replay.onRecord (ljust 8 symbol))) {} frames := by
  apply run_filter_ahead _ fun (s : Replay) ms => (∀ f ∈ ms, IsFrame f) ∧
    ∃ heard, s.Heard heard ∧ resolution (announcesPadded? (ljust 8 symbol)) heard ms =
      resolution (announcesPadded? (ljust 8 symbol)) none frames
  · rintro state f ms state' ⟨hms, heard, h, hlocated⟩ hon
    have hends := h.step (hms f List.mem_cons_self) (ljust 8 symbol)
    rw [show Replay.onRecord (ljust 8 symbol) [frameType f] (frameBody f) state = .ok state' from
      hon] at hends
    exact ⟨fun g hg => hms g (List.mem_cons_of_mem f hg), _, hends, hlocated⟩
  · rintro state f ms ⟨hms, heard, h, hlocated⟩ hkeep
    exact h.skip hkeep (heard_located hlocated) (hms f List.mem_cons_self) hsymbol
  · exact ⟨hframes, none, ⟨rfl, rfl⟩, rfl⟩

/-- A session cut down to the records that can matter to a symbol frames to its end, and both
replays come to the same on it as on the whole session. The book and whether it was resolved
are the same; where the script raises, for the session or for its symbol, it raises on both. -/
theorem extract_replays_alike (file : List UInt8) {symbol : List UInt8}
    (hsymbol : Resolvable symbol) :
    ∃ frames rest located outcome cut handler, Parses itchCode frames rest file ∧
      parseAll .relWithDebInfo (BookReplayHandler.on .relWithDebInfo symbol) file {} =
        .ok (outcome, handler) ∧
      located = (if handler.resolved then some handler.book.locate else none) ∧
      parseAll .relWithDebInfo (BookReplayHandler.on .relWithDebInfo symbol)
        (frames.filter (keeps symbol located)).flatten {} = .ok (cut, handler) ∧
      cut.complete = true ∧
      cut.messages = (frames.filter (keeps symbol located)).length ∧
      replay (frames.filter (keeps symbol located)).flatten symbol =
        (replay file symbol).map fun result => (result.1, result.2.1, none) := by
  obtain ⟨frames, rest, h⟩ := parses_exists (C := itchCode) file
  let located := resolution (fun f => (frameMessage f).announces? symbol) none frames
  have hkept : ∀ f ∈ frames.filter (keeps symbol located), IsFrame f :=
    fun f hf => h.isWord f (List.mem_filter.mp hf).1
  have hcut := parses_flatten (C := itchCode) hkept
  obtain ⟨handler, hrun, hparse, hheard⟩ := BookReplayHandler.parseAll_heard h symbol
  have hlocated : located =
      resolution (fun f => (frameMessage f).announces? symbol) none frames := rfl
  refine ⟨frames, rest, located, sessionOutcome frames.length frames.flatten.length rest,
    sessionOutcome (frames.filter (keeps symbol located)).length
      (frames.filter (keeps symbol located)).flatten.length [], handler, h, hparse, ?_, ?_, rfl,
    rfl, ?_⟩
  · rw [hheard.resolved, hheard.locate, ← hlocated]
    cases located <;> rfl
  · rw [run_map] at hrun
    rw [parseAll_default _ hcut, run_map, run_handler_keeps, hrun]
    rfl
  · by_cases hutf8 : IsUtf8 symbol
    · have hscript := run_script_keeps hsymbol h.isWord
      rw [← resolution_padded hsymbol h.isWord] at hscript
      rw [replay_frames hcut hutf8, replay_frames h hutf8, hscript]
      cases run (scriptStep (Replay.onRecord (ljust 8 symbol))) {} frames with
      | error raised => rfl
      | ok state => rfl
    · rw [replay_not_utf8 hutf8, replay_not_utf8 hutf8]
      rfl

/-- An announcement and a record at another locate, which is left out. -/
theorem extract_replays_alike_two_records :
    ∃ frames rest located outcome cut handler,
      Parses itchCode frames rest (announcement ['A'.toUInt8, 'B'.toUInt8] ++
        [0, 12, 'S'.toUInt8, 0, 2, 0, 0, 0, 0, 0, 0, 0, 0, 'O'.toUInt8]) ∧
      parseAll .relWithDebInfo
        (BookReplayHandler.on .relWithDebInfo ['A'.toUInt8, 'B'.toUInt8])
        (announcement ['A'.toUInt8, 'B'.toUInt8] ++
          [0, 12, 'S'.toUInt8, 0, 2, 0, 0, 0, 0, 0, 0, 0, 0, 'O'.toUInt8]) {} =
        .ok (outcome, handler) ∧
      located = (if handler.resolved then some handler.book.locate else none) ∧
      parseAll .relWithDebInfo
        (BookReplayHandler.on .relWithDebInfo ['A'.toUInt8, 'B'.toUInt8])
        (frames.filter (keeps ['A'.toUInt8, 'B'.toUInt8] located)).flatten {} =
        .ok (cut, handler) ∧
      cut.complete = true ∧
      cut.messages = (frames.filter (keeps ['A'.toUInt8, 'B'.toUInt8] located)).length ∧
      replay (frames.filter (keeps ['A'.toUInt8, 'B'.toUInt8] located)).flatten
          ['A'.toUInt8, 'B'.toUInt8] =
        (replay (announcement ['A'.toUInt8, 'B'.toUInt8] ++
            [0, 12, 'S'.toUInt8, 0, 2, 0, 0, 0, 0, 0, 0, 0, 0, 'O'.toUInt8])
          ['A'.toUInt8, 'B'.toUInt8]).map fun result => (result.1, result.2.1, none) :=
  extract_replays_alike _ (Or.inl (by decide))

end Itch
