import ItchOrderbook.ReferenceStops

/-!
# How the two replays resolve a symbol

The C++ replay trims the stock field and compares it with the symbol; the script
pads the symbol and compares it with the field. A tool resolves to the locate of
the first record it takes for an announcement, so the two can only differ where
these comparisons do: on a symbol that itself ends in a space. The script has to
encode the symbol first, and that fails where it is not UTF-8.
-/

namespace Itch

open ByteFields CheckedRuns PrefixCode

/-- The symbol a script can find in a field, and the C++ replay as well: it does not end in the
padding, unless it is too long for any field. -/
def Resolvable (symbol : List UInt8) : Prop :=
  symbol.getLast? ≠ some ' '.toUInt8 ∨ 8 < symbol.length

instance decidableResolvable (symbol : List UInt8) : Decidable (Resolvable symbol) :=
  inferInstanceAs (Decidable (_ ∨ _))

theorem length_trim_le {n : ℕ} (field : Vector UInt8 n) : (trim field).length ≤ n := by
  have hle := (List.rdropWhile_prefix (fun b => decide (b = ' '.toUInt8)) field.toList).length_le
  rwa [Vector.length_toList] at hle

theorem getLast?_trim {n : ℕ} (field : Vector UInt8 n) :
    (trim field).getLast? ≠ some ' '.toUInt8 := by
  intro hlast
  have hne : trim field ≠ [] := by
    intro hnil
    rw [hnil] at hlast
    cases hlast
  have hkept := List.rdropWhile_last_not (fun b => decide (b = ' '.toUInt8)) field.toList hne
  rw [List.getLast?_eq_some_getLast hne, Option.some.injEq] at hlast
  exact hkept (decide_eq_true hlast)

theorem length_ljust (width : ℕ) (bytes : List UInt8) :
    (ljust width bytes).length = max bytes.length width := by
  rw [ljust, List.length_append, List.length_replicate]
  omega

/-- On a symbol both can find, the two comparisons agree. -/
theorem announces_padded {f : List UInt8} (hf : IsFrame f) {symbol : List UInt8}
    (h : Resolvable symbol) :
    (frameMessage f).announces? symbol = announcesPadded? (ljust 8 symbol) f := by
  rcases h with hlast | hlong
  · rw [announcesPadded?, stockLocate_frame]
    exact announces?_ofRecord hf.body_length hlast
  · have htrim : (frameMessage f).announces? symbol = none := by
      rw [Option.eq_none_iff_forall_ne_some]
      intro l hl
      obtain ⟨directory, -, htrim, -⟩ := BookReplayHandler.announces_eq hl
      have hshort := length_trim_le directory.stock
      rw [htrim] at hshort
      omega
    rw [htrim, announcesPadded?, if_neg]
    rintro ⟨-, htarget⟩
    have hlen := congrArg List.length htarget
    rw [length_ljust, pySlice, slice, List.length_take] at hlen
    omega

theorem resolution_padded {symbol : List UInt8} (hsymbol : Resolvable symbol)
    {frames : List (List UInt8)} (hframes : ∀ f ∈ frames, IsFrame f) (heard : Option UInt16) :
    resolution (fun f => (frameMessage f).announces? symbol) heard frames =
      resolution (announcesPadded? (ljust 8 symbol)) heard frames :=
  List.foldl_ext _ _ _ fun heard f hf =>
    congrArg heard.or (announces_padded (hframes f hf) hsymbol)

/-- A replay that has heard this announcement. -/
structure BookReplayHandler.Heard (handler : BookReplayHandler) (heard : Option UInt16) :
    Prop where
  sound : handler.Sound
  resolved : handler.resolved = heard.isSome
  locate : handler.book.locate = heard.getD 0

namespace BookReplayHandler

theorem Heard.step {handler : BookReplayHandler} {heard : Option UInt16}
    (h : handler.Heard heard) (symbol : List UInt8) (m : Message) :
    ∃ handler', on .relWithDebInfo symbol m handler = .ok handler' ∧
      handler'.Heard (heard.or (m.announces? symbol)) := by
  by_cases hannounce : handler.resolved = false ∧ (m.announces? symbol).isSome
  · obtain ⟨hresolved, hsome⟩ := hannounce
    obtain ⟨l, hl⟩ := Option.isSome_iff_exists.mp hsome
    have hnone : heard = none := by
      rw [← Option.not_isSome_iff_eq_none, ← h.resolved, hresolved]
      exact Bool.false_ne_true
    rw [on_announcement hresolved hl, setLocate_default, hnone, hl]
    exact ⟨_, rfl, ⟨h.sound.linked.relocated l, fun hfalse => Bool.noConfusion hfalse⟩, rfl, rfl⟩
  · have hother : handler.resolved = true ∨ m.announces? symbol = none := by
      simpa [or_iff_not_imp_left] using hannounce
    have hsame : heard.or (m.announces? symbol) = heard := by
      rcases hother with hresolved | hsilent
      · exact Option.or_of_isSome (h.resolved ▸ hresolved)
      · rw [hsilent, Option.or_none]
    have hlocate := h.sound.linked.received_locate m
    rw [on_forward hother, forward, h.sound.linked.on Build.noConfusion, hsame]
    refine ⟨_, rfl, ⟨h.sound.linked.received m, fun hresolved => ?_⟩, h.resolved,
      hlocate.trans h.locate⟩
    exact hlocate.trans (h.sound.unlocated hresolved)

/-- The default build over any frames resolves by the first announcement. -/
theorem Heard.run {handler : BookReplayHandler} {heard : Option UInt16}
    (h : handler.Heard heard) (symbol : List UInt8) (frames : List (List UInt8)) :
    ∃ handler', CheckedRuns.run (fun s m => on .relWithDebInfo symbol m s) handler
        (frames.map frameMessage) = .ok handler' ∧
      handler'.Heard (resolution (fun f => (frameMessage f).announces? symbol) heard frames) := by
  induction frames generalizing handler heard with
  | nil => exact ⟨handler, rfl, h⟩
  | cons f frames ih =>
    obtain ⟨next, hnext, hheard⟩ := h.step symbol (frameMessage f)
    rw [List.map_cons, run_cons_ok (by exact hnext)]
    exact ih hheard

theorem heard_fresh : BookReplayHandler.Heard {} none := ⟨sound_fresh, rfl, rfl⟩

/-- The replay of any file in the default build. -/
theorem parseAll_heard {frames : List (List UInt8)} {rest file : List UInt8}
    (h : Parses itchCode frames rest file) (symbol : List UInt8) :
    ∃ handler, CheckedRuns.run (fun s m => on .relWithDebInfo symbol m s) {}
        (frames.map frameMessage) = .ok handler ∧
      parseAll .relWithDebInfo (on .relWithDebInfo symbol) file {} =
        .ok (sessionOutcome frames.length frames.flatten.length rest, handler) ∧
      handler.Heard (resolution (fun f => (frameMessage f).announces? symbol) none frames) := by
  obtain ⟨handler, hrun, hheard⟩ := heard_fresh.run symbol frames
  refine ⟨handler, hrun, ?_, hheard⟩
  rw [parseAll_default _ h, hrun]
  rfl

end BookReplayHandler

/-- What the script resolves to, whatever else is in the file, and how it stops. -/
theorem replay_heard {frames : List (List UInt8)} {rest file symbol : List UInt8}
    (h : Parses itchCode frames rest file) (hutf8 : IsUtf8 symbol) :
    Ends (fun result : ReferenceBook × Bool × Option ReferenceError =>
        Replay.Heard ⟨result.1, result.2.1⟩
          (resolution (announcesPadded? (ljust 8 symbol)) none frames) ∧
        result.2.2 = leftover rest frames.flatten.length)
      (fun raised => raised = .keyError) (replay file symbol) := by
  have hends := run_replay h.isWord (ljust 8 symbol)
  rw [replay_frames h hutf8]
  cases hrun : run (scriptStep (Replay.onRecord (ljust 8 symbol))) {} frames with
  | error raised =>
    rw [hrun] at hends
    exact hends
  | ok state =>
    rw [hrun] at hends
    exact ⟨hends, rfl⟩

/-- The bytes of a session that announces a symbol at locate 1 and does nothing else; the field
is the symbol as the script pads it. -/
def announcement (symbol : List UInt8) : List UInt8 :=
  [0, 39, 'R'.toUInt8, 0, 1, 0, 0, 0, 0, 0, 0, 0, 0] ++ ljust 8 symbol ++ List.replicate 20 0

section Announcement

variable {symbol : List UInt8} (hlen : symbol.length ≤ 8)
include hlen

theorem announcement_frame : IsFrame (announcement symbol) := by
  have hpadded := length_ljust 8 symbol
  rw [Nat.max_eq_right hlen] at hpadded
  rw [announcement]
  generalize ljust 8 symbol = field at hpadded ⊢
  refine ⟨0, 39, 'R'.toUInt8, [0, 1, 0, 0, 0, 0, 0, 0, 0, 0] ++ field ++ List.replicate 20 0,
    rfl, ?_, by decide +kernel⟩
  simp only [List.length_cons, List.length_append, List.length_replicate, List.length_nil, hpadded]
  decide

theorem announcement_field : pySlice (frameBody (announcement symbol)) 11 19 = ljust 8 symbol := by
  have hpadded := length_ljust 8 symbol
  rw [Nat.max_eq_right hlen] at hpadded
  rw [announcement]
  generalize ljust 8 symbol = field at hpadded ⊢
  change (field ++ List.replicate 20 0).take 8 = field
  rw [← hpadded, List.take_left]

theorem announcement_parses :
    Parses itchCode [announcement symbol] [] (announcement symbol) := by
  have hwords : ∀ f ∈ [announcement symbol], IsFrame f := by
    rintro f hf
    rw [List.mem_singleton.mp hf]
    exact announcement_frame hlen
  have h := parses_flatten (C := itchCode) hwords
  rwa [List.flatten_singleton] at h

/-- The script resolves the padded symbol, whatever it ends in. -/
theorem replay_announcement (hutf8 : IsUtf8 symbol) : ∃ book error,
    replay (announcement symbol) symbol = .ok (book, true, error) := by
  have htype : [frameType (announcement symbol)] = ['R'.toUInt8] := rfl
  rw [replay_frames (announcement_parses hlen) hutf8, run_singleton, scriptStep, Replay.onRecord,
    unpack_locate (announcement_frame hlen), ok_bind, if_pos htype,
    if_pos (by simp [announcement_field hlen])]
  exact ⟨_, _, rfl⟩

end Announcement

/-- The two replays resolve a file alike: the script ends, unless a level map raises a `KeyError`,
and says the same of the symbol, with the same locate. -/
def ResolveAlike (symbol file : List UInt8) : Prop :=
  ∃ outcome handler,
    parseAll .relWithDebInfo (BookReplayHandler.on .relWithDebInfo symbol) file {} =
      .ok (outcome, handler) ∧
    Ends (fun result : ReferenceBook × Bool × Option ReferenceError =>
        result.2.1 = handler.resolved ∧
        result.1.locate = if handler.resolved then some handler.book.locate.toNat else none)
      (fun raised => raised = .keyError) (replay file symbol)

theorem resolveAlike_of {symbol : List UInt8} (hsymbol : Resolvable symbol)
    (hutf8 : IsUtf8 symbol) (file : List UInt8) : ResolveAlike symbol file := by
  obtain ⟨frames, rest, h⟩ := parses_exists (C := itchCode) file
  obtain ⟨handler, -, hparse, hheard⟩ := BookReplayHandler.parseAll_heard h symbol
  refine ⟨_, handler, hparse, ?_⟩
  have hends := replay_heard h hutf8
  rw [← resolution_padded hsymbol h.isWord] at hends
  cases hreplay : replay file symbol with
  | error raised =>
    rw [hreplay] at hends
    exact hends
  | ok result =>
    rw [hreplay] at hends
    obtain ⟨hscript, -⟩ := hends
    refine ⟨hscript.resolved.trans hheard.resolved.symm, hscript.locate.trans ?_⟩
    rw [hheard.resolved, hheard.locate]
    cases resolution (fun f => (frameMessage f).announces? symbol) none frames with
    | none => rfl
    | some l => rfl

/-- The session of its announcement tells the replays apart on a symbol that ends in a space. -/
theorem resolvable_of_announcement {symbol : List UInt8} (hutf8 : IsUtf8 symbol)
    (halike : ResolveAlike symbol (announcement symbol)) : Resolvable symbol := by
  by_contra hcond
  rw [Resolvable, not_or, not_not, not_lt] at hcond
  obtain ⟨hlast, hlen⟩ := hcond
  have hsilent : (frameMessage (announcement symbol)).announces? symbol = none := by
    rw [Option.eq_none_iff_forall_ne_some]
    intro l hl
    obtain ⟨directory, -, htrim, -⟩ := BookReplayHandler.announces_eq hl
    exact getLast?_trim directory.stock (htrim ▸ hlast)
  obtain ⟨last, -, hlast, hheard⟩ :=
    BookReplayHandler.parseAll_heard (announcement_parses hlen) symbol
  obtain ⟨outcome, handler, hparse, hends⟩ := halike
  obtain ⟨-, rfl⟩ := Prod.mk.inj (Except.ok.inj (hlast.symm.trans hparse))
  obtain ⟨book, error, hreplay⟩ := replay_announcement hlen hutf8
  rw [hreplay] at hends
  have hresolved := hheard.resolved
  rw [← hends.1, resolution, List.foldl_cons, hsilent] at hresolved
  cases hresolved

/-- The two replays resolve every file alike exactly when the symbol is UTF-8 and either does not
end in a space or is too long to be in any field. -/
theorem symbols_resolve_alike_iff (symbol : List UInt8) :
    (∀ file, ResolveAlike symbol file) ↔ IsUtf8 symbol ∧ Resolvable symbol := by
  constructor
  · intro halike
    have hutf8 : IsUtf8 symbol := by
      by_contra hnot
      obtain ⟨_, _, -, hends⟩ := halike []
      rw [replay_not_utf8 hnot] at hends
      cases hends
    exact ⟨hutf8, resolvable_of_announcement hutf8 (halike _)⟩
  · rintro ⟨hutf8, hsymbol⟩ file
    exact resolveAlike_of hsymbol hutf8 file

end Itch
