import ItchOrderbook.ReferenceRobustness
import ItchOrderbook.ReplayRobustness
import ItchOrderbook.SessionCensus

/-!
# Where the scripts stop, and why

The scripts test a record in another order than the framer, and a declared length
of zero they do not test at all. On any bytes they stop at the record the framer
stops at, and what they print says which of its checks the record fails. A census
with a limit stops earlier, as if the file ended there.
-/

namespace Itch

open ByteFields CheckedRuns PrefixCode

universe u

/-- The check of the framer an error stands for, and the type byte it reports. A record of
declared length zero has an empty type, and that is what a script says of it. -/
def ReferenceError.framed : ReferenceError → FrameError × UInt8
  | truncatedPrefix _ => (.truncatedPrefix, 0)
  | truncatedRecord _ => (.truncatedRecord, 0)
  | unknownType [] _ => (.zeroLength, 0)
  | unknownType (type :: _) _ => (.unknownType, type)
  | wrongLength _ messageType _ _ => (.lengthMismatch, charAt messageType 0)

/-- What the framer reports when it stops early. -/
def FrameOutcome.reported (outcome : FrameOutcome) : Option (FrameError × UInt8) :=
  outcome.error.map fun error => (error, outcome.errorType)

/-- How a script ends on what no frame begins. -/
def leftover (rest : List UInt8) (consumed : ℕ) : Option ReferenceError :=
  match fetch rest consumed with
  | .ok (.failed error) => some error
  | _ => none

/-- The lookup of a script fails on the same types as the table of the framer. -/
theorem fetch_framed {rest : List UInt8} (h : Stuck itchCode rest) {consumed : ℕ}
    {error : ReferenceError} (hfetch : fetch rest consumed = .ok (.failed error)) :
    error.framed = violation rest := by
  match rest with
  | [] => cases hfetch
  | [_] =>
    cases hfetch
    rfl
  | hi :: lo :: body =>
    rw [fetch_pair] at hfetch
    by_cases hzero : declaredLength hi lo = 0
    · have hempty : SPEC_LENGTHS.lookup ([] : List UInt8) = none := rfl
      simp only [hzero, Nat.not_lt_zero, if_false, List.take_zero, List.take_nil, hempty] at hfetch
      cases hfetch
      rw [violation, if_pos hzero]
      rfl
    · rw [violation, if_neg hzero]
      by_cases hshort : body.length < declaredLength hi lo
      · rw [if_pos hshort] at hfetch ⊢
        cases hfetch
        rfl
      · rw [if_neg hshort] at hfetch ⊢
        cases body with
        | nil =>
          rw [List.length_nil] at hshort
          omega
        | cons type tail =>
          obtain ⟨n, hn⟩ := Nat.exists_eq_succ_of_ne_zero hzero
          have htype : charAt (type :: tail) 0 = type := rfl
          have htake : ((type :: tail).take (declaredLength hi lo)).take 1 = [type] := by
            simp [hn]
          rw [htake, lookup_spec] at hfetch
          rw [htype]
          by_cases hknown : specMessageLength type = 0
          · rw [if_pos hknown] at hfetch ⊢
            cases hfetch
            rfl
          · rw [if_neg hknown] at hfetch ⊢
            simp only at hfetch
            split at hfetch
            · cases hfetch
              rfl
            · cases hfetch

theorem leftover_nil (consumed : ℕ) : leftover [] consumed = none := rfl

/-- What is left over after the frames is worded by the script as the framer reports it. -/
theorem leftover_reported {rest : List UInt8} (h : Stuck itchCode rest) (messages consumed : ℕ) :
    (leftover rest consumed).map ReferenceError.framed =
      (sessionOutcome messages consumed rest).reported ∧
    (leftover rest consumed).map ReferenceError.offset =
      (sessionOutcome messages consumed rest).error.map fun _ =>
        (sessionOutcome messages consumed rest).errorOffset := by
  by_cases hrest : rest = []
  · subst hrest
    exact ⟨rfl, rfl⟩
  · obtain ⟨error, hfetch, hoffset⟩ := fetch_stuck h hrest consumed
    have hleft : leftover rest consumed = some error := by rw [leftover, hfetch]
    rw [hleft, FrameOutcome.reported, sessionOutcome, if_neg hrest]
    exact ⟨congrArg some (fetch_framed h hfetch), congrArg some hoffset⟩

section Loop

variable {σ : Type u} {onRecord : List UInt8 → List UInt8 → σ → Except Raised σ}
  {stop : σ → Bool} {rest : List UInt8} {consumed : ℕ} {s : σ}

theorem referenceLoop_frame {f : List UInt8} (hf : IsFrame f) :
    referenceLoop onRecord stop (f ++ rest) consumed s =
      (scriptStep onRecord s f).bind fun t =>
        if stop t then .ok (t, consumed + f.length, none)
        else referenceLoop onRecord stop rest (consumed + f.length) t := by
  have hlen : 2 + (frameBody f).length = f.length := by rw [hf.length, hf.body_length]
  rw [referenceLoop_unfold, fetch_frame hf, scriptStep]
  simp only [hlen]
  split <;> rename_i hcall <;> rw [hcall] <;> rfl

/-- As long as it is not told to stop, the loop runs over the frames. -/
theorem referenceLoop_frames {frames : List (List UInt8)} (hframes : ∀ f ∈ frames, IsFrame f)
    (hgo : ∀ pre t, pre <+: frames → pre ≠ [] → run (scriptStep onRecord) s pre = .ok t →
      stop t = false) :
    referenceLoop onRecord stop (frames.flatten ++ rest) consumed s =
      (run (scriptStep onRecord) s frames).bind fun t =>
        referenceLoop onRecord stop rest (consumed + frames.flatten.length) t := by
  induction frames generalizing consumed s with
  | nil => rfl
  | cons f frames ih =>
    have hf : IsFrame f := hframes f List.mem_cons_self
    rw [List.flatten_cons, List.append_assoc, referenceLoop_frame hf]
    cases hcall : scriptStep onRecord s f with
    | error raised =>
      rw [run_cons_error hcall]
      rfl
    | ok t =>
      have hstop : stop t = false := by
        apply hgo [f] t
        · exact ⟨frames, rfl⟩
        · simp
        · rw [run_singleton, hcall]
      have hlater : ∀ pre t', pre <+: frames → pre ≠ [] →
          run (scriptStep onRecord) t pre = .ok t' → stop t' = false := by
        intro pre t' hpre _ hrun
        refine hgo (f :: pre) t' ((List.prefix_cons_inj f).mpr hpre) (List.cons_ne_nil f pre) ?_
        rw [run_cons_ok hcall, hrun]
      have hcut : (Except.ok t : Except Raised σ).bind (fun t =>
          if stop t then .ok (t, consumed + f.length, none)
          else referenceLoop onRecord stop (frames.flatten ++ rest) (consumed + f.length) t) =
          referenceLoop onRecord stop (frames.flatten ++ rest) (consumed + f.length) t := by
        simp [Except.bind, hstop]
      rw [hcut, ih (fun g hg => hframes g (List.mem_cons_of_mem f hg)) hlater, run_cons_ok hcall,
        List.length_append, Nat.add_assoc]

theorem referenceLoop_stuck (h : Stuck itchCode rest) :
    referenceLoop onRecord stop rest consumed s = .ok (s, consumed, leftover rest consumed) := by
  rw [referenceLoop_unfold]
  by_cases hrest : rest = []
  · subst hrest
    rfl
  · obtain ⟨error, hfetch, _⟩ := fetch_stuck h hrest consumed
    rw [leftover, hfetch]

/-- The whole session: the frames, and then what is left over. -/
theorem referenceLoop_session {frames : List (List UInt8)} {session : List UInt8}
    (h : Parses itchCode frames rest session)
    (hgo : ∀ pre t, pre <+: frames → pre ≠ [] → run (scriptStep onRecord) s pre = .ok t →
      stop t = false) :
    referenceLoop onRecord stop session consumed s =
      (run (scriptStep onRecord) s frames).map fun t =>
        (t, consumed + frames.flatten.length,
          leftover rest (consumed + frames.flatten.length)) := by
  rw [h.eq, referenceLoop_frames h.isWord hgo]
  cases run (scriptStep onRecord) s frames with
  | error raised => rfl
  | ok t => exact referenceLoop_stuck h.stuck

end Loop

/-- The two censuses count the same. -/
structure SameCensus (reference : ReferenceCensus) (census : SessionCensus) : Prop where
  counts : ∀ type, reference.counts [type] = census.count type
  systemEvents : reference.systemEvents = census.systemEvents.map chr
  total : reference.total = census.total

theorem same_census {reference : ReferenceCensus} {census : SessionCensus}
    {records : List (List UInt8)} (hreference : ReferenceSummarises reference records)
    (hcensus : Summarises census records) : SameCensus reference census where
  counts := by
    intro type
    rw [hreference.counts, hcensus.counts]
  systemEvents := by
    rw [hreference.systemEvents, hcensus.systemEvents, List.map_map]
    rfl
  total := by rw [hreference.total, hcensus.total]

theorem sessionOutcome_messages (messages consumed : ℕ) (rest : List UInt8) :
    (sessionOutcome messages consumed rest).messages = messages := by
  rw [sessionOutcome]
  split <;> rfl

theorem sessionOutcome_consumed (messages consumed : ℕ) (rest : List UInt8) :
    (sessionOutcome messages consumed rest).bytesConsumed = consumed := by
  rw [sessionOutcome]
  split <;> rfl

/-- Both censuses of a session, without a limit. -/
theorem censuses_run {frames : List (List UInt8)} {rest file : List UInt8}
    (h : Parses itchCode frames rest file) :
    ∃ census reference,
      parseAll .relWithDebInfo SessionCensus.on file {} =
        .ok (sessionOutcome frames.length frames.flatten.length rest, census) ∧
      referenceCensus file none =
        .ok (reference, frames.flatten.length, leftover rest frames.flatten.length) ∧
      Summarises census (frames.map frameBody) ∧
      ReferenceSummarises reference (frames.map frameBody) := by
  obtain ⟨census, hcensus, hsum⟩ := run_census h.isWord
  obtain ⟨reference, hreference, href⟩ := run_reference h.isWord
  have hunlimited : ReferenceCensus.reached none = fun _ => false := rfl
  refine ⟨census, reference, ?_, ?_, hsum, href⟩
  · rw [parseAll_default SessionCensus.on h, hcensus]
    rfl
  · rw [referenceCensus, hunlimited, referenceLoop_session h fun _ _ _ _ _ => rfl]
    change (run (fun s f => ReferenceCensus.countRecord [frameType f] (frameBody f) s) {}
      frames).map _ = _
    rw [hreference, Nat.zero_add]
    rfl

/-- After as many records as it has counted, the census asks for its limit. -/
theorem reached_iff {reference : ReferenceCensus} {frames : List (List UInt8)}
    (h : ReferenceSummarises reference (frames.map frameBody)) (limit : ℤ) :
    reference.reached (some limit) = true ↔ limit.toNat ≤ frames.length := by
  rw [ReferenceCensus.reached, h.total, List.length_map, decide_eq_true_eq, Int.toNat_le]

theorem run_reference_total {frames : List (List UInt8)} (hframes : ∀ f ∈ frames, IsFrame f)
    {reference : ReferenceCensus}
    (hrun : run (scriptStep ReferenceCensus.countRecord) {} frames = .ok reference) :
    ReferenceSummarises reference (frames.map frameBody) := by
  obtain ⟨counted, hcounted, h⟩ := run_reference hframes
  obtain rfl : counted = reference := Except.ok.inj (hcounted.symm.trans hrun)
  exact h

/-- Before its limit the census does not stop. -/
theorem below_limit {front : List (List UInt8)} (hfront : ∀ f ∈ front, IsFrame f) {limit : ℤ}
    (hshort : front.length < max 1 limit.toNat) (pre : List (List UInt8)) (t : ReferenceCensus)
    (hpre : pre <+: front) (hne : pre ≠ [])
    (hrun : run (scriptStep ReferenceCensus.countRecord) {} pre = .ok t) :
    t.reached (some limit) = false := by
  have hsum := run_reference_total (fun f hf => hfront f (hpre.subset hf)) hrun
  have hpos := List.length_pos_iff.mpr hne
  have hle := hpre.length_le
  rw [Bool.eq_false_iff, ne_eq, reached_iff hsum]
  omega

section Limit

variable {frames : List (List UInt8)} {rest file : List UInt8}
  (h : Parses itchCode frames rest file) {limit : ℤ}
include h

/-- With frames to spare the census stops behind the last one it counts. -/
theorem referenceCensus_reached (hreach : max 1 limit.toNat ≤ frames.length) :
    ∃ reference, ReferenceSummarises reference ((frames.take (max 1 limit.toNat)).map frameBody) ∧
      referenceCensus file (some limit) =
        .ok (reference, (frames.take (max 1 limit.toNat)).flatten.length, none) := by
  obtain ⟨n, hn⟩ : ∃ n, max 1 limit.toNat = n + 1 := ⟨max 1 limit.toNat - 1, by omega⟩
  have hlt : n < frames.length := by omega
  have htake : frames.take (max 1 limit.toNat) = frames.take n ++ [frames[n]] := by
    rw [hn, List.take_succ_eq_append_getElem hlt]
  have hfile : file = (frames.take n).flatten ++
      (frames[n] ++ ((frames.drop (n + 1)).flatten ++ rest)) := by
    have hcut : frames.flatten = (frames.take n).flatten ++
        (frames[n] ++ (frames.drop (n + 1)).flatten) := by
      rw [← List.flatten_cons, ← List.drop_eq_getElem_cons hlt, ← List.flatten_append,
        List.take_append_drop]
    rw [h.eq, hcut, List.append_assoc, List.append_assoc]
  have hfront : ∀ f ∈ frames.take n, IsFrame f := fun f hf => h.isWord f (List.mem_of_mem_take hf)
  have hlast : IsFrame frames[n] := h.isWord _ (List.getElem_mem hlt)
  have hshort : (frames.take n).length < max 1 limit.toNat := by
    rw [List.length_take]
    omega
  obtain ⟨counted, hcounted, hsum⟩ := run_reference hfront
  have hfinal := hsum.counted hlast.body_type
  rw [← List.map_singleton, ← List.map_append, ← htake] at hfinal
  have hstop : (counted.counted (frameType frames[n]) (frameBody frames[n])).reached
      (some limit) = true := by
    rw [reached_iff hfinal, List.length_take]
    omega
  refine ⟨_, hfinal, ?_⟩
  rw [referenceCensus, hfile, referenceLoop_frames hfront (below_limit hfront hshort)]
  change (run (fun s f => ReferenceCensus.countRecord [frameType f] (frameBody f) s) {}
    (frames.take n)).bind _ = _
  rw [hcounted]
  change referenceLoop _ _ _ _ counted = _
  rw [referenceLoop_frame hlast, scriptStep, countRecord_frame hlast]
  change (if _ = true then _ else _) = _
  rw [if_pos hstop, htake, List.flatten_append, List.length_append, Nat.zero_add,
    List.flatten_singleton]

/-- With fewer frames than that the limit does not matter. -/
theorem referenceCensus_unreached (hreach : ¬ max 1 limit.toNat ≤ frames.length) :
    ∃ reference, ReferenceSummarises reference (frames.map frameBody) ∧
      referenceCensus file (some limit) =
        .ok (reference, frames.flatten.length, leftover rest frames.flatten.length) := by
  obtain ⟨counted, hcounted, hsum⟩ := run_reference h.isWord
  refine ⟨counted, hsum, ?_⟩
  rw [referenceCensus, referenceLoop_session h (below_limit h.isWord (by omega))]
  change (run (fun s f => ReferenceCensus.countRecord [frameType f] (frameBody f) s) {}
    frames).map _ = _
  rw [hcounted, Nat.zero_add]
  rfl

/-- The census with a limit counts the first frames, one of them at least. -/
theorem referenceCensus_limit (limit : ℤ) :
    ∃ reference, ReferenceSummarises reference ((frames.take (max 1 limit.toNat)).map frameBody) ∧
      referenceCensus file (some limit) =
        .ok (reference, (frames.take (max 1 limit.toNat)).flatten.length,
          if max 1 limit.toNat ≤ frames.length then none
          else leftover rest frames.flatten.length) := by
  by_cases hreach : max 1 limit.toNat ≤ frames.length
  · rw [if_pos hreach]
    exact referenceCensus_reached h hreach
  · rw [if_neg hreach, List.take_of_length_le (by omega)]
    exact referenceCensus_unreached h hreach

end Limit

/-- A census with a limit counts what a census of the file cut behind its last record counts,
and the cut file frames to its end. It reports what the framer reports on the whole file, unless
the limit comes first; a limit below 1 counts one record. -/
theorem limited_census (file : List UInt8) (limit : ℤ) :
    ∃ reference consumed error outcome census whole full,
      referenceCensus file (some limit) = .ok (reference, consumed, error) ∧
      parseAll .relWithDebInfo SessionCensus.on (file.take consumed) {} = .ok (outcome, census) ∧
      outcome.complete = true ∧ outcome.bytesConsumed = consumed ∧
      SameCensus reference census ∧
      parseAll .relWithDebInfo SessionCensus.on file {} = .ok (whole, full) ∧
      reference.total = min (max 1 limit.toNat) whole.messages ∧
      error.map ReferenceError.framed =
        if max 1 limit.toNat ≤ whole.messages then none else whole.reported := by
  obtain ⟨frames, rest, h⟩ := parses_exists (C := itchCode) file
  obtain ⟨reference, hreference, hlimited⟩ := referenceCensus_limit h limit
  obtain ⟨full, -, hfull, -⟩ := censuses_run h
  have htaken : ∀ f ∈ frames.take (max 1 limit.toNat), IsFrame f :=
    fun f hf => h.isWord f (List.mem_of_mem_take hf)
  obtain ⟨census, hcensus, hsum⟩ := run_census htaken
  have hcut : file.take (frames.take (max 1 limit.toNat)).flatten.length =
      (frames.take (max 1 limit.toNat)).flatten := by
    have hfile : file = (frames.take (max 1 limit.toNat)).flatten ++
        ((frames.drop (max 1 limit.toNat)).flatten ++ rest) := by
      rw [h.eq, ← List.append_assoc, ← List.flatten_append, List.take_append_drop]
    rw [hfile, List.take_left]
  refine ⟨reference, _, _, sessionOutcome (frames.take (max 1 limit.toNat)).length
    (frames.take (max 1 limit.toNat)).flatten.length [], census,
    sessionOutcome frames.length frames.flatten.length rest, full, hlimited, ?_, rfl, rfl,
    same_census hreference hsum, hfull, ?_, ?_⟩
  · rw [hcut, parseAll_default SessionCensus.on (parses_flatten htaken), hcensus]
    rfl
  · rw [hreference.total, sessionOutcome_messages, List.length_map, List.length_take]
  · rw [sessionOutcome_messages, apply_ite (Option.map ReferenceError.framed), Option.map_none,
      (leftover_reported h.stuck frames.length frames.flatten.length).1]

/-- The book script on a session: what it makes of the frames, and where it stops. -/
theorem replay_frames {frames : List (List UInt8)} {rest file symbol : List UInt8}
    (h : Parses itchCode frames rest file) (hutf8 : IsUtf8 symbol) :
    replay file symbol =
      (run (scriptStep (Replay.onRecord (ljust 8 symbol))) {} frames).map fun state =>
        (state.book, state.resolved, leftover rest frames.flatten.length) := by
  rw [replay_utf8 hutf8, referenceLoop_session h fun _ _ _ _ _ => rfl, Nat.zero_add]
  cases run (scriptStep (Replay.onRecord (ljust 8 symbol))) {} frames with
  | error raised => rfl
  | ok state => rfl

/-- On any bytes and for any symbol the four tools stop alike. The two that parse reach the same
outcome; both scripts stop where the framer does, and their error stands for the check it reports.
Only an exception ends the book script earlier: one for a symbol that is not UTF-8, or else a
`KeyError` of its level maps. -/
theorem tools_stop_alike (file symbol : List UInt8) :
    ∃ outcome handler census reference error,
      parseAll .relWithDebInfo (BookReplayHandler.on .relWithDebInfo symbol) file {} =
        .ok (outcome, handler) ∧
      parseAll .relWithDebInfo SessionCensus.on file {} = .ok (outcome, census) ∧
      referenceCensus file none = .ok (reference, outcome.bytesConsumed, error) ∧
      (IsUtf8 symbol → (∃ book resolved, replay file symbol = .ok (book, resolved, error)) ∨
        replay file symbol = .error .keyError) ∧
      (¬ IsUtf8 symbol → replay file symbol = .error .unicodeEncodeError) ∧
      error.map ReferenceError.framed = outcome.reported ∧
      error.map ReferenceError.offset = outcome.error.map fun _ => outcome.errorOffset := by
  obtain ⟨frames, rest, h⟩ := parses_exists (C := itchCode) file
  obtain ⟨handler, hhandler, -⟩ :=
    BookReplayHandler.sound_fresh.run symbol (frames.map frameMessage)
  obtain ⟨census, reference, hcensus, hreference, -⟩ := censuses_run h
  obtain ⟨hreported, hoffset⟩ := leftover_reported h.stuck frames.length frames.flatten.length
  refine ⟨sessionOutcome frames.length frames.flatten.length rest, handler, census, reference,
    leftover rest frames.flatten.length, ?_, hcensus, ?_, ?_, fun hutf8 => replay_not_utf8 hutf8 _,
    hreported, hoffset⟩
  · rw [parseAll_default _ h, hhandler]
    rfl
  · rw [sessionOutcome_consumed, hreference]
  · intro hutf8
    have hends := run_replay h.isWord (ljust 8 symbol)
    rw [replay_frames h hutf8]
    cases hrun : run (scriptStep (Replay.onRecord (ljust 8 symbol))) {} frames with
    | error raised =>
      rw [hrun] at hends
      obtain rfl : raised = .keyError := hends
      exact Or.inr rfl
    | ok state => exact Or.inl ⟨state.book, state.resolved, rfl⟩

end Itch
