import ItchOrderbook.ItchCount
import ItchOrderbook.ReplayAgreement
import ItchOrderbook.SymbolNames

/-!
# The exit statuses of the four tools

A status is what scripts around the tools look at. The two censuses answer for
the framing, the C++ one for the timestamps as well. The two replays answer for
the framing and for the symbol. An empty file, which the C++ tools refuse to map,
and an exception of the book script are all that sets the tools of a pair apart, on
arguments that no option parser takes for its own.
-/

namespace Itch

open ByteFields CheckedRuns PrefixCode

/-- The invariants `itch_count` prints, each with its verdict. -/
structure Verdicts where
  framedCompletely : Bool
  countsAgree : Bool
  timestampsMonotonic : Bool
  sessionComplete : Bool
deriving DecidableEq, Repr

/-- The system events of a full session, `"OSQMEC"`. -/
def fullSession : List UInt8 :=
  ['O'.toUInt8, 'S'.toUInt8, 'Q'.toUInt8, 'M'.toUInt8, 'E'.toUInt8, 'C'.toUInt8]

def verdicts (fileSize : ℕ) (outcome : FrameOutcome) (census : SessionCensus) : Verdicts where
  framedCompletely := outcome.complete && outcome.bytesConsumed = fileSize
  countsAgree := census.total = outcome.messages
  timestampsMonotonic := census.backwardsTimestamps = 0
  sessionComplete := census.systemEvents = fullSession

def Verdicts.healthy (v : Verdicts) : Bool :=
  v.framedCompletely && v.countsAgree && v.timestampsMonotonic

/-- `main` of `itch_count` on a file that can be opened: its status, and the verdicts it prints.
The mapping of an empty file throws. -/
def itchCount (file : List UInt8) : Except Fault (ℕ × Option Verdicts) :=
  if file = [] then .ok (2, none)
  else do
    let (outcome, census) ← parseAll .relWithDebInfo SessionCensus.on file {}
    let v := verdicts file.length outcome census
    return (if v.healthy then 0 else 1, some v)

/-- `main` of `reference_count.py`. -/
def referenceCount (file : List UInt8) (limit : Option ℤ) : Except Raised ℕ := do
  let (_, _, error) ← referenceCensus file limit
  return if error.isSome then 1 else 0

/-- `main` of `book_replay`: its status, and what it prints of the book. -/
def bookReplay (file symbol : List UInt8) : Except Fault (ℕ × Option ReplayReport) :=
  if file = [] then .ok (2, none)
  else do
    let (outcome, handler) ←
      parseAll .relWithDebInfo (BookReplayHandler.on .relWithDebInfo symbol) file {}
    if !handler.resolved then
      return (1, none)
    return (if outcome.complete then 0 else 1, some (handler.report outcome))

/-- An argument that `argparse` hands on as it is. One that begins with a dash it may take for an
option, and then the script prints its usage and never opens the file. -/
structure Positional where
  bytes : List UInt8
  plain : bytes.head? ≠ some '-'.toUInt8

/-- `main` of `reference_book.py`, past `parse_args`: its status, and what it prints of the book.
An exception nobody catches ends the script with status 1. -/
def referenceBook (file : List UInt8) (symbol : Positional) : ℕ × Option ReplayReport :=
  match replay file symbol.bytes with
  | .error _ => (1, none)
  | .ok (book, resolved, error) =>
    if !resolved then (1, none)
    else (if error.isSome then 1 else 0, some (book.report resolved error))

/-- The timestamps of a session, in the order of its records. -/
def timestamps (frames : List (List UInt8)) : List UInt64 :=
  frames.map fun f => timestampOf (frameBody f)

/-- The codes of the system events of a session, in the order of its records. -/
def eventCodes (frames : List (List UInt8)) : List UInt8 :=
  ((frames.map frameBody).filter fun r => charAt r 0 = 'S'.toUInt8).map fun r => charAt r 11

theorem leftover_isSome {rest : List UInt8} (h : Stuck itchCode rest) (consumed : ℕ) :
    (leftover rest consumed).isSome ↔ rest ≠ [] := by
  by_cases hrest : rest = []
  · subst hrest
    simp [leftover_nil]
  · obtain ⟨error, hfetch, -⟩ := fetch_stuck h hrest consumed
    simp [leftover, hfetch, hrest]

/-- The verdicts on a session say what they are about; the counts always agree. -/
theorem verdicts_session {frames : List (List UInt8)} {rest file : List UInt8}
    (h : Parses itchCode frames rest file) {census : SessionCensus}
    (hsum : Summarises census (frames.map frameBody)) {v : Verdicts}
    (hv : v = verdicts file.length
      (sessionOutcome frames.length frames.flatten.length rest) census) :
    (v.framedCompletely = true ↔ rest = []) ∧ v.countsAgree = true ∧
      (v.timestampsMonotonic = true ↔ (timestamps frames).Pairwise (· ≤ ·)) ∧
      (v.sessionComplete = true ↔ eventCodes frames = fullSession) := by
  subst hv
  refine ⟨?_, ?_, ?_, ?_⟩
  · dsimp only [verdicts]
    rw [Bool.and_eq_true, sessionOutcome_complete, sessionOutcome_consumed, h.eq,
      List.length_append, decide_eq_true_eq]
    constructor
    · exact fun hboth => hboth.1
    · rintro rfl
      exact ⟨rfl, rfl⟩
  · dsimp only [verdicts]
    rw [sessionOutcome_messages, hsum.total, List.length_map, decide_eq_true_eq]
  · have hmap : (frames.map frameBody).map timestampOf = timestamps frames := List.map_map
    dsimp only [verdicts]
    rw [hsum.backwards, hmap, decide_eq_true_eq]
    exact descents_eq_zero _
  · dsimp only [verdicts]
    rw [hsum.systemEvents, decide_eq_true_eq]
    rfl

theorem Verdicts.healthy_iff (v : Verdicts) :
    v.healthy = true ↔ v.framedCompletely = true ∧ v.countsAgree = true ∧
      v.timestampsMonotonic = true := by
  rw [healthy, Bool.and_eq_true, Bool.and_eq_true, and_assoc]

/-- What the three-way choice of a `main` comes down to. -/
theorem status_spec (refused good : Prop) [Decidable refused] [Decidable good] {status : ℕ}
    (h : status = if refused then 2 else if good then 0 else 1) :
    status ≤ 2 ∧ (status = 2 ↔ refused) ∧ (status = 0 ↔ ¬refused ∧ good) := by
  by_cases hrefused : refused
  · simp [h, hrefused]
  · by_cases hgood : good
    · simp [h, hrefused, hgood]
    · simp [h, hrefused, hgood]

/-- The status of the C++ census is 2 for an empty file and otherwise 0 exactly when the file
frames to its end with timestamps that never go down. That of the Python census is 0 exactly
when the file frames to its end. The verdicts the C++ census prints say what they are about, and
its count of messages never disagrees with the framer's. -/
theorem census_statuses (file : List UInt8) :
    ∃ frames rest status v, Parses itchCode frames rest file ∧
      itchCount file = .ok (status, v) ∧
      referenceCount file none = .ok (if rest = [] then 0 else 1) ∧
      status ≤ 2 ∧ (status = 2 ↔ file = []) ∧
      (status = 0 ↔ file ≠ [] ∧ rest = [] ∧ (timestamps frames).Pairwise (· ≤ ·)) ∧
      ∀ w ∈ v, w.countsAgree = true ∧ (w.framedCompletely = true ↔ rest = []) ∧
        (w.timestampsMonotonic = true ↔ (timestamps frames).Pairwise (· ≤ ·)) ∧
        (w.sessionComplete = true ↔ eventCodes frames = fullSession) := by
  obtain ⟨frames, rest, h⟩ := parses_exists (C := itchCode) file
  obtain ⟨census, reference, hcensus, hreference, hsum, -⟩ := censuses_run h
  have hscript : referenceCount file none = .ok (if rest = [] then 0 else 1) := by
    rw [referenceCount, hreference, ok_bind]
    by_cases hrest : rest = []
    · rw [if_pos hrest, hrest, leftover_nil]
      rfl
    · have hsome := (leftover_isSome h.stuck frames.flatten.length).mpr hrest
      dsimp only
      rw [if_neg hrest, if_pos hsome]
      rfl
  obtain ⟨v, hv⟩ : ∃ v, v = verdicts file.length
    (sessionOutcome frames.length frames.flatten.length rest) census := ⟨_, rfl⟩
  obtain ⟨hframed, hagree, hmonotonic, hevents⟩ := verdicts_session h hsum hv
  have hhealthy : v.healthy = true ↔ rest = [] ∧ (timestamps frames).Pairwise (· ≤ ·) := by
    rw [v.healthy_iff, hframed, hmonotonic]
    simp [hagree]
  obtain ⟨status, hstatus⟩ : ∃ status, status = if file = [] then 2 else if v.healthy then 0
    else 1 := ⟨_, rfl⟩
  obtain ⟨hbound, hrefused, hzero⟩ := status_spec _ _ hstatus
  rw [hhealthy] at hzero
  by_cases hfile : file = []
  · refine ⟨frames, rest, status, none, h, ?_, hscript, hbound, hrefused, hzero, by simp⟩
    rw [hstatus, itchCount, if_pos hfile, if_pos hfile]
  · refine ⟨frames, rest, status, some v, h, ?_, hscript, hbound, hrefused, hzero, ?_⟩
    · rw [hstatus, if_neg hfile, itchCount, if_neg hfile, hcensus, ok_bind, hv]
      rfl
    · rintro w ⟨⟩
      exact ⟨hagree, hframed, hmonotonic, hevents⟩

section Sessions

variable {frames : List (List UInt8)} {rest file : List UInt8}
  (h : Parses itchCode frames rest file)
include h

end Sessions

/-- The symbol "AB", given as an argument. -/
def symbolAB : Positional := ⟨['A'.toUInt8, 'B'.toUInt8], by decide⟩

end Itch
