import ItchOrderbook.SessionFraming

/-!
# Framing across a split

A remainder cut short by the end of the buffer may become a frame when more
bytes arrive; a remainder that broke a rule never does. What has been framed
before either stays framed.
-/

namespace Itch

open ByteFields CheckedRuns PrefixCode

universe u

/-- The violations that more bytes can cure. -/
def FrameError.curable : FrameError → Bool
  | truncatedPrefix => true
  | truncatedRecord => true
  | zeroLength => false
  | unknownType => false
  | lengthMismatch => false

/-- The buffer was clean to its end, or only its end was missing. -/
def FrameOutcome.resumable (outcome : FrameOutcome) : Bool :=
  match outcome.error with
  | none => true
  | some error => error.curable

/-- The outcome of framing on from where `first` stopped, counted from its start. -/
def FrameOutcome.followedBy (first second : FrameOutcome) : FrameOutcome where
  messages := first.messages + second.messages
  bytesConsumed := first.bytesConsumed + second.bytesConsumed
  error := second.error
  errorOffset :=
    if second.error.isSome then first.bytesConsumed + second.errorOffset
    else second.errorOffset
  errorType := second.errorType

/-- Framing the file calls back with `calls`, in order, and returns `outcome`, whatever
the callback does. -/
def Delivers (file : List UInt8) (calls : List (UInt8 × List UInt8))
    (outcome : FrameOutcome) : Prop :=
  ∀ (σ : Type u) (onMessage : UInt8 → List UInt8 → σ → Except Fault σ) (s : σ),
    frameAll onMessage file s =
      (run (fun s call => onMessage call.1 call.2 s) s calls).map fun s => (outcome, s)

/-- A session read in chunks: the bytes not consumed are carried over to the next chunk,
and a violation that no byte can cure ends the reading. -/
def frameChunks {σ : Type u} (onMessage : UInt8 → List UInt8 → σ → Except Fault σ)
    (buffer : List UInt8) : List (List UInt8) → σ → Except Fault (FrameOutcome × σ)
  | [], s => frameAll onMessage buffer s
  | chunk :: chunks, s => do
    let (outcome, s) ← frameAll onMessage buffer s
    if outcome.resumable then
      let (more, s) ← frameChunks onMessage (buffer.drop outcome.bytesConsumed ++ chunk) chunks s
      return (outcome.followedBy more, s)
    else return (outcome, s)

/-- A violation that more bytes cannot cure stays, with its type, whatever follows. -/
theorem stuck_append {rest : List UInt8} (hstuck : Stuck itchCode rest)
    (hdefinite : (violation rest).1.curable = false) (more : List UInt8) :
    Stuck itchCode (rest ++ more) ∧ violation (rest ++ more) = violation rest := by
  rcases rest with _ | ⟨hi, _ | ⟨lo, body⟩⟩
  · cases hdefinite
  · cases hdefinite
  · simp only [List.cons_append, stuck_iff] at hstuck ⊢
    by_cases hzero : declaredLength hi lo = 0
    · simp [violation, hzero]
    by_cases hshort : body.length < declaredLength hi lo
    · simp [violation, hzero, hshort, FrameError.curable] at hdefinite
    have hfits : ¬ (body ++ more).length < declaredLength hi lo := by
      rw [List.length_append]
      omega
    have htype : charAt (body ++ more) 0 = charAt body 0 := by
      cases body with
      | nil =>
        rw [List.length_nil] at hshort
        omega
      | cons type tail => rfl
    constructor
    · rw [htype]
      exact hstuck.imp id (Or.imp (fun h => absurd h hshort) id)
    · simp only [violation, htype, if_neg hzero, if_neg hshort, if_neg hfits]

@[simp] theorem sessionOutcome_bytesConsumed (messages consumed : ℕ) (rest : List UInt8) :
    (sessionOutcome messages consumed rest).bytesConsumed = consumed := by
  unfold sessionOutcome
  split <;> rfl

theorem sessionOutcome_resumable {messages consumed : ℕ} {rest : List UInt8} :
    (sessionOutcome messages consumed rest).resumable = true ↔
      rest = [] ∨ (violation rest).1.curable = true := by
  by_cases hrest : rest = []
  · simp [sessionOutcome, FrameOutcome.resumable, hrest]
  · simp [sessionOutcome, FrameOutcome.resumable, hrest]

/-- Outcomes of consecutive cuts add up. -/
theorem sessionOutcome_followedBy (messages consumed messages' consumed' : ℕ)
    (before rest : List UInt8) :
    (sessionOutcome messages consumed before).followedBy
        (sessionOutcome messages' consumed' rest) =
      sessionOutcome (messages + messages') (consumed + consumed') rest := by
  by_cases hbefore : before = []
  · by_cases hrest : rest = []
    · simp [sessionOutcome, FrameOutcome.followedBy, hbefore, hrest]
    · simp [sessionOutcome, FrameOutcome.followedBy, hbefore, hrest]
  · by_cases hrest : rest = []
    · simp [sessionOutcome, FrameOutcome.followedBy, hbefore, hrest]
    · simp [sessionOutcome, FrameOutcome.followedBy, hbefore, hrest]

/-- The callback of a frame: its type byte and its body. -/
def callOf (f : List UInt8) : UInt8 × List UInt8 := (frameType f, frameBody f)

theorem delivers_of_parses {frames : List (List UInt8)} {rest file : List UInt8}
    (h : Parses itchCode frames rest file) :
    Delivers file (frames.map callOf)
      (sessionOutcome frames.length frames.flatten.length rest) := by
  intro σ onMessage s
  rw [run_map]
  exact frameAll_eq onMessage h s

/-- What framing has consumed are the frames; the rest of the buffer is the remainder. -/
theorem drop_consumed {frames : List (List UInt8)} {rest file : List UInt8}
    (h : Parses itchCode frames rest file) : file.drop frames.flatten.length = rest := by
  rw [h.eq]
  exact List.drop_left

/-- The cut of a longer buffer, when the remainder can still become a frame or was empty. -/
theorem delivers_resumed {frames frames' : List (List UInt8)} {rest rest' a b : List UInt8}
    (h : Parses itchCode frames rest a) (h' : Parses itchCode frames' rest' (rest ++ b)) :
    Delivers (a ++ b) (frames.map callOf ++ frames'.map callOf)
      ((sessionOutcome frames.length frames.flatten.length rest).followedBy
        (sessionOutcome frames'.length frames'.flatten.length rest')) := by
  have hwhole := delivers_of_parses (h.append h')
  rw [sessionOutcome_followedBy, ← List.map_append, ← List.length_append,
    ← List.length_append, ← List.flatten_append]
  exact hwhole

/-- The cut of a longer buffer, when the remainder is a violation for good. -/
theorem delivers_halted {frames : List (List UInt8)} {rest a : List UInt8}
    (h : Parses itchCode frames rest a)
    (hhalted : (sessionOutcome frames.length frames.flatten.length rest).resumable = false)
    (b : List UInt8) :
    Delivers (a ++ b) (frames.map callOf)
      (sessionOutcome frames.length frames.flatten.length rest) := by
  have hnot := mt sessionOutcome_resumable.mpr (Bool.eq_false_iff.mp hhalted)
  obtain ⟨hrest, hdefinite⟩ := not_or.mp hnot
  obtain ⟨hstuck, hsame⟩ := stuck_append h.stuck (Bool.eq_false_iff.mpr hdefinite) b
  have hwhole := delivers_of_parses (h.append (parses_stuck hstuck))
  have hmore : ¬ rest ++ b = [] := by simp [hrest]
  have houtcome : sessionOutcome frames.length frames.flatten.length (rest ++ b) =
      sessionOutcome frames.length frames.flatten.length rest := by
    simp only [sessionOutcome, if_neg hrest, if_neg hmore, hsame]
  rw [List.append_nil, houtcome] at hwhole
  exact hwhole

/-- Chunks framed one by one, carrying over the remainder, give what the whole gives. -/
theorem frameChunks_eq {σ : Type u} (onMessage : UInt8 → List UInt8 → σ → Except Fault σ)
    (buffer : List UInt8) (chunks : List (List UInt8)) (s : σ) :
    frameChunks onMessage buffer chunks s = frameAll onMessage (buffer ++ chunks.flatten) s := by
  induction chunks generalizing buffer s with
  | nil => simp [frameChunks]
  | cons chunk chunks ih =>
    obtain ⟨frames, rest, h⟩ := parses_exists (C := itchCode) buffer
    have hfirst := delivers_of_parses h σ onMessage s
    rw [frameChunks, hfirst, List.flatten_cons]
    cases hresumable : (sessionOutcome frames.length frames.flatten.length rest).resumable with
    | false =>
      have hwhole := delivers_halted h hresumable (chunk ++ chunks.flatten) σ onMessage s
      rw [hwhole]
      cases run (fun s call => onMessage call.1 call.2 s) s (frames.map callOf) with
      | error fault => rfl
      | ok s' =>
        simp only [Except.map, ok_bind, hresumable]
        rfl
    | true =>
      obtain ⟨frames', rest', h'⟩ :=
        parses_exists (C := itchCode) (rest ++ (chunk ++ chunks.flatten))
      have hwhole := delivers_resumed h h' σ onMessage s
      rw [hwhole, run_append]
      cases run (fun s call => onMessage call.1 call.2 s) s (frames.map callOf) with
      | error fault => rfl
      | ok s' =>
        have hmore := delivers_of_parses h' σ onMessage s'
        have hcarried : buffer.drop frames.flatten.length ++ chunk ++ chunks.flatten =
            rest ++ (chunk ++ chunks.flatten) := by
          rw [drop_consumed h, List.append_assoc]
        simp only [Except.map, Except.bind, ok_bind, hresumable, sessionOutcome_bytesConsumed,
          if_true, ih, hcarried, hmore]
        cases run (fun s call => onMessage call.1 call.2 s) s' (frames'.map callOf) with
        | error fault => rfl
        | ok s'' => rfl

/-- Framing resumes across any split. While the end of the first part was the only thing
missing, framing the whole calls back as for the first part and then as for what it left
over with the second part, and the outcomes add up; after any other violation the second
part changes nothing. A session read in chunks is therefore the session read whole. -/
theorem framing_resumes (a b : List UInt8) :
    (∃ calls outcome, Delivers.{u} a calls outcome ∧
      (outcome.resumable = true →
        ∃ calls' outcome', Delivers.{u} (a.drop outcome.bytesConsumed ++ b) calls' outcome' ∧
          Delivers.{u} (a ++ b) (calls ++ calls') (outcome.followedBy outcome')) ∧
      (outcome.resumable = false → Delivers.{u} (a ++ b) calls outcome)) ∧
    ∀ {σ : Type u} (onMessage : UInt8 → List UInt8 → σ → Except Fault σ)
      (chunks : List (List UInt8)) (s : σ),
      frameChunks onMessage a chunks s = frameAll onMessage (a ++ chunks.flatten) s := by
  refine ⟨?_, fun onMessage chunks s => frameChunks_eq onMessage a chunks s⟩
  obtain ⟨frames, rest, h⟩ := parses_exists (C := itchCode) a
  refine ⟨_, _, delivers_of_parses h, ?_, fun hhalted => delivers_halted h hhalted b⟩
  intro _
  obtain ⟨frames', rest', h'⟩ := parses_exists (C := itchCode) (rest ++ b)
  refine ⟨frames'.map callOf, _, ?_, delivers_resumed h h'⟩
  rw [sessionOutcome_bytesConsumed, drop_consumed h]
  exact delivers_of_parses h'

end Itch
