import ItchOrderbook.CheckedRuns
import ItchOrderbook.Framer
import ItchOrderbook.PrefixCode

/-!
# What framing delivers from a whole buffer

Frames form a prefix code: the two length bytes and the type byte decide where
a frame ends. A buffer therefore has one cut into frames and a remainder that
no frame begins, and the loop of `frameAll` walks exactly that cut.
-/

namespace Itch

open ByteFields CheckedRuns PrefixCode

universe u

/-- A length prefix `L` followed by `L` bytes whose first one is a type of length `L`.
The type byte is there, so `L` is not zero. -/
def IsFrame (f : List UInt8) : Prop :=
  ∃ hi lo type tail, f = hi :: lo :: type :: tail ∧
    (type :: tail).length = declaredLength hi lo ∧
    (specMessageLength type).toNat = declaredLength hi lo

/-- The type byte of a frame, behind its prefix. -/
def frameType (f : List UInt8) : UInt8 := charAt f 2

/-- The record of a frame, without its prefix. -/
def frameBody (f : List UInt8) : List UInt8 := f.drop 2

/-- Frames as a prefix code over bytes. -/
def itchCode : Code UInt8 where
  Word := IsFrame
  nonempty := by
    rintro w ⟨hi, lo, type, tail, rfl, _⟩
    simp
  prefixFree := by
    rintro u v ⟨hi, lo, type, tail, rfl, hlen, _⟩ ⟨hi', lo', type', tail', rfl, hlen', _⟩ hpre
    obtain ⟨more, hmore⟩ := hpre
    simp only [List.cons_append, List.cons.injEq] at hmore
    obtain ⟨rfl, rfl, rfl, rfl⟩ := hmore
    have hnil : more = [] := by
      rw [← List.length_eq_zero_iff]
      simp only [List.length_cons, List.length_append] at hlen hlen'
      omega
    simp [hnil]

/-- The first check that a remainder fails, with the type byte when one was read. -/
def violation : List UInt8 → FrameError × UInt8
  | hi :: lo :: body =>
    if declaredLength hi lo = 0 then (.zeroLength, 0)
    else if body.length < declaredLength hi lo then (.truncatedRecord, 0)
    else if specMessageLength (charAt body 0) = 0 then (.unknownType, charAt body 0)
    else (.lengthMismatch, charAt body 0)
  | _ => (.truncatedPrefix, 0)

/-- The outcome after `messages` frames of `consumed` bytes, with `rest` left over. -/
def sessionOutcome (messages consumed : ℕ) (rest : List UInt8) : FrameOutcome :=
  if rest = [] then { messages, bytesConsumed := consumed }
  else
    { messages, bytesConsumed := consumed, error := some (violation rest).1,
      errorOffset := consumed, errorType := (violation rest).2 }

theorem IsFrame.length {f : List UInt8} (h : IsFrame f) :
    f.length = 2 + (specMessageLength (frameType f)).toNat := by
  obtain ⟨hi, lo, type, tail, rfl, hlen, hspec⟩ := h
  have htype : frameType (hi :: lo :: type :: tail) = type := rfl
  rw [htype, hspec, ← hlen, List.length_cons, List.length_cons]
  omega

theorem IsFrame.body_length {f : List UInt8} (h : IsFrame f) :
    (frameBody f).length = (specMessageLength (frameType f)).toNat := by
  rw [frameBody, List.length_drop, h.length]
  omega

theorem IsFrame.specified {f : List UInt8} (h : IsFrame f) :
    specMessageLength (frameType f) ≠ 0 := by
  obtain ⟨hi, lo, type, tail, rfl, hlen, hspec⟩ := h
  have htype : frameType (hi :: lo :: type :: tail) = type := rfl
  intro hzero
  rw [htype] at hzero
  rw [hzero, ← hlen] at hspec
  simp at hspec

/-- The body of a frame begins with its type byte. -/
theorem IsFrame.body_type {f : List UInt8} (h : IsFrame f) :
    charAt (frameBody f) 0 = frameType f := by
  obtain ⟨hi, lo, type, tail, rfl, _, _⟩ := h
  rfl

/-- A frame at the front passes every check of the loop body. -/
theorem headFrame_frame {f : List UInt8} (h : IsFrame f) (more : List UInt8) :
    headFrame (f ++ more) =
      .record (frameType f) (frameBody f) (specMessageLength (frameType f)) := by
  have hknown := h.specified
  obtain ⟨hi, lo, type, tail, rfl, hlen, hspec⟩ := h
  have htype : frameType (hi :: lo :: type :: tail) = type := rfl
  rw [htype] at hknown ⊢
  have hnonzero : ¬ declaredLength hi lo = 0 := by
    rw [← hlen]
    simp
  have hfits : ¬ (tail ++ more).length + 1 < declaredLength hi lo := by
    rw [← hlen, List.length_append, List.length_cons]
    omega
  have hbody : (type :: (tail ++ more)).take (declaredLength hi lo) = type :: tail := by
    rw [← hlen, ← List.cons_append]
    exact List.take_left
  simp only [List.cons_append, headFrame, if_neg hnonzero, if_neg hfits, if_neg hknown,
    if_neg (not_not.mpr hspec), hbody]
  rfl

/-- Two bytes and a body are stuck when the prefix is zero, when the body is short, or
when the type is not of the declared length. -/
theorem stuck_iff (hi lo : UInt8) (body : List UInt8) :
    Stuck itchCode (hi :: lo :: body) ↔
      declaredLength hi lo = 0 ∨ body.length < declaredLength hi lo ∨
        (specMessageLength (charAt body 0)).toNat ≠ declaredLength hi lo := by
  constructor
  · intro hstuck
    by_contra hok
    simp only [not_or, not_lt, not_not] at hok
    obtain ⟨hnonzero, hfits, hspec⟩ := hok
    cases body with
    | nil =>
      rw [List.length_nil] at hfits
      omega
    | cons type tail =>
      -- the declared bytes behind the prefix are a frame
      refine hstuck (hi :: lo :: (type :: tail).take (declaredLength hi lo)) ?_ ?_
      · obtain ⟨n, hn⟩ := Nat.exists_eq_succ_of_ne_zero hnonzero
        refine ⟨hi, lo, type, tail.take n, by simp [hn], ?_, hspec⟩
        simp only [List.length_cons, List.length_take] at hfits ⊢
        omega
      · exact ⟨(type :: tail).drop (declaredLength hi lo), by simp⟩
  · rintro hbad f ⟨hi', lo', type, tail, rfl, hlen, hspec⟩ ⟨more, hmore⟩
    simp only [List.cons_append, List.cons.injEq] at hmore
    obtain ⟨rfl, rfl, rfl⟩ := hmore
    rcases hbad with hzero | hshort | hmismatch
    · rw [List.length_cons] at hlen
      omega
    · simp only [List.length_cons, List.length_append] at hlen hshort
      omega
    · exact hmismatch hspec

/-- A remainder that no frame begins fails one of the checks, and the first one it fails
is the one reported. -/
theorem headFrame_stuck {rest : List UInt8} (h : Stuck itchCode rest) :
    headFrame rest = .violation (violation rest).1 (violation rest).2 := by
  match rest with
  | [] => rfl
  | [hi] => rfl
  | [hi, lo] =>
    by_cases hzero : declaredLength hi lo = 0
    · simp only [headFrame, violation, if_pos hzero]
    · have hshort : ([] : List UInt8).length < declaredLength hi lo := by
        rw [List.length_nil]
        omega
      simp only [headFrame, violation, if_neg hzero, if_pos hshort]
  | hi :: lo :: type :: tail =>
    have htype : charAt (type :: tail) 0 = type := rfl
    by_cases hzero : declaredLength hi lo = 0
    · simp only [headFrame, violation, if_pos hzero]
    by_cases hshort : tail.length + 1 < declaredLength hi lo
    · simp only [headFrame, violation, List.length_cons, if_neg hzero, if_pos hshort]
    by_cases hknown : specMessageLength type = 0
    · simp only [headFrame, violation, List.length_cons, htype, if_neg hzero, if_neg hshort,
        if_pos hknown]
    have hmismatch : (specMessageLength type).toNat ≠ declaredLength hi lo := by
      rcases (stuck_iff hi lo (type :: tail)).mp h with hbad | hbad | hbad
      · exact absurd hbad hzero
      · exact absurd hbad hshort
      · exact hbad
    simp only [headFrame, violation, List.length_cons, htype, if_neg hzero, if_neg hshort,
      if_neg hknown, if_pos hmismatch]

section Loop

variable {σ : Type u} (onMessage : UInt8 → List UInt8 → σ → Except Fault σ)

/-- One call of the callback, with the type byte and the body of a frame. -/
def deliver (s : σ) (f : List UInt8) : Except Fault σ :=
  onMessage (frameType f) (frameBody f) s

/-- The loop walks the cut of what is left, calling back once for each frame. The
induction is on the frames; `bytesConsumed` is the offset at every pass. -/
theorem frameLoop_eq {frames : List (List UInt8)} {rest stream : List UInt8}
    (h : Parses itchCode frames rest stream) (before : List UInt8) (messages : ℕ) (s : σ) :
    frameLoop onMessage (before ++ stream) before.length
        { messages, bytesConsumed := before.length } s =
      (run (deliver onMessage) s frames).map fun s =>
        (sessionOutcome (messages + frames.length) (before.length + frames.flatten.length) rest,
          s) := by
  induction frames generalizing stream before messages s with
  | nil =>
    have hstream : stream = rest := h.eq
    subst hstream
    rw [frameLoop]
    by_cases hnil : stream = []
    · subst hnil
      simp [sessionOutcome, run, Except.map]
    · have hlt : before.length < (before ++ stream).length := by
        have hpos := List.length_pos_iff.mpr hnil
        rw [List.length_append]
        omega
      rw [if_pos hlt, frameAt_eq hlt, List.drop_left, headFrame_stuck h.stuck]
      simp [sessionOutcome, hnil, run, Except.map]
  | cons f frames ih =>
    have hf : IsFrame f := h.isWord f List.mem_cons_self
    have hstream : stream = f ++ (frames.flatten ++ rest) := by
      rw [h.eq, List.flatten_cons, List.append_assoc]
    subst hstream
    have hlt : before.length < (before ++ (f ++ (frames.flatten ++ rest))).length := by
      simp only [List.length_append, hf.length]
      omega
    have hnext : before.length + (2 + (specMessageLength (frameType f)).toNat) =
        (before ++ f).length := by
      rw [List.length_append, hf.length]
    rw [frameLoop, if_pos hlt, frameAt_eq hlt, List.drop_left, headFrame_frame hf]
    simp only [hnext]
    cases hcall : onMessage (frameType f) (frameBody f) s with
    | error fault =>
      rw [run_cons_error (by exact hcall)]
      rfl
    | ok s' =>
      have hrest := ih h.tail (before ++ f) (messages + 1) s'
      rw [List.append_assoc] at hrest
      have hcount : messages + 1 + frames.length = messages + (f :: frames).length := by
        rw [List.length_cons]
        omega
      have hbytes : (before ++ f).length + frames.flatten.length =
          before.length + (f :: frames).flatten.length := by
        simp only [List.length_append, List.flatten_cons]
        omega
      simp only
      rw [hrest, run_cons_ok (by exact hcall), hcount, hbytes]

/-- `frameAll` is a run of the callback over the frames of the buffer. -/
theorem frameAll_eq {frames : List (List UInt8)} {rest file : List UInt8}
    (h : Parses itchCode frames rest file) (s : σ) :
    frameAll onMessage file s =
      (run (deliver onMessage) s frames).map fun s =>
        (sessionOutcome frames.length frames.flatten.length rest, s) := by
  have hloop := frameLoop_eq onMessage h [] 0 s
  simpa [frameAll] using hloop

end Loop

/-- The buffer has exactly one cut into frames and a remainder that no frame begins.
Framing calls back once for each frame, in order, with its type byte and body, and the
outcome counts them; it is clean exactly when nothing is left over, and otherwise reports
the first check the remainder fails, at the offset where it starts. -/
theorem frameAll_delivers_longest_cut (file : List UInt8) :
    (∃! cut : List (List UInt8) × List UInt8, Parses itchCode cut.1 cut.2 file) ∧
    ∀ frames rest, Parses itchCode frames rest file →
      ∃ outcome : FrameOutcome,
        (∀ {σ : Type u} (onMessage : UInt8 → List UInt8 → σ → Except Fault σ) (s : σ),
          frameAll onMessage file s =
            (run (fun s f => onMessage (frameType f) (frameBody f) s) s frames).map
              fun s => (outcome, s)) ∧
        outcome.messages = frames.length ∧
        outcome.bytesConsumed = (frames.map List.length).sum ∧
        (outcome.error = none ↔ rest = []) ∧
        (rest ≠ [] → outcome.errorOffset = outcome.bytesConsumed ∧
          outcome.error = some (violation rest).1 ∧ outcome.errorType = (violation rest).2) := by
  refine ⟨parses_existsUnique file, fun frames rest h => ?_⟩
  refine ⟨sessionOutcome frames.length frames.flatten.length rest,
    fun onMessage s => frameAll_eq onMessage h s, ?_⟩
  by_cases hrest : rest = []
  · simp [sessionOutcome, hrest, List.length_flatten]
  · simp [sessionOutcome, hrest, List.length_flatten]

end Itch
