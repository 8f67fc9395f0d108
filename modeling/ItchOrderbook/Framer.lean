import ItchOrderbook.Memory
import ItchOrderbook.MessageTable

/-!
# BinaryFILE framing

Every message is preceded by a two-byte big-endian length. `frameAll` walks a
buffer as consecutive records and stops at the first violation. The callback
threads a state of its own and may fault.
-/

namespace Itch

open ByteFields

inductive FrameError
  | truncatedPrefix
  | zeroLength
  | truncatedRecord
  | unknownType
  | lengthMismatch
deriving DecidableEq, Repr

structure FrameOutcome where
  messages : ℕ := 0
  bytesConsumed : ℕ := 0
  error : Option FrameError := none
  errorOffset : ℕ := 0
  errorType : UInt8 := 0
deriving DecidableEq, Repr

def FrameOutcome.complete (outcome : FrameOutcome) : Bool := !outcome.error.isSome

/-- What one pass of the loop finds at its offset. -/
inductive Framed
  | violation (error : FrameError) (type : UInt8)
  | record (type : UInt8) (record : List UInt8) (declared : UInt16)
deriving DecidableEq, Repr

/-- The checks of the loop body, in the order of the source. -/
def frameAt (file : List UInt8) (offset : ℕ) : Except Fault Framed := do
  let remaining ← sizeSub file.length offset
  if remaining < 2 then
    return .violation .truncatedPrefix 0
  let hi ← byteAt file offset
  let lo ← byteAt file (offset + 1)
  let declared : UInt16 := ((hi.toUInt32 <<< 8) ||| lo.toUInt32).toUInt16
  if declared = 0 then
    return .violation .zeroLength 0
  let left ← sizeSub file.length offset
  let available ← sizeSub left 2
  if available < declared.toNat then
    return .violation .truncatedRecord 0
  let record ← subspan file (offset + 2) declared.toNat
  let type ← byteAt record 0
  let expected := specMessageLength type
  if expected = 0 then
    return .violation .unknownType type
  if expected ≠ declared then
    return .violation .lengthMismatch type
  return .record type record declared

variable {σ : Type*}

/-- `while (offset < file.size())`. -/
def frameLoop (onMessage : UInt8 → List UInt8 → σ → Except Fault σ) (file : List UInt8)
    (offset : ℕ) (outcome : FrameOutcome) (state : σ) : Except Fault (FrameOutcome × σ) :=
  if offset < file.length then
    match frameAt file offset with
    | .error fault => .error fault
    | .ok (.violation error type) =>
      .ok ({ outcome with error := some error, errorOffset := offset, errorType := type }, state)
    | .ok (.record type record declared) =>
      match onMessage type record state with
      | .error fault => .error fault
      | .ok state =>
        let next := offset + (2 + declared.toNat)
        frameLoop onMessage file next
          { outcome with messages := outcome.messages + 1, bytesConsumed := next } state
  else .ok (outcome, state)
termination_by file.length - offset

def frameAll (onMessage : UInt8 → List UInt8 → σ → Except Fault σ) (file : List UInt8)
    (state : σ) : Except Fault (FrameOutcome × σ) :=
  frameLoop onMessage file 0 {} state

/-- The length a two-byte prefix declares. -/
def declaredLength (hi lo : UInt8) : ℕ := 256 * hi.toNat + lo.toNat

/-- The same checks on the bytes from the offset on, with no access left to check. -/
def headFrame : List UInt8 → Framed
  | hi :: lo :: type :: tail =>
    if declaredLength hi lo = 0 then .violation .zeroLength 0
    else if tail.length + 1 < declaredLength hi lo then .violation .truncatedRecord 0
    else if specMessageLength type = 0 then .violation .unknownType type
    else if (specMessageLength type).toNat ≠ declaredLength hi lo then
      .violation .lengthMismatch type
    else .record type ((type :: tail).take (declaredLength hi lo)) (specMessageLength type)
  | [hi, lo] =>
    if declaredLength hi lo = 0 then .violation .zeroLength 0
    else .violation .truncatedRecord 0
  | _ => .violation .truncatedPrefix 0

theorem declared_toNat (hi lo : UInt8) :
    ((hi.toUInt32 <<< 8) ||| lo.toUInt32).toUInt16.toNat = declaredLength hi lo := by
  have hhi := hi.toNat_lt
  have hlo := lo.toNat_lt
  have hshift : (hi.toUInt32 <<< 8).toNat = 2 ^ 8 * hi.toNat := by
    simp only [UInt32.toNat_shiftLeft, UInt8.toNat_toUInt32, UInt32.reduceToNat,
      Nat.shiftLeft_eq, Nat.reduceMod, Nat.reducePow]
    omega
  rw [UInt32.toNat_toUInt16, UInt32.toNat_or, hshift, UInt8.toNat_toUInt32,
    ← Nat.two_pow_add_eq_or_of_lt hlo, declaredLength]
  omega

/-- No access of the loop body faults, and it decides by the bytes from the offset on. -/
theorem frameAt_eq {file : List UInt8} {offset : ℕ} (h : offset < file.length) :
    frameAt file offset = .ok (headFrame (file.drop offset)) := by
  have hpos : 0 < (file.drop offset).length := by
    rw [List.length_drop]
    omega
  have hremaining : sizeSub file.length offset = .ok (file.drop offset).length := by
    rw [sizeSub_ok (by omega), List.length_drop]
  have hbyte : byteAt file offset = byteAt (file.drop offset) 0 := byteAt_drop file offset 0
  simp only [frameAt, hremaining, hbyte, byteAt_drop file offset 1,
    subspan_drop (Nat.le_of_lt h), ok_bind]
  generalize file.drop offset = rest at hpos ⊢
  match rest with
  | [] => exact absurd hpos (by simp)
  | [hi] => rfl
  | hi :: lo :: tail =>
    have hhi : byteAt (hi :: lo :: tail) 0 = .ok hi := rfl
    have hlo : byteAt (hi :: lo :: tail) 1 = .ok lo := rfl
    have hlen : ¬ (hi :: lo :: tail).length < 2 := by simp
    have havailable : sizeSub (hi :: lo :: tail).length 2 = .ok tail.length := by
      rw [sizeSub_ok (by simp)]
      simp
    have hdeclared := declared_toNat hi lo
    simp only [if_neg hlen, hhi, hlo, havailable, ok_bind]
    generalize ((hi.toUInt32 <<< 8) ||| lo.toUInt32).toUInt16 = declared at hdeclared ⊢
    have hzero : declared = 0 ↔ declaredLength hi lo = 0 := by
      rw [← hdeclared, ← UInt16.toNat_inj]
      rfl
    simp only [hdeclared, hzero]
    cases tail with
    | nil =>
      by_cases h0 : declaredLength hi lo = 0
      · simp only [headFrame, if_pos h0]
        rfl
      · have hshort : ([] : List UInt8).length < declaredLength hi lo := by
          simp only [List.length_nil]
          omega
        simp only [headFrame, if_neg h0, if_pos hshort]
        rfl
    | cons type tail =>
      by_cases h0 : declaredLength hi lo = 0
      · simp only [headFrame, if_pos h0]
        rfl
      by_cases hshort : tail.length + 1 < declaredLength hi lo
      · simp only [headFrame, if_neg h0, List.length_cons, if_pos hshort]
        rfl
      have hrecord : subspan (hi :: lo :: type :: tail) 2 (declaredLength hi lo) =
          .ok ((type :: tail).take (declaredLength hi lo)) := by
        rw [subspan_ok (by simp only [List.length_cons]; omega)]
        rfl
      have htype : byteAt ((type :: tail).take (declaredLength hi lo)) 0 = .ok type := by
        apply byteAt_ok
        rw [List.getElem?_take_of_lt (by omega)]
        rfl
      simp only [headFrame, if_neg h0, List.length_cons, if_neg hshort, hrecord, htype, ok_bind]
      by_cases hknown : specMessageLength type = 0
      · simp only [if_pos hknown]
        rfl
      by_cases hmatch : (specMessageLength type).toNat = declaredLength hi lo
      · have hsame : specMessageLength type = declared := by
          rw [← UInt16.toNat_inj, hmatch, hdeclared]
        simp only [if_neg hknown, if_neg (not_not.mpr hmatch), if_neg (not_not.mpr hsame)]
        rw [hsame]
        rfl
      · have hdiffer : specMessageLength type ≠ declared := by
          rintro rfl
          exact hmatch hdeclared
        simp only [if_neg hknown, if_pos hmatch, if_pos hdiffer]
        rfl

end Itch
