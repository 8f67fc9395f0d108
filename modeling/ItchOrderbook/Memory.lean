import ItchOrderbook.ByteFields

/-!
# Spans, asserts and faults

What the C++ leaves undefined is a fault here: a read outside a span, a
`size_t` subtraction below zero, a dereference of a stale position. An `assert`
faults in the debug build only; the default RelWithDebInfo build compiles it out.
-/

namespace Itch

open ByteFields

universe u v

/-- The two ways CMake builds the library: asserts compiled out, or kept. -/
inductive Build
  | relWithDebInfo
  | debug
deriving DecidableEq, Repr

/-- The asserts of the library that speak about its inputs. -/
inductive Assertion
  | recordLength
  | validSide
  | reductionFitsOrder
  | locateSetOnce
  | locateNotSentinel
deriving DecidableEq, Repr

inductive Fault
  | outOfRange
  | unsignedWrap
  | staleLevel
  | stalePosition
  | assertion (failed : Assertion)
deriving DecidableEq, Repr

/-- `assert(condition)`: nothing at all in the default build. -/
def cassert (build : Build) (name : Assertion) (condition : Bool) : Except Fault Unit :=
  match build with
  | .relWithDebInfo => .ok ()
  | .debug => if condition then .ok () else .error (.assertion name)

/-- A `size_t` subtraction, which must not wrap. -/
def sizeSub (a b : ℕ) : Except Fault ℕ :=
  if b ≤ a then .ok (a - b) else .error .unsignedWrap

/-- `file.subspan(offset, count)`, which must lie inside the span. -/
def subspan (bytes : List UInt8) (offset count : ℕ) : Except Fault (List UInt8) :=
  if offset + count ≤ bytes.length then .ok (slice bytes offset count) else .error .outOfRange

/-- `span[offset]`, which must lie inside the span. -/
def byteAt (bytes : List UInt8) (offset : ℕ) : Except Fault UInt8 :=
  match bytes[offset]? with
  | some b => .ok b
  | none => .error .outOfRange

@[simp] theorem cassert_true (build : Build) (name : Assertion) :
    cassert build name true = .ok () := by
  cases build <;> rfl

theorem sizeSub_ok {a b : ℕ} (h : b ≤ a) : sizeSub a b = .ok (a - b) := if_pos h

theorem subspan_ok {bytes : List UInt8} {offset count : ℕ}
    (h : offset + count ≤ bytes.length) :
    subspan bytes offset count = .ok (slice bytes offset count) := if_pos h

theorem byteAt_ok {bytes : List UInt8} {offset : ℕ} {b : UInt8}
    (h : bytes[offset]? = some b) : byteAt bytes offset = .ok b := by
  simp only [byteAt, h]

theorem byteAt_of_lt {bytes : List UInt8} {offset : ℕ} (h : offset < bytes.length) :
    byteAt bytes offset = .ok bytes[offset] :=
  byteAt_ok (List.getElem?_eq_getElem h)

/-- Reads behind an offset are reads of the bytes from that offset on. -/
theorem byteAt_drop (bytes : List UInt8) (offset k : ℕ) :
    byteAt bytes (offset + k) = byteAt (bytes.drop offset) k := by
  simp only [byteAt, List.getElem?_drop]

theorem subspan_drop {bytes : List UInt8} {offset : ℕ} (h : offset ≤ bytes.length)
    (k count : ℕ) : subspan bytes (offset + k) count = subspan (bytes.drop offset) k count := by
  have hbound : offset + k + count ≤ bytes.length ↔ k + count ≤ bytes.length - offset := by
    omega
  simp only [subspan, List.length_drop, hbound, slice, List.drop_drop]

@[simp] theorem ok_bind {ε : Type v} {α β : Type u} (a : α) (f : α → Except ε β) :
    (Except.ok a >>= f) = f a := rfl

theorem bind_eq_ok {α β : Type u} {x : Except Fault α} {f : α → Except Fault β} {b : β}
    (h : x >>= f = .ok b) : ∃ a, x = .ok a ∧ f a = .ok b := by
  cases x with
  | error fault => cases h
  | ok a => exact ⟨a, rfl, h⟩

end Itch
