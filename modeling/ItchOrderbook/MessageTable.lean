import Mathlib.Data.Fintype.Basic
import Mathlib.Data.Fintype.Fin

/-!
# The table of message lengths

A 256-entry table indexed by the type byte. An entry of zero marks a type that
ITCH 5.0 does not define.
-/

namespace Itch

/-- Bytes common to every message: type (1), stock locate (2), tracking (2), timestamp (6). -/
def kHeaderLength : ℕ := 11

/-- The entries of the table, in the order the source sets them. -/
def specLengthEntries : List (Char × UInt16) :=
  [('S', 12), ('A', 36), ('F', 40), ('E', 31), ('C', 36), ('X', 23), ('D', 19), ('U', 35),
   ('P', 44), ('R', 39), ('H', 25), ('Y', 20), ('L', 26), ('V', 35), ('W', 12), ('K', 28),
   ('J', 35), ('h', 21), ('Q', 40), ('B', 19), ('I', 50), ('N', 20)]

def kSpecLengths : Vector UInt16 256 :=
  specLengthEntries.foldl
    (fun lengths entry => lengths.setIfInBounds entry.1.toUInt8.toNat entry.2)
    (Vector.replicate 256 0)

/-- Length of a message of this type without its prefix; zero for an undefined type. -/
def specMessageLength (messageType : UInt8) : UInt16 :=
  kSpecLengths.get messageType.toFin

/-- The ten types `dispatch_record` decodes. -/
def decodedTypes : List UInt8 :=
  ['S'.toUInt8, 'A'.toUInt8, 'F'.toUInt8, 'E'.toUInt8, 'C'.toUInt8, 'X'.toUInt8,
   'D'.toUInt8, 'U'.toUInt8, 'P'.toUInt8, 'R'.toUInt8]

/-- A property of every byte is decided by running through the 256 of them. -/
theorem forall_byte {P : UInt8 → Prop} (h : ∀ i : Fin 256, P (UInt8.ofFin i)) (b : UInt8) :
    P b := by
  have hb := h b.toFin
  rwa [UInt8.ofFin_toFin] at hb

/-- Every specified length leaves room for the header and a byte after it. -/
theorem specMessageLength_header (t : UInt8) :
    specMessageLength t ≠ 0 → kHeaderLength < (specMessageLength t).toNat := by
  revert t
  apply forall_byte
  decide +kernel

/-- The table holds what each entry says: no later entry overwrites an earlier one. -/
theorem specMessageLength_entry :
    ∀ entry ∈ specLengthEntries, specMessageLength entry.1.toUInt8 = entry.2 := by
  decide +kernel

end Itch
