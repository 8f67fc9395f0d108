import ItchOrderbook.Memory

/-!
# Big-endian field accessors over one record

Offsets are literals of the decoders. Each accessor asserts that its field lies
inside the record; with asserts compiled out the same condition is what keeps
the read in range, so failing it is one fault in both builds.
-/

namespace Itch

open ByteFields

/-- `memcpy` of `sizeof(T)` bytes into an integer of a little-endian host. -/
def nativeLoad (source : List UInt8) : ℕ := ofLittleEndian source

/-- `__builtin_bswap` of a value that is `width` bytes wide. -/
def byteswap (width value : ℕ) : ℕ := ofBigEndian (toLittleEndian width value)

/-- `load_big_endian<T>`, with the bytes of the field as its source. -/
def loadBigEndian (source : List UInt8) : ℕ := byteswap source.length (nativeLoad source)

theorem loadBigEndian_eq (source : List UInt8) : loadBigEndian source = ofBigEndian source := by
  rw [loadBigEndian, nativeLoad, byteswap, toLittleEndian_ofLittleEndian]

/-- A read-only view of one record. -/
structure ByteReader where
  record : List UInt8
deriving DecidableEq, Repr

namespace ByteReader

variable (reader : ByteReader)

def size : ℕ := reader.record.length

def readU8 (offset : ℕ) : Except Fault UInt8 := byteAt reader.record offset

/-- A `char` is kept as its byte. -/
def readChar (offset : ℕ) : Except Fault UInt8 := reader.readU8 offset

def readU16 (offset : ℕ) : Except Fault UInt16 := do
  let source ← subspan reader.record offset 2
  return UInt16.ofNat (loadBigEndian source)

def readU32 (offset : ℕ) : Except Fault UInt32 := do
  let source ← subspan reader.record offset 4
  return UInt32.ofNat (loadBigEndian source)

def readU64 (offset : ℕ) : Except Fault UInt64 := do
  let source ← subspan reader.record offset 8
  return UInt64.ofNat (loadBigEndian source)

/-- Six bytes copied behind two zero bytes, then loaded as a `uint64_t`. -/
def readU48 (offset : ℕ) : Except Fault UInt64 := do
  let source ← subspan reader.record offset 6
  let widened := List.replicate 2 0 ++ source
  return UInt64.ofNat (loadBigEndian widened)

/-- `read_alpha<N>`, returned by value as an array of `N` characters. -/
def readAlpha (n offset : ℕ) : Except Fault (Vector UInt8 n) := do
  let source ← subspan reader.record offset n
  return Vector.ofFn fun i => source.getD i 0

end ByteReader

section InRange

variable {record : List UInt8} {offset : ℕ}

theorem readChar_ok (h : offset < record.length) :
    (ByteReader.mk record).readChar offset = .ok (charAt record offset) := by
  rw [ByteReader.readChar, ByteReader.readU8, byteAt_of_lt h, charAt_eq_getElem h]

theorem readU16_ok (h : offset + 2 ≤ record.length) :
    (ByteReader.mk record).readU16 offset = .ok (u16At record offset) := by
  simp only [ByteReader.readU16, subspan_ok h, loadBigEndian_eq]
  rfl

theorem readU32_ok (h : offset + 4 ≤ record.length) :
    (ByteReader.mk record).readU32 offset = .ok (u32At record offset) := by
  simp only [ByteReader.readU32, subspan_ok h, loadBigEndian_eq]
  rfl

theorem readU64_ok (h : offset + 8 ≤ record.length) :
    (ByteReader.mk record).readU64 offset = .ok (u64At record offset) := by
  simp only [ByteReader.readU64, subspan_ok h, loadBigEndian_eq]
  rfl

/-- The two bytes in front are zero, so the widened read is the 48-bit number. -/
theorem readU48_ok (h : offset + 6 ≤ record.length) :
    (ByteReader.mk record).readU48 offset = .ok (u48At record offset) := by
  simp only [ByteReader.readU48, subspan_ok h, loadBigEndian_eq]
  rw [u48At, natAt, ← ofBigEndian_zeros_append 2]
  rfl

theorem readAlpha_ok {n : ℕ} (h : offset + n ≤ record.length) :
    (ByteReader.mk record).readAlpha n offset = .ok (alphaAt n record offset) := by
  simp only [ByteReader.readAlpha, subspan_ok h]
  rfl

end InRange

end Itch
