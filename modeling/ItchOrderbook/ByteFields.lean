import Mathlib.Data.Nat.Digits.Lemmas

/-!
# Fixed-width fields in a byte string

Numbers are written most significant byte first in a fixed width. `slice` cuts
a field out of a byte string by offset and width: fields written one after the
other are read back at their offsets, and consecutive slices glue together.
-/

namespace ByteFields

/-- The number a byte string denotes, least significant byte first. -/
def ofLittleEndian (bytes : List UInt8) : ℕ := Nat.ofDigits 256 (bytes.map UInt8.toNat)

/-- The number a byte string denotes, most significant byte first. -/
def ofBigEndian (bytes : List UInt8) : ℕ := ofLittleEndian bytes.reverse

/-- The low `width` bytes of a number, least significant first. -/
def toLittleEndian : ℕ → ℕ → List UInt8
  | 0, _ => []
  | width + 1, value => UInt8.ofNat value :: toLittleEndian width (value / 256)

/-- The low `width` bytes of a number, most significant first. -/
def toBigEndian (width value : ℕ) : List UInt8 := (toLittleEndian width value).reverse

/-- The `width` bytes at `offset`. -/
def slice {α : Type*} (xs : List α) (offset width : ℕ) : List α := (xs.drop offset).take width

theorem ofLittleEndian_cons (b : UInt8) (bytes : List UInt8) :
    ofLittleEndian (b :: bytes) = b.toNat + 256 * ofLittleEndian bytes := by
  simp [ofLittleEndian, Nat.ofDigits_cons]

@[simp] theorem length_toLittleEndian (width value : ℕ) :
    (toLittleEndian width value).length = width := by
  induction width generalizing value with
  | zero => rfl
  | succ width ih => simp [toLittleEndian, ih]

@[simp] theorem length_toBigEndian (width value : ℕ) :
    (toBigEndian width value).length = width := by
  simp [toBigEndian]

theorem ofLittleEndian_lt (bytes : List UInt8) :
    ofLittleEndian bytes < 256 ^ bytes.length := by
  induction bytes with
  | nil => simp [ofLittleEndian]
  | cons b bytes ih =>
    have hb := b.toNat_lt
    rw [ofLittleEndian_cons, List.length_cons, pow_succ]
    omega

theorem ofLittleEndian_toLittleEndian {width value : ℕ} (h : value < 256 ^ width) :
    ofLittleEndian (toLittleEndian width value) = value := by
  induction width generalizing value with
  | zero =>
    have hzero : value = 0 := by simpa using h
    simp [toLittleEndian, ofLittleEndian, hzero]
  | succ width ih =>
    have hdiv : value / 256 < 256 ^ width := by
      rw [pow_succ] at h
      exact Nat.div_lt_of_lt_mul (by omega)
    rw [toLittleEndian, ofLittleEndian_cons, ih hdiv]
    have hbyte : (UInt8.ofNat value).toNat = value % 256 := by simp
    rw [hbyte]
    exact Nat.mod_add_div value 256

theorem toLittleEndian_ofLittleEndian (bytes : List UInt8) :
    toLittleEndian bytes.length (ofLittleEndian bytes) = bytes := by
  induction bytes with
  | nil => rfl
  | cons b bytes ih =>
    have hb := b.toNat_lt
    rw [List.length_cons, toLittleEndian, ofLittleEndian_cons]
    congr 1
    · apply UInt8.toNat_inj.mp
      simp
    · rw [show (b.toNat + 256 * ofLittleEndian bytes) / 256 = ofLittleEndian bytes by omega]
      exact ih

theorem toLittleEndian_succ (width value : ℕ) :
    toLittleEndian (width + 1) value =
      toLittleEndian width value ++ [UInt8.ofNat (value / 256 ^ width)] := by
  induction width generalizing value with
  | zero => simp [toLittleEndian]
  | succ width ih =>
    rw [toLittleEndian, ih, toLittleEndian, Nat.div_div_eq_div_mul, ← pow_succ', List.cons_append]

/-- The most significant byte comes first. -/
theorem toBigEndian_succ (width value : ℕ) :
    toBigEndian (width + 1) value =
      UInt8.ofNat (value / 256 ^ width) :: toBigEndian width value := by
  rw [toBigEndian, toLittleEndian_succ, List.reverse_append, toBigEndian]
  rfl

theorem ofBigEndian_lt (bytes : List UInt8) : ofBigEndian bytes < 256 ^ bytes.length := by
  have h := ofLittleEndian_lt bytes.reverse
  rwa [List.length_reverse] at h

theorem ofBigEndian_toBigEndian {width value : ℕ} (h : value < 256 ^ width) :
    ofBigEndian (toBigEndian width value) = value := by
  simpa [ofBigEndian, toBigEndian] using ofLittleEndian_toLittleEndian h

theorem toBigEndian_ofBigEndian (bytes : List UInt8) :
    toBigEndian bytes.length (ofBigEndian bytes) = bytes := by
  have h := toLittleEndian_ofLittleEndian bytes.reverse
  rw [List.length_reverse] at h
  rw [toBigEndian, ofBigEndian, h, List.reverse_reverse]

/-- Leading zero bytes do not change a big-endian number. -/
theorem ofBigEndian_zeros_append (count : ℕ) (bytes : List UInt8) :
    ofBigEndian (List.replicate count 0 ++ bytes) = ofBigEndian bytes := by
  induction count with
  | zero => rfl
  | succ count ih =>
    have hlast : ofLittleEndian ((List.replicate count 0 ++ bytes).reverse ++ [0]) =
        ofLittleEndian (List.replicate count 0 ++ bytes).reverse := by
      simp [ofLittleEndian, Nat.ofDigits_append]
    rw [List.replicate_succ, List.cons_append]
    simp only [ofBigEndian, List.reverse_cons] at ih ⊢
    rw [hlast, ih]

section Slices

variable {α : Type*}

theorem length_slice {xs : List α} {offset width : ℕ} (h : offset + width ≤ xs.length) :
    (slice xs offset width).length = width := by
  rw [slice, List.length_take, List.length_drop]
  omega

theorem slice_full (xs : List α) : slice xs 0 xs.length = xs := by
  simp [slice]

/-- Consecutive fields glue back together. -/
theorem slice_append_slice {offset m next : ℕ} (h : offset + m = next) (xs : List α) (n : ℕ) :
    slice xs offset m ++ slice xs next n = slice xs offset (m + n) := by
  subst h
  simp only [slice, ← List.drop_drop]
  exact (List.take_add ..).symm

theorem slice_append_right {xs ys : List α} {offset : ℕ} (h : xs.length ≤ offset) (width : ℕ) :
    slice (xs ++ ys) offset width = slice ys (offset - xs.length) width := by
  rw [slice, slice, List.drop_append, List.drop_of_length_le h, List.nil_append]

theorem slice_front {xs ys : List α} {width : ℕ} (h : xs.length = width) :
    slice (xs ++ ys) 0 width = xs := by
  rw [slice, List.drop_zero, ← h, List.take_left]

theorem slice_one {xs : List α} {offset : ℕ} (h : offset < xs.length) :
    slice xs offset 1 = [xs[offset]] := by
  rw [slice, List.drop_eq_getElem_cons h]
  rfl

end Slices

section Fields

/-- The byte at `offset`, or zero past the end. -/
def charAt (bytes : List UInt8) (offset : ℕ) : UInt8 := bytes.getD offset 0

theorem charAt_eq_getElem {bytes : List UInt8} {offset : ℕ} (h : offset < bytes.length) :
    charAt bytes offset = bytes[offset] := by
  simp [charAt, h]

/-- The number in the `width` bytes at `offset`. -/
def natAt (width : ℕ) (bytes : List UInt8) (offset : ℕ) : ℕ :=
  ofBigEndian (slice bytes offset width)

def u16At (bytes : List UInt8) (offset : ℕ) : UInt16 := UInt16.ofNat (natAt 2 bytes offset)

def u32At (bytes : List UInt8) (offset : ℕ) : UInt32 := UInt32.ofNat (natAt 4 bytes offset)

/-- Six bytes, so the value stays below `2 ^ 48`. -/
def u48At (bytes : List UInt8) (offset : ℕ) : UInt64 := UInt64.ofNat (natAt 6 bytes offset)

def u64At (bytes : List UInt8) (offset : ℕ) : UInt64 := UInt64.ofNat (natAt 8 bytes offset)

/-- A fixed-width string, kept as its raw bytes. -/
def alphaAt (n : ℕ) (bytes : List UInt8) (offset : ℕ) : Vector UInt8 n :=
  Vector.ofFn fun i => (slice bytes offset n).getD i 0

variable {bytes : List UInt8} {offset width : ℕ}

section Reading

/-! Reading a field off a concatenation: skip the parts in front, then read the part. -/

variable {front rest : List UInt8}

theorem charAt_skip (h : front.length ≤ offset) :
    charAt (front ++ rest) offset = charAt rest (offset - front.length) := by
  simp only [charAt, List.getD_eq_getElem?_getD, List.getElem?_append_right h]

theorem natAt_skip (h : front.length ≤ offset) :
    natAt width (front ++ rest) offset = natAt width rest (offset - front.length) := by
  rw [natAt, slice_append_right h, natAt]

theorem natAt_head {value : ℕ} (h : value < 256 ^ width) :
    natAt width (toBigEndian width value ++ rest) 0 = value := by
  rw [natAt, slice_front (length_toBigEndian width _), ofBigEndian_toBigEndian h]

theorem u16At_skip (h : front.length ≤ offset) :
    u16At (front ++ rest) offset = u16At rest (offset - front.length) :=
  congrArg UInt16.ofNat (natAt_skip h)

theorem u32At_skip (h : front.length ≤ offset) :
    u32At (front ++ rest) offset = u32At rest (offset - front.length) :=
  congrArg UInt32.ofNat (natAt_skip h)

theorem u48At_skip (h : front.length ≤ offset) :
    u48At (front ++ rest) offset = u48At rest (offset - front.length) :=
  congrArg UInt64.ofNat (natAt_skip h)

theorem u64At_skip (h : front.length ≤ offset) :
    u64At (front ++ rest) offset = u64At rest (offset - front.length) :=
  congrArg UInt64.ofNat (natAt_skip h)

theorem alphaAt_skip {n : ℕ} (h : front.length ≤ offset) :
    alphaAt n (front ++ rest) offset = alphaAt n rest (offset - front.length) := by
  simp only [alphaAt, slice_append_right h]

theorem charAt_head (b : UInt8) : charAt ([b] ++ rest) 0 = b := rfl

theorem u16At_head (x : UInt16) : u16At (toBigEndian 2 x.toNat ++ rest) 0 = x := by
  rw [u16At, natAt_head x.toNat_lt, UInt16.ofNat_toNat]

theorem u32At_head (x : UInt32) : u32At (toBigEndian 4 x.toNat ++ rest) 0 = x := by
  rw [u32At, natAt_head x.toNat_lt, UInt32.ofNat_toNat]

theorem u48At_head {x : UInt64} (hx : x.toNat < 2 ^ 48) :
    u48At (toBigEndian 6 x.toNat ++ rest) 0 = x := by
  rw [u48At, natAt_head hx, UInt64.ofNat_toNat]

theorem u64At_head (x : UInt64) : u64At (toBigEndian 8 x.toNat ++ rest) 0 = x := by
  rw [u64At, natAt_head x.toNat_lt, UInt64.ofNat_toNat]

theorem alphaAt_head {n : ℕ} (a : Vector UInt8 n) : alphaAt n (a.toList ++ rest) 0 = a := by
  ext i hi
  simp [alphaAt, slice_front a.length_toList]

end Reading

theorem slice_charAt (h : offset < bytes.length) :
    [charAt bytes offset] = slice bytes offset 1 := by
  rw [slice_one h, charAt_eq_getElem h]

theorem natAt_lt (h : offset + width ≤ bytes.length) : natAt width bytes offset < 256 ^ width := by
  have hlt := ofBigEndian_lt (slice bytes offset width)
  rwa [length_slice h] at hlt

/-- Writing back a number read from a field gives the bytes of the field. -/
theorem slice_natAt (h : offset + width ≤ bytes.length) :
    toBigEndian width (natAt width bytes offset) = slice bytes offset width := by
  have hwrite := toBigEndian_ofBigEndian (slice bytes offset width)
  rwa [length_slice h] at hwrite

theorem toNat_u16At (h : offset + 2 ≤ bytes.length) :
    (u16At bytes offset).toNat = natAt 2 bytes offset :=
  UInt16.toNat_ofNat_of_lt' (natAt_lt h)

theorem toNat_u32At (h : offset + 4 ≤ bytes.length) :
    (u32At bytes offset).toNat = natAt 4 bytes offset :=
  UInt32.toNat_ofNat_of_lt' (natAt_lt h)

theorem toNat_u48At (h : offset + 6 ≤ bytes.length) :
    (u48At bytes offset).toNat = natAt 6 bytes offset :=
  UInt64.toNat_ofNat_of_lt' ((natAt_lt h).trans (by decide))

theorem toNat_u64At (h : offset + 8 ≤ bytes.length) :
    (u64At bytes offset).toNat = natAt 8 bytes offset :=
  UInt64.toNat_ofNat_of_lt' (natAt_lt h)

theorem slice_u16At (h : offset + 2 ≤ bytes.length) :
    toBigEndian 2 (u16At bytes offset).toNat = slice bytes offset 2 := by
  rw [toNat_u16At h, slice_natAt h]

theorem slice_u32At (h : offset + 4 ≤ bytes.length) :
    toBigEndian 4 (u32At bytes offset).toNat = slice bytes offset 4 := by
  rw [toNat_u32At h, slice_natAt h]

theorem slice_u48At (h : offset + 6 ≤ bytes.length) :
    toBigEndian 6 (u48At bytes offset).toNat = slice bytes offset 6 := by
  rw [toNat_u48At h, slice_natAt h]

theorem slice_u64At (h : offset + 8 ≤ bytes.length) :
    toBigEndian 8 (u64At bytes offset).toNat = slice bytes offset 8 := by
  rw [toNat_u64At h, slice_natAt h]

theorem slice_alphaAt {n : ℕ} (h : offset + n ≤ bytes.length) :
    (alphaAt n bytes offset).toList = slice bytes offset n := by
  apply List.ext_getElem
  · rw [Vector.length_toList, length_slice h]
  · intro i hi hi'
    simp [alphaAt, hi']

end Fields

end ByteFields
