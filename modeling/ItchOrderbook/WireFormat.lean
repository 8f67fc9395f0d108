import ItchOrderbook.ReadSafety

/-!
# The wire format as the tests write it

`RecordBuilder` states the format a second time: most significant byte first by
explicit shifts, no byte swap. Every message of a decoded type is written field
by field behind the common header, and framed with a two-byte length.
-/

namespace Itch

open ByteFields CheckedRuns PrefixCode

universe u

structure RecordBuilder where
  bytes : List UInt8 := []
deriving DecidableEq, Repr

namespace RecordBuilder

variable (builder : RecordBuilder)

def u8 (value : UInt8) : RecordBuilder := ⟨builder.bytes ++ [value]⟩

def ch (value : UInt8) : RecordBuilder := builder.u8 value

/-- `for (i = width; i-- > 0;) u8((value >> (8 * i)) & 0xFF)`. -/
def bigEndian (builder : RecordBuilder) (value : UInt64) : ℕ → RecordBuilder
  | 0 => builder
  | i + 1 => (builder.u8 ((value >>> UInt64.ofNat (8 * i)) &&& 0xFF).toUInt8).bigEndian value i

def u16 (value : UInt16) : RecordBuilder := builder.bigEndian value.toUInt64 2

def u32 (value : UInt32) : RecordBuilder := builder.bigEndian value.toUInt64 4

def u48 (value : UInt64) : RecordBuilder := builder.bigEndian value 6

def u64 (value : UInt64) : RecordBuilder := builder.bigEndian value 8

/-- Space-padded to `width`, truncated if longer. -/
def alpha (text : List UInt8) (width : ℕ) : RecordBuilder :=
  ⟨builder.bytes ++ (List.range width).map fun i => text.getD i ' '.toUInt8⟩

/-- The message behind its two-byte length. -/
def framed : List UInt8 :=
  let length := UInt16.ofNat builder.bytes.length
  ((length >>> 8) &&& 0xFF).toUInt8 :: (length &&& 0xFF).toUInt8 :: builder.bytes

end RecordBuilder

/-- The 11-byte header common to every message. -/
def headerBuilder (h : MessageHeader) : RecordBuilder :=
  ((({} : RecordBuilder).ch h.type).u16 h.stockLocate |>.u16 h.trackingNumber).u48 h.timestampNs

/-- The body of a message, fields in the order of its decoder. -/
def encode : Message → RecordBuilder
  | .systemEvent m => (headerBuilder m.header).ch m.eventCode
  | .addOrder m => encodeAdd m
  | .addOrderWithMpid m => (encodeAdd m.order).alpha m.attribution.toList 4
  | .orderExecuted m => encodeExecuted m
  | .orderExecutedWithPrice m =>
    ((encodeExecuted m.executed).ch m.printable).u32 m.executionPrice
  | .orderCancel m => ((headerBuilder m.header).u64 m.orderReference).u32 m.cancelledShares
  | .orderDelete m => (headerBuilder m.header).u64 m.orderReference
  | .orderReplace m =>
    ((((headerBuilder m.header).u64 m.originalOrderReference).u64 m.newOrderReference).u32
      m.shares).u32 m.price
  | .tradeNonCross m =>
    ((((((headerBuilder m.header).u64 m.orderReference).ch m.side.value).u32 m.shares).alpha
      m.stock.toList 8).u32 m.price).u64 m.matchNumber
  | .stockDirectory m =>
    ((((((((((((((headerBuilder m.header).alpha m.stock.toList 8).ch m.marketCategory).ch
      m.financialStatusIndicator).u32 m.roundLotSize).ch m.roundLotsOnly).ch
      m.issueClassification).alpha m.issueSubType.toList 2).ch m.authenticity).ch
      m.shortSaleThresholdIndicator).ch m.ipoFlag).ch m.luldReferencePriceTier).ch
      m.etpFlag).u32 m.etpLeverageFactor).ch m.inverseIndicator
  | .other _ record => ⟨record⟩
where
  encodeAdd (m : AddOrder) : RecordBuilder :=
    (((((headerBuilder m.header).u64 m.orderReference).ch m.side.value).u32 m.shares).alpha
      m.stock.toList 8).u32 m.price
  encodeExecuted (m : OrderExecuted) : RecordBuilder :=
    (((headerBuilder m.header).u64 m.orderReference).u32 m.executedShares).u64 m.matchNumber

/-- The type byte a message goes out with. -/
def Message.wireType : Message → UInt8
  | .systemEvent m => m.header.type
  | .addOrder m => m.header.type
  | .addOrderWithMpid m => m.order.header.type
  | .orderExecuted m => m.header.type
  | .orderExecutedWithPrice m => m.executed.header.type
  | .orderCancel m => m.header.type
  | .orderDelete m => m.header.type
  | .orderReplace m => m.header.type
  | .tradeNonCross m => m.header.type
  | .stockDirectory m => m.header.type
  | .other type _ => type

/-- A header of this type whose timestamp fits its six bytes. -/
def HeaderOk (type : Char) (h : MessageHeader) : Prop :=
  h.type = type.toUInt8 ∧ h.timestampNs.toNat < 2 ^ 48

/-- What a message needs to go over the wire and come back. -/
def Message.WireOk : Message → Prop
  | .systemEvent m => HeaderOk 'S' m.header
  | .addOrder m => HeaderOk 'A' m.header ∧ isValidSide m.side.value = true
  | .addOrderWithMpid m => HeaderOk 'F' m.order.header ∧ isValidSide m.order.side.value = true
  | .orderExecuted m => HeaderOk 'E' m.header
  | .orderExecutedWithPrice m => HeaderOk 'C' m.executed.header
  | .orderCancel m => HeaderOk 'X' m.header
  | .orderDelete m => HeaderOk 'D' m.header
  | .orderReplace m => HeaderOk 'U' m.header
  | .tradeNonCross m => HeaderOk 'P' m.header ∧ isValidSide m.side.value = true
  | .stockDirectory m => HeaderOk 'R' m.header
  | .other type record =>
    specMessageLength type ≠ 0 ∧ type ∉ decodedTypes ∧
      record.length = (specMessageLength type).toNat ∧ charAt record 0 = type

section Builder

variable (builder : RecordBuilder)

theorem u8_bytes (value : UInt8) : (builder.u8 value).bytes = builder.bytes ++ [value] := rfl

theorem ch_bytes (value : UInt8) : (builder.ch value).bytes = builder.bytes ++ [value] := rfl

/-- The byte the loop emits at place `i`. -/
theorem shifted_byte (value : UInt64) {i : ℕ} (hi : i < 8) :
    ((value >>> UInt64.ofNat (8 * i)) &&& 0xFF).toUInt8 =
      UInt8.ofNat (value.toNat / 256 ^ i) := by
  apply UInt8.toNat_inj.mp
  have hshift : (UInt64.ofNat (8 * i)).toNat % 64 = 8 * i := by
    rw [UInt64.toNat_ofNat_of_lt' (Nat.lt_trans (show 8 * i < 64 by omega) (by decide))]
    omega
  have hplace : 2 ^ (8 * i) = 256 ^ i := Nat.pow_mul 2 8 i
  simp only [UInt64.toNat_toUInt8, UInt64.toNat_and, UInt64.toNat_shiftRight, hshift,
    UInt64.reduceToNat, UInt8.toNat_ofNat', Nat.shiftRight_eq_div_pow, hplace]
  rw [show (255 : ℕ) = 2 ^ 8 - 1 from rfl, Nat.and_two_pow_sub_one_eq_mod]
  omega

theorem bigEndian_bytes (value : UInt64) {width : ℕ} (h : width ≤ 8) :
    (builder.bigEndian value width).bytes =
      builder.bytes ++ toBigEndian width value.toNat := by
  induction width generalizing builder with
  | zero => simp [RecordBuilder.bigEndian, toBigEndian, toLittleEndian]
  | succ i ih =>
    rw [RecordBuilder.bigEndian, ih _ (by omega), u8_bytes, shifted_byte value (by omega),
      toBigEndian_succ, List.append_assoc]
    rfl

theorem u16_bytes (value : UInt16) :
    (builder.u16 value).bytes = builder.bytes ++ toBigEndian 2 value.toNat := by
  rw [RecordBuilder.u16, bigEndian_bytes builder _ (by omega), UInt16.toNat_toUInt64]

theorem u32_bytes (value : UInt32) :
    (builder.u32 value).bytes = builder.bytes ++ toBigEndian 4 value.toNat := by
  rw [RecordBuilder.u32, bigEndian_bytes builder _ (by omega), UInt32.toNat_toUInt64]

theorem u48_bytes (value : UInt64) :
    (builder.u48 value).bytes = builder.bytes ++ toBigEndian 6 value.toNat :=
  bigEndian_bytes builder value (by omega)

theorem u64_bytes (value : UInt64) :
    (builder.u64 value).bytes = builder.bytes ++ toBigEndian 8 value.toNat :=
  bigEndian_bytes builder value (by omega)

/-- A raw field of the right width is written as it is. -/
theorem alpha_bytes {n : ℕ} (text : Vector UInt8 n) :
    (builder.alpha text.toList n).bytes = builder.bytes ++ text.toList := by
  have htext : (List.range n).map (fun i => text.toList.getD i ' '.toUInt8) = text.toList := by
    apply List.ext_getElem
    · simp
    · intro i hi hi'
      have hn : i < n := by simpa using hi
      simp [hn]
  rw [RecordBuilder.alpha, htext]

end Builder

section Decode

variable (tail : List UInt8)

theorem headerBuilder_bytes (h : MessageHeader) :
    (headerBuilder h).bytes = [h.type] ++ toBigEndian 2 h.stockLocate.toNat ++
      toBigEndian 2 h.trackingNumber.toNat ++ toBigEndian 6 h.timestampNs.toNat := by
  simp only [headerBuilder, u48_bytes, u16_bytes, ch_bytes, List.nil_append]

@[simp] theorem length_headerBuilder (h : MessageHeader) :
    (headerBuilder h).bytes.length = 11 := by
  simp [headerBuilder_bytes]

theorem header_decode {h : MessageHeader} (hts : h.timestampNs.toNat < 2 ^ 48) :
    MessageHeader.ofRecord ((headerBuilder h).bytes ++ tail) = h := by
  simp (disch := simp) only [MessageHeader.ofRecord, headerBuilder_bytes, List.append_assoc,
    charAt_head, u16At_skip, u16At_head, u48At_skip, u48At_head hts, List.length_singleton,
    length_toBigEndian, Nat.reduceSub]

theorem encodeAdd_decode {m : AddOrder} (hts : m.header.timestampNs.toNat < 2 ^ 48) :
    AddOrder.ofRecord ((encode.encodeAdd m).bytes ++ tail) = m := by
  simp (disch := simp) only [AddOrder.ofRecord, encode.encodeAdd, u32_bytes, u64_bytes, ch_bytes,
    alpha_bytes, List.append_assoc, header_decode _ hts, charAt_skip, charAt_head, u32At_skip,
    u32At_head, u64At_skip, u64At_head, alphaAt_skip, alphaAt_head, length_headerBuilder,
    List.length_singleton, length_toBigEndian, Vector.length_toList, Nat.reduceSub]

theorem encodeExecuted_decode {m : OrderExecuted} (hts : m.header.timestampNs.toNat < 2 ^ 48) :
    OrderExecuted.ofRecord ((encode.encodeExecuted m).bytes ++ tail) = m := by
  simp (disch := simp) only [OrderExecuted.ofRecord, encode.encodeExecuted, u32_bytes, u64_bytes,
    List.append_assoc, header_decode _ hts, u32At_skip, u32At_head, u64At_skip, u64At_head,
    length_headerBuilder, length_toBigEndian, Nat.reduceSub]

@[simp] theorem length_encodeAdd (m : AddOrder) : (encode.encodeAdd m).bytes.length = 36 := by
  simp [encode.encodeAdd, u32_bytes, u64_bytes, ch_bytes, alpha_bytes]

@[simp] theorem length_encodeExecuted (m : OrderExecuted) :
    (encode.encodeExecuted m).bytes.length = 31 := by
  simp [encode.encodeExecuted, u32_bytes, u64_bytes]

/-- Decoding what was encoded gives back every field of the message. -/
theorem ofRecord_encode {m : Message} (h : m.WireOk) :
    Message.ofRecord m.wireType (encode m).bytes = m := by
  rw [← List.append_nil (encode m).bytes]
  cases m with
  | systemEvent m =>
    obtain ⟨htype, hts⟩ := h
    simp only [Message.wireType, htype]
    refine congrArg Message.systemEvent ?_
    simp (disch := simp) only [encode, SystemEvent.ofRecord, ch_bytes, List.append_assoc,
      header_decode _ hts, charAt_skip, charAt_head, length_headerBuilder, Nat.reduceSub]
  | addOrder m =>
    obtain ⟨⟨htype, hts⟩, _⟩ := h
    simp only [Message.wireType, htype]
    exact congrArg Message.addOrder (encodeAdd_decode [] hts)
  | addOrderWithMpid m =>
    obtain ⟨⟨htype, hts⟩, _⟩ := h
    simp only [Message.wireType, htype]
    refine congrArg Message.addOrderWithMpid ?_
    simp (disch := simp) only [encode, AddOrderWithMpid.ofRecord, alpha_bytes,
      List.append_assoc, encodeAdd_decode _ hts, alphaAt_skip, alphaAt_head, length_encodeAdd,
      Nat.reduceSub]
  | orderExecuted m =>
    obtain ⟨htype, hts⟩ := h
    simp only [Message.wireType, htype]
    exact congrArg Message.orderExecuted (encodeExecuted_decode [] hts)
  | orderExecutedWithPrice m =>
    obtain ⟨htype, hts⟩ := h
    simp only [Message.wireType, htype]
    refine congrArg Message.orderExecutedWithPrice ?_
    simp (disch := simp) only [encode, OrderExecutedWithPrice.ofRecord, ch_bytes, u32_bytes,
      List.append_assoc, encodeExecuted_decode _ hts, charAt_skip, charAt_head, u32At_skip,
      u32At_head, length_encodeExecuted, List.length_singleton, Nat.reduceSub]
  | orderCancel m =>
    obtain ⟨htype, hts⟩ := h
    simp only [Message.wireType, htype]
    refine congrArg Message.orderCancel ?_
    simp (disch := simp) only [encode, OrderCancel.ofRecord, u32_bytes, u64_bytes,
      List.append_assoc, header_decode _ hts, u32At_skip, u32At_head, u64At_skip, u64At_head,
      length_headerBuilder, length_toBigEndian, Nat.reduceSub]
  | orderDelete m =>
    obtain ⟨htype, hts⟩ := h
    simp only [Message.wireType, htype]
    refine congrArg Message.orderDelete ?_
    simp (disch := simp) only [encode, OrderDelete.ofRecord, u64_bytes, List.append_assoc,
      header_decode _ hts, u64At_skip, u64At_head, length_headerBuilder, Nat.reduceSub]
  | orderReplace m =>
    obtain ⟨htype, hts⟩ := h
    simp only [Message.wireType, htype]
    refine congrArg Message.orderReplace ?_
    simp (disch := simp) only [encode, OrderReplace.ofRecord, u32_bytes, u64_bytes,
      List.append_assoc, header_decode _ hts, u32At_skip, u32At_head, u64At_skip, u64At_head,
      length_headerBuilder, length_toBigEndian, Nat.reduceSub]
  | tradeNonCross m =>
    obtain ⟨⟨htype, hts⟩, _⟩ := h
    simp only [Message.wireType, htype]
    refine congrArg Message.tradeNonCross ?_
    simp (disch := simp) only [encode, TradeNonCross.ofRecord, u32_bytes, u64_bytes, ch_bytes,
      alpha_bytes, List.append_assoc, header_decode _ hts, charAt_skip, charAt_head, u32At_skip,
      u32At_head, u64At_skip, u64At_head, alphaAt_skip, alphaAt_head, length_headerBuilder,
      List.length_singleton, length_toBigEndian, Vector.length_toList, Nat.reduceSub]
  | stockDirectory m =>
    obtain ⟨htype, hts⟩ := h
    simp only [Message.wireType, htype]
    refine congrArg Message.stockDirectory ?_
    simp (disch := simp) only [encode, StockDirectory.ofRecord, u32_bytes, ch_bytes, alpha_bytes,
      List.append_assoc, header_decode _ hts, charAt_skip, charAt_head, u32At_skip, u32At_head,
      alphaAt_skip, alphaAt_head, length_headerBuilder, List.length_singleton,
      length_toBigEndian, Vector.length_toList, Nat.reduceSub]
  | other type record =>
    obtain ⟨_, hother, _, _⟩ := h
    simp only [decodedTypes, List.mem_cons, List.not_mem_nil, or_false, not_or] at hother
    obtain ⟨hS, hA, hF, hE, hC, hX, hD, hU, hP, hR⟩ := hother
    simp only [Message.wireType, Message.ofRecord, encode, List.append_nil, if_neg hA, if_neg hD,
      if_neg hE, if_neg hX, if_neg hU, if_neg hF, if_neg hC, if_neg hP, if_neg hS, if_neg hR]

end Decode

section Encode

variable {record : List UInt8}

theorem header_encode (h : 11 ≤ record.length) :
    (headerBuilder (.ofRecord record)).bytes = slice record 0 11 := by
  simp (disch := omega) only [headerBuilder_bytes, MessageHeader.ofRecord, slice_charAt,
    slice_u16At, slice_u48At, slice_append_slice, Nat.reduceAdd]

theorem encodeAdd_encode (h : 36 ≤ record.length) :
    (encode.encodeAdd (.ofRecord record)).bytes = slice record 0 36 := by
  simp only [encode.encodeAdd, AddOrder.ofRecord, u32_bytes, u64_bytes, ch_bytes, alpha_bytes]
  simp (disch := omega) only [header_encode, slice_charAt, slice_u32At, slice_u64At,
    slice_alphaAt, slice_append_slice, Nat.reduceAdd]

theorem encodeExecuted_encode (h : 31 ≤ record.length) :
    (encode.encodeExecuted (.ofRecord record)).bytes = slice record 0 31 := by
  simp (disch := omega) only [encode.encodeExecuted, OrderExecuted.ofRecord, u32_bytes, u64_bytes,
    header_encode, slice_u32At, slice_u64At, slice_append_slice, Nat.reduceAdd]

theorem slice_of_length {n : ℕ} (h : record.length = n) : slice record 0 n = record := by
  rw [← h, slice_full]

/-- Encoding what was decoded gives back the bytes of the record. -/
theorem encode_ofRecord {type : UInt8} (htype : type ∈ decodedTypes)
    (h : record.length = (specMessageLength type).toNat) :
    (encode (.ofRecord type record)).bytes = record := by
  simp only [decodedTypes, List.mem_cons, List.not_mem_nil, or_false] at htype
  rcases htype with rfl | rfl | rfl | rfl | rfl | rfl | rfl | rfl | rfl | rfl
  · have hlen : record.length = 12 := length_of_entry 'S' 12 (by decide) h
    refine Eq.trans ?_ (slice_of_length hlen)
    change (encode (.systemEvent (.ofRecord record))).bytes = _
    simp (disch := omega) only [encode, SystemEvent.ofRecord, ch_bytes, header_encode,
      slice_charAt, slice_append_slice, Nat.reduceAdd]
  · have hlen : record.length = 36 := length_of_entry 'A' 36 (by decide) h
    exact (encodeAdd_encode (by omega)).trans (slice_of_length hlen)
  · have hlen : record.length = 40 := length_of_entry 'F' 40 (by decide) h
    refine Eq.trans ?_ (slice_of_length hlen)
    change (encode (.addOrderWithMpid (.ofRecord record))).bytes = _
    simp only [encode, AddOrderWithMpid.ofRecord, alpha_bytes]
    simp (disch := omega) only [encodeAdd_encode, slice_alphaAt, slice_append_slice,
      Nat.reduceAdd]
  · have hlen : record.length = 31 := length_of_entry 'E' 31 (by decide) h
    exact (encodeExecuted_encode (by omega)).trans (slice_of_length hlen)
  · have hlen : record.length = 36 := length_of_entry 'C' 36 (by decide) h
    refine Eq.trans ?_ (slice_of_length hlen)
    change (encode (.orderExecutedWithPrice (.ofRecord record))).bytes = _
    simp (disch := omega) only [encode, OrderExecutedWithPrice.ofRecord, ch_bytes, u32_bytes,
      encodeExecuted_encode, slice_charAt, slice_u32At, slice_append_slice, Nat.reduceAdd]
  · have hlen : record.length = 23 := length_of_entry 'X' 23 (by decide) h
    refine Eq.trans ?_ (slice_of_length hlen)
    change (encode (.orderCancel (.ofRecord record))).bytes = _
    simp (disch := omega) only [encode, OrderCancel.ofRecord, u32_bytes, u64_bytes, header_encode,
      slice_u32At, slice_u64At, slice_append_slice, Nat.reduceAdd]
  · have hlen : record.length = 19 := length_of_entry 'D' 19 (by decide) h
    refine Eq.trans ?_ (slice_of_length hlen)
    change (encode (.orderDelete (.ofRecord record))).bytes = _
    simp (disch := omega) only [encode, OrderDelete.ofRecord, u64_bytes, header_encode,
      slice_u64At, slice_append_slice, Nat.reduceAdd]
  · have hlen : record.length = 35 := length_of_entry 'U' 35 (by decide) h
    refine Eq.trans ?_ (slice_of_length hlen)
    change (encode (.orderReplace (.ofRecord record))).bytes = _
    simp (disch := omega) only [encode, OrderReplace.ofRecord, u32_bytes, u64_bytes,
      header_encode, slice_u32At, slice_u64At, slice_append_slice, Nat.reduceAdd]
  · have hlen : record.length = 44 := length_of_entry 'P' 44 (by decide) h
    refine Eq.trans ?_ (slice_of_length hlen)
    change (encode (.tradeNonCross (.ofRecord record))).bytes = _
    simp only [encode, TradeNonCross.ofRecord, u32_bytes, u64_bytes, ch_bytes, alpha_bytes]
    simp (disch := omega) only [header_encode, slice_charAt, slice_u32At, slice_u64At,
      slice_alphaAt, slice_append_slice, Nat.reduceAdd]
  · have hlen : record.length = 39 := length_of_entry 'R' 39 (by decide) h
    refine Eq.trans ?_ (slice_of_length hlen)
    change (encode (.stockDirectory (.ofRecord record))).bytes = _
    simp only [encode, StockDirectory.ofRecord, u32_bytes, ch_bytes, alpha_bytes]
    simp (disch := omega) only [header_encode, slice_charAt, slice_u32At, slice_alphaAt,
      slice_append_slice, Nat.reduceAdd]

end Encode

section Sessions

/-- A message is written with the length the table gives its type. -/
theorem encode_length {m : Message} (h : m.WireOk) :
    (encode m).bytes.length = (specMessageLength m.wireType).toNat := by
  cases m with
  | systemEvent m =>
    simp only [Message.wireType, h.1, specMessageLength_entry ('S', 12) (by decide)]
    simp [encode, ch_bytes]
  | addOrder m =>
    simp only [Message.wireType, h.1.1, specMessageLength_entry ('A', 36) (by decide)]
    simp [encode]
  | addOrderWithMpid m =>
    simp only [Message.wireType, h.1.1, specMessageLength_entry ('F', 40) (by decide)]
    simp [encode, alpha_bytes]
  | orderExecuted m =>
    simp only [Message.wireType, h.1, specMessageLength_entry ('E', 31) (by decide)]
    simp [encode]
  | orderExecutedWithPrice m =>
    simp only [Message.wireType, h.1, specMessageLength_entry ('C', 36) (by decide)]
    simp [encode, ch_bytes, u32_bytes]
  | orderCancel m =>
    simp only [Message.wireType, h.1, specMessageLength_entry ('X', 23) (by decide)]
    simp [encode, u32_bytes, u64_bytes]
  | orderDelete m =>
    simp only [Message.wireType, h.1, specMessageLength_entry ('D', 19) (by decide)]
    simp [encode, u64_bytes]
  | orderReplace m =>
    simp only [Message.wireType, h.1, specMessageLength_entry ('U', 35) (by decide)]
    simp [encode, u32_bytes, u64_bytes]
  | tradeNonCross m =>
    simp only [Message.wireType, h.1.1, specMessageLength_entry ('P', 44) (by decide)]
    simp [encode, u32_bytes, u64_bytes, ch_bytes, alpha_bytes]
  | stockDirectory m =>
    simp only [Message.wireType, h.1, specMessageLength_entry ('R', 39) (by decide)]
    simp [encode, u32_bytes, ch_bytes, alpha_bytes]
  | other type record => exact h.2.2.1

theorem wireType_specified {m : Message} (h : m.WireOk) : specMessageLength m.wireType ≠ 0 := by
  cases m with
  | other type record => exact h.1
  | addOrder m | addOrderWithMpid m | tradeNonCross m =>
    simp only [Message.wireType, h.1.1]
    decide +kernel
  | systemEvent m | orderExecuted m | orderExecutedWithPrice m | orderCancel m | orderDelete m
  | orderReplace m | stockDirectory m =>
    simp only [Message.wireType, h.1]
    decide +kernel

theorem encode_type {m : Message} (h : m.WireOk) :
    charAt (encode m).bytes 0 = m.wireType := by
  cases m with
  | other type record => exact h.2.2.2
  | _ =>
    simp only [encode, encode.encodeAdd, encode.encodeExecuted, u32_bytes, u64_bytes, ch_bytes,
      alpha_bytes, headerBuilder_bytes, List.append_assoc, charAt_head, Message.wireType]

theorem encode_sideOk {m : Message} (h : m.WireOk) :
    SideOk m.wireType (encode m).bytes := by
  rw [sideOk_iff, ofRecord_encode h]
  intro side hside
  cases m with
  | addOrder m | addOrderWithMpid m | tradeNonCross m =>
    cases hside
    exact (isValidSide_iff _).mp h.2
  | _ => cases hside

/-- The two bytes in front of a message declare its length. -/
theorem framed_isFrame {m : Message} (h : m.WireOk) : IsFrame (encode m).framed ∧
    frameType (encode m).framed = m.wireType ∧
    frameBody (encode m).framed = (encode m).bytes := by
  have hlen := encode_length h
  have hspec := wireType_specified h
  have htype := encode_type h
  have hlt := (specMessageLength m.wireType).toNat_lt
  have hdeclared : declaredLength
      ((UInt16.ofNat (encode m).bytes.length >>> 8) &&& 0xFF).toUInt8
      (UInt16.ofNat (encode m).bytes.length &&& 0xFF).toUInt8 = (encode m).bytes.length := by
    rw [declaredLength, hlen, UInt16.ofNat_toNat]
    simp only [UInt16.toNat_toUInt8, UInt16.toNat_and, UInt16.toNat_shiftRight,
      UInt16.reduceToNat, Nat.reduceMod, Nat.shiftRight_eq_div_pow]
    rw [show (255 : ℕ) = 2 ^ 8 - 1 from rfl, Nat.and_two_pow_sub_one_eq_mod,
      Nat.and_two_pow_sub_one_eq_mod]
    omega
  rw [RecordBuilder.framed]
  generalize (encode m).bytes = bytes at hlen htype hdeclared ⊢
  cases bytes with
  | nil =>
    have hzero : specMessageLength m.wireType = 0 := by
      rw [← UInt16.toNat_inj, ← hlen]
      rfl
    exact absurd hzero hspec
  | cons type tail =>
    have hhead : type = m.wireType := htype
    subst hhead
    exact ⟨⟨_, _, m.wireType, tail, rfl, hdeclared.symm, by rw [hdeclared, hlen]⟩, rfl, rfl⟩

/-- Over whole sessions, encoding and decoding are inverse to each other. A session of
messages is parsed into one handler call for each, in order, with a value equal in every
field; and every record of a decoded type with a good side byte is the encoding of the
message it decodes to. -/
theorem session_round_trip :
    (∀ items : List Message, (∀ m ∈ items, m.WireOk) →
      ∀ (build : Build) {σ : Type u} (handler : MessageHandler σ) (s : σ),
        parseAll build handler (items.flatMap fun m => (encode m).framed) s =
          (run (fun s m => handler m s) s items).map fun s =>
            ({ messages := items.length,
               bytesConsumed := (items.flatMap fun m => (encode m).framed).length }, s)) ∧
    (∀ (type : UInt8) (record : List UInt8), type ∈ decodedTypes →
      record.length = (specMessageLength type).toNat → SideOk type record →
      ∀ build : Build, ∃ m, decodeRecord build type record = .ok m ∧
        (encode m).bytes = record) := by
  refine ⟨fun items hitems build σ handler s => ?_, fun type record htype hlen hside build => ?_⟩
  · have hflat : (items.flatMap fun m => (encode m).framed) =
        (items.map fun m => (encode m).framed).flatten := List.flatMap_def
    have hwords : ∀ f ∈ items.map (fun m => (encode m).framed), IsFrame f := by
      intro f hf
      obtain ⟨m, hm, rfl⟩ := List.mem_map.mp hf
      exact (framed_isFrame (hitems m hm)).1
    have hsides : ∀ f ∈ items.map (fun m => (encode m).framed),
        SideOk (frameType f) (frameBody f) := by
      intro f hf
      obtain ⟨m, hm, rfl⟩ := List.mem_map.mp hf
      obtain ⟨_, htype, hbody⟩ := framed_isFrame (hitems m hm)
      rw [htype, hbody]
      exact encode_sideOk (hitems m hm)
    have hmessages : (items.map fun m => (encode m).framed).map frameMessage = items := by
      rw [List.map_map]
      conv_rhs => rw [← List.map_id items]
      apply List.map_congr_left
      intro m hm
      obtain ⟨_, htype, hbody⟩ := framed_isFrame (hitems m hm)
      rw [Function.comp_apply, frameMessage, htype, hbody, ofRecord_encode (hitems m hm)]
      rfl
    rw [hflat, parseAll_eq handler (parses_flatten hwords) (fun _ => hsides), hmessages,
      List.length_map]
    rfl
  · exact ⟨_, decodeRecord_ok hlen fun _ => hside, encode_ofRecord htype hlen⟩

end Sessions

end Itch
