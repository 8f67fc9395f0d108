import ItchOrderbook.Parser

/-!
# What the decoders return

On a record of its specified length a decoder makes only reads inside the
record, so it returns the message written out below, field by field. The one
way left to fault is the side assert of the debug build.
-/

namespace Itch

open ByteFields

section Views

variable (record : List UInt8)

def MessageHeader.ofRecord : MessageHeader where
  type := charAt record 0
  stockLocate := u16At record 1
  trackingNumber := u16At record 3
  timestampNs := u48At record 5

def SystemEvent.ofRecord : SystemEvent where
  header := .ofRecord record
  eventCode := charAt record 11

def AddOrder.ofRecord : AddOrder where
  header := .ofRecord record
  orderReference := u64At record 11
  side := ⟨charAt record 19⟩
  shares := u32At record 20
  stock := alphaAt 8 record 24
  price := u32At record 32

def AddOrderWithMpid.ofRecord : AddOrderWithMpid where
  order := .ofRecord record
  attribution := alphaAt 4 record 36

def OrderExecuted.ofRecord : OrderExecuted where
  header := .ofRecord record
  orderReference := u64At record 11
  executedShares := u32At record 19
  matchNumber := u64At record 23

def OrderExecutedWithPrice.ofRecord : OrderExecutedWithPrice where
  executed := .ofRecord record
  printable := charAt record 31
  executionPrice := u32At record 32

def OrderCancel.ofRecord : OrderCancel where
  header := .ofRecord record
  orderReference := u64At record 11
  cancelledShares := u32At record 19

def OrderDelete.ofRecord : OrderDelete where
  header := .ofRecord record
  orderReference := u64At record 11

def OrderReplace.ofRecord : OrderReplace where
  header := .ofRecord record
  originalOrderReference := u64At record 11
  newOrderReference := u64At record 19
  shares := u32At record 27
  price := u32At record 31

def TradeNonCross.ofRecord : TradeNonCross where
  header := .ofRecord record
  orderReference := u64At record 11
  side := ⟨charAt record 19⟩
  shares := u32At record 20
  stock := alphaAt 8 record 24
  price := u32At record 32
  matchNumber := u64At record 36

def StockDirectory.ofRecord : StockDirectory where
  header := .ofRecord record
  stock := alphaAt 8 record 11
  marketCategory := charAt record 19
  financialStatusIndicator := charAt record 20
  roundLotSize := u32At record 21
  roundLotsOnly := charAt record 25
  issueClassification := charAt record 26
  issueSubType := alphaAt 2 record 27
  authenticity := charAt record 29
  shortSaleThresholdIndicator := charAt record 30
  ipoFlag := charAt record 31
  luldReferencePriceTier := charAt record 32
  etpFlag := charAt record 33
  etpLeverageFactor := u32At record 34
  inverseIndicator := charAt record 38

end Views

/-- The message a record of each type stands for. -/
def Message.ofRecord (type : UInt8) (record : List UInt8) : Message :=
  if type = 'A'.toUInt8 then .addOrder (.ofRecord record)
  else if type = 'D'.toUInt8 then .orderDelete (.ofRecord record)
  else if type = 'E'.toUInt8 then .orderExecuted (.ofRecord record)
  else if type = 'X'.toUInt8 then .orderCancel (.ofRecord record)
  else if type = 'U'.toUInt8 then .orderReplace (.ofRecord record)
  else if type = 'F'.toUInt8 then .addOrderWithMpid (.ofRecord record)
  else if type = 'C'.toUInt8 then .orderExecutedWithPrice (.ofRecord record)
  else if type = 'P'.toUInt8 then .tradeNonCross (.ofRecord record)
  else if type = 'S'.toUInt8 then .systemEvent (.ofRecord record)
  else if type = 'R'.toUInt8 then .stockDirectory (.ofRecord record)
  else .other type record

/-- The header every message carries; a raw record has it at the front. -/
def Message.header : Message → MessageHeader
  | .systemEvent message => message.header
  | .addOrder message => message.header
  | .addOrderWithMpid message => message.order.header
  | .orderExecuted message => message.header
  | .orderExecutedWithPrice message => message.executed.header
  | .orderCancel message => message.header
  | .orderDelete message => message.header
  | .orderReplace message => message.header
  | .tradeNonCross message => message.header
  | .stockDirectory message => message.header
  | .other _ record => .ofRecord record

theorem header_ofRecord (type : UInt8) (record : List UInt8) :
    (Message.ofRecord type record).header = .ofRecord record := by
  rw [Message.ofRecord]
  repeat' split
  all_goals rfl

/-- The types whose decoder asserts on the side byte. -/
def HasSide (type : UInt8) : Prop :=
  type = 'A'.toUInt8 ∨ type = 'F'.toUInt8 ∨ type = 'P'.toUInt8

instance (type : UInt8) : Decidable (HasSide type) := inferInstanceAs (Decidable (_ ∨ _))

/-- The side byte of an 'A', 'F' or 'P' record is 'B' or 'S'. -/
def SideOk (type : UInt8) (record : List UInt8) : Prop :=
  HasSide type → isValidSide (charAt record 19) = true

instance (type : UInt8) (record : List UInt8) : Decidable (SideOk type record) :=
  inferInstanceAs (Decidable (_ → _))

section Specs

variable {record : List UInt8} {build : Build}

theorem assertLength_ok {type : Char}
    (h : record.length = (specMessageLength type.toUInt8).toNat) :
    assertLength build ⟨record⟩ type = .ok () := by
  simp [assertLength, ByteReader.size, h]

theorem length_of_entry (type : Char) (n : UInt16) (hmem : (type, n) ∈ specLengthEntries)
    (h : record.length = (specMessageLength type.toUInt8).toNat) : record.length = n.toNat := by
  rw [h, specMessageLength_entry (type, n) hmem]

theorem assertSide_ok (h : 19 < record.length)
    (hside : build = .debug → isValidSide (charAt record 19) = true) :
    assertSide build ⟨record⟩ = .ok () := by
  cases build with
  | relWithDebInfo => rfl
  | debug =>
    simp only [assertSide, readChar_ok h, ok_bind, hside rfl]
    rfl

/-- The side assert fires in the debug build on any byte but 'B' and 'S'. -/
theorem assertSide_fails (h : 19 < record.length)
    (hside : isValidSide (charAt record 19) = false) :
    assertSide .debug ⟨record⟩ = .error (.assertion .validSide) := by
  simp only [assertSide, readChar_ok h, ok_bind, hside]
  rfl

theorem decodeHeader_ok (h : 11 ≤ record.length) :
    decodeHeader ⟨record⟩ = .ok (.ofRecord record) := by
  simp (disch := omega) only [decodeHeader, readChar_ok, readU16_ok, readU48_ok, ok_bind]
  rfl

theorem decodeSystemEvent_ok (h : record.length = (specMessageLength 'S'.toUInt8).toNat) :
    decodeSystemEvent build ⟨record⟩ = .ok (.ofRecord record) := by
  have hlen : record.length = 12 := length_of_entry 'S' 12 (by decide) h
  simp (disch := omega) only [decodeSystemEvent, assertLength_ok h, decodeHeader_ok,
    readChar_ok, ok_bind]
  rfl

theorem decodeAddOrder_ok (h : record.length = (specMessageLength 'A'.toUInt8).toNat)
    (hside : build = .debug → isValidSide (charAt record 19) = true) :
    decodeAddOrder build ⟨record⟩ = .ok (.ofRecord record) := by
  have hlen : record.length = 36 := length_of_entry 'A' 36 (by decide) h
  simp (disch := omega) only [decodeAddOrder, assertLength_ok h, assertSide_ok (by omega) hside,
    decodeHeader_ok, readChar_ok, readU32_ok, readU64_ok, readAlpha_ok, ok_bind]
  rfl

theorem decodeAddOrderWithMpid_ok (h : record.length = (specMessageLength 'F'.toUInt8).toNat)
    (hside : build = .debug → isValidSide (charAt record 19) = true) :
    decodeAddOrderWithMpid build ⟨record⟩ = .ok (.ofRecord record) := by
  have hlen : record.length = 40 := length_of_entry 'F' 40 (by decide) h
  simp (disch := omega) only [decodeAddOrderWithMpid, assertLength_ok h,
    assertSide_ok (by omega) hside, decodeHeader_ok, readChar_ok, readU32_ok, readU64_ok,
    readAlpha_ok, ok_bind]
  rfl

theorem decodeOrderExecuted_ok (h : record.length = (specMessageLength 'E'.toUInt8).toNat) :
    decodeOrderExecuted build ⟨record⟩ = .ok (.ofRecord record) := by
  have hlen : record.length = 31 := length_of_entry 'E' 31 (by decide) h
  simp (disch := omega) only [decodeOrderExecuted, assertLength_ok h, decodeHeader_ok, readU32_ok,
    readU64_ok, ok_bind]
  rfl

theorem decodeOrderExecutedWithPrice_ok
    (h : record.length = (specMessageLength 'C'.toUInt8).toNat) :
    decodeOrderExecutedWithPrice build ⟨record⟩ = .ok (.ofRecord record) := by
  have hlen : record.length = 36 := length_of_entry 'C' 36 (by decide) h
  simp (disch := omega) only [decodeOrderExecutedWithPrice, assertLength_ok h, decodeHeader_ok,
    readChar_ok, readU32_ok, readU64_ok, ok_bind]
  rfl

theorem decodeOrderCancel_ok (h : record.length = (specMessageLength 'X'.toUInt8).toNat) :
    decodeOrderCancel build ⟨record⟩ = .ok (.ofRecord record) := by
  have hlen : record.length = 23 := length_of_entry 'X' 23 (by decide) h
  simp (disch := omega) only [decodeOrderCancel, assertLength_ok h, decodeHeader_ok, readU32_ok,
    readU64_ok, ok_bind]
  rfl

theorem decodeOrderDelete_ok (h : record.length = (specMessageLength 'D'.toUInt8).toNat) :
    decodeOrderDelete build ⟨record⟩ = .ok (.ofRecord record) := by
  have hlen : record.length = 19 := length_of_entry 'D' 19 (by decide) h
  simp (disch := omega) only [decodeOrderDelete, assertLength_ok h, decodeHeader_ok,
    readU64_ok, ok_bind]
  rfl

theorem decodeOrderReplace_ok (h : record.length = (specMessageLength 'U'.toUInt8).toNat) :
    decodeOrderReplace build ⟨record⟩ = .ok (.ofRecord record) := by
  have hlen : record.length = 35 := length_of_entry 'U' 35 (by decide) h
  simp (disch := omega) only [decodeOrderReplace, assertLength_ok h, decodeHeader_ok, readU32_ok,
    readU64_ok, ok_bind]
  rfl

theorem decodeTradeNonCross_ok (h : record.length = (specMessageLength 'P'.toUInt8).toNat)
    (hside : build = .debug → isValidSide (charAt record 19) = true) :
    decodeTradeNonCross build ⟨record⟩ = .ok (.ofRecord record) := by
  have hlen : record.length = 44 := length_of_entry 'P' 44 (by decide) h
  simp (disch := omega) only [decodeTradeNonCross, assertLength_ok h,
    assertSide_ok (by omega) hside, decodeHeader_ok, readChar_ok, readU32_ok, readU64_ok,
    readAlpha_ok, ok_bind]
  rfl

theorem decodeStockDirectory_ok (h : record.length = (specMessageLength 'R'.toUInt8).toNat) :
    decodeStockDirectory build ⟨record⟩ = .ok (.ofRecord record) := by
  have hlen : record.length = 39 := length_of_entry 'R' 39 (by decide) h
  simp (disch := omega) only [decodeStockDirectory, assertLength_ok h, decodeHeader_ok, readChar_ok,
    readU32_ok, readAlpha_ok, ok_bind]
  rfl

/-- The switch agrees with the table: a record of its type's length decodes. -/
theorem decodeRecord_ok {type : UInt8} (h : record.length = (specMessageLength type).toNat)
    (hside : build = .debug → SideOk type record) :
    decodeRecord build type record = .ok (.ofRecord type record) := by
  simp only [decodeRecord, Message.ofRecord]
  by_cases hA : type = 'A'.toUInt8
  · subst hA
    have hvalid := fun hb => hside hb (Or.inl rfl)
    simp only [if_pos, decodeAddOrder_ok h hvalid]
    rfl
  rw [if_neg hA, if_neg hA]
  by_cases hD : type = 'D'.toUInt8
  · subst hD
    simp only [if_pos, decodeOrderDelete_ok h]
    rfl
  rw [if_neg hD, if_neg hD]
  by_cases hE : type = 'E'.toUInt8
  · subst hE
    simp only [if_pos, decodeOrderExecuted_ok h]
    rfl
  rw [if_neg hE, if_neg hE]
  by_cases hX : type = 'X'.toUInt8
  · subst hX
    simp only [if_pos, decodeOrderCancel_ok h]
    rfl
  rw [if_neg hX, if_neg hX]
  by_cases hU : type = 'U'.toUInt8
  · subst hU
    simp only [if_pos, decodeOrderReplace_ok h]
    rfl
  rw [if_neg hU, if_neg hU]
  by_cases hF : type = 'F'.toUInt8
  · subst hF
    have hvalid := fun hb => hside hb (Or.inr (Or.inl rfl))
    simp only [if_pos, decodeAddOrderWithMpid_ok h hvalid]
    rfl
  rw [if_neg hF, if_neg hF]
  by_cases hC : type = 'C'.toUInt8
  · subst hC
    simp only [if_pos, decodeOrderExecutedWithPrice_ok h]
    rfl
  rw [if_neg hC, if_neg hC]
  by_cases hP : type = 'P'.toUInt8
  · subst hP
    have hvalid := fun hb => hside hb (Or.inr (Or.inr rfl))
    simp only [if_pos, decodeTradeNonCross_ok h hvalid]
    rfl
  rw [if_neg hP, if_neg hP]
  by_cases hS : type = 'S'.toUInt8
  · subst hS
    simp only [if_pos, decodeSystemEvent_ok h]
    rfl
  rw [if_neg hS, if_neg hS]
  by_cases hR : type = 'R'.toUInt8
  · subst hR
    simp only [if_pos, decodeStockDirectory_ok h]
    rfl
  rw [if_neg hR, if_neg hR]

/-- On a record with a bad side byte the debug build stops at the side assert. -/
theorem decodeRecord_bad_side {type : UInt8}
    (h : record.length = (specMessageLength type).toNat) (hbad : ¬ SideOk type record) :
    decodeRecord .debug type record = .error (.assertion .validSide) := by
  simp only [SideOk, Classical.not_imp, Bool.not_eq_true] at hbad
  obtain ⟨htype, hbad⟩ := hbad
  rcases htype with rfl | rfl | rfl
  · have hlen : record.length = 36 := length_of_entry 'A' 36 (by decide) h
    have hside := assertSide_fails (by omega) hbad
    simp only [decodeRecord, if_pos, decodeAddOrder, assertLength_ok h, hside, ok_bind]
    rfl
  · have hlen : record.length = 40 := length_of_entry 'F' 40 (by decide) h
    have hside := assertSide_fails (by omega) hbad
    have hdecode : decodeAddOrderWithMpid .debug ⟨record⟩ = .error (.assertion .validSide) := by
      simp only [decodeAddOrderWithMpid, assertLength_ok h, hside, ok_bind]
      rfl
    exact congrArg (Except.map Message.addOrderWithMpid) hdecode
  · have hlen : record.length = 44 := length_of_entry 'P' 44 (by decide) h
    have hside := assertSide_fails (by omega) hbad
    have hdecode : decodeTradeNonCross .debug ⟨record⟩ = .error (.assertion .validSide) := by
      simp only [decodeTradeNonCross, assertLength_ok h, hside, ok_bind]
      rfl
    exact congrArg (Except.map Message.tradeNonCross) hdecode

end Specs

end Itch
