import ItchOrderbook.ByteReader
import ItchOrderbook.MessageTable

/-!
# The decoded messages and their decoders

Each decoder states its layout by literal offsets. Prices stay in ticks, alpha
fields stay raw, a `char` is its byte.
-/

namespace Itch

/-- Units of $0.0001. -/
abbrev PriceTicks := UInt32

/-- Space-padded ASCII. -/
abbrev Stock := Vector UInt8 8
abbrev Mpid := Vector UInt8 4

/-- `enum class Side : char`: the cast from a `char` keeps any byte. -/
structure Side where
  value : UInt8
deriving DecidableEq, Repr

def Side.buy : Side := ⟨'B'.toUInt8⟩

def Side.sell : Side := ⟨'S'.toUInt8⟩

def isValidSide (value : UInt8) : Bool := value == 'B'.toUInt8 || value == 'S'.toUInt8

structure MessageHeader where
  type : UInt8
  stockLocate : UInt16
  trackingNumber : UInt16
  timestampNs : UInt64
deriving DecidableEq, Repr

structure SystemEvent where
  header : MessageHeader
  eventCode : UInt8
deriving DecidableEq, Repr

structure AddOrder where
  header : MessageHeader
  orderReference : UInt64
  side : Side
  shares : UInt32
  stock : Stock
  price : PriceTicks
deriving DecidableEq, Repr

structure AddOrderWithMpid where
  order : AddOrder
  attribution : Mpid
deriving DecidableEq, Repr

structure OrderExecuted where
  header : MessageHeader
  orderReference : UInt64
  executedShares : UInt32
  matchNumber : UInt64
deriving DecidableEq, Repr

structure OrderExecutedWithPrice where
  executed : OrderExecuted
  printable : UInt8
  executionPrice : PriceTicks
deriving DecidableEq, Repr

structure OrderCancel where
  header : MessageHeader
  orderReference : UInt64
  cancelledShares : UInt32
deriving DecidableEq, Repr

structure OrderDelete where
  header : MessageHeader
  orderReference : UInt64
deriving DecidableEq, Repr

structure OrderReplace where
  header : MessageHeader
  originalOrderReference : UInt64
  newOrderReference : UInt64
  shares : UInt32
  price : PriceTicks
deriving DecidableEq, Repr

structure TradeNonCross where
  header : MessageHeader
  orderReference : UInt64
  side : Side
  shares : UInt32
  stock : Stock
  price : PriceTicks
  matchNumber : UInt64
deriving DecidableEq, Repr

structure StockDirectory where
  header : MessageHeader
  stock : Stock
  marketCategory : UInt8
  financialStatusIndicator : UInt8
  roundLotSize : UInt32
  roundLotsOnly : UInt8
  issueClassification : UInt8
  issueSubType : Vector UInt8 2
  authenticity : UInt8
  shortSaleThresholdIndicator : UInt8
  ipoFlag : UInt8
  luldReferencePriceTier : UInt8
  etpFlag : UInt8
  etpLeverageFactor : UInt32
  inverseIndicator : UInt8
deriving DecidableEq, Repr

/-- What a handler is given: one overload of `on` for each decoded type, and `on_other`. -/
inductive Message
  | systemEvent (message : SystemEvent)
  | addOrder (message : AddOrder)
  | addOrderWithMpid (message : AddOrderWithMpid)
  | orderExecuted (message : OrderExecuted)
  | orderExecutedWithPrice (message : OrderExecutedWithPrice)
  | orderCancel (message : OrderCancel)
  | orderDelete (message : OrderDelete)
  | orderReplace (message : OrderReplace)
  | tradeNonCross (message : TradeNonCross)
  | stockDirectory (message : StockDirectory)
  | other (type : UInt8) (record : List UInt8)
deriving DecidableEq, Repr

section Decoders

variable (build : Build) (reader : ByteReader)

/-- `assert(reader.size() == spec_message_length(type))`. -/
def assertLength (type : Char) : Except Fault Unit :=
  cassert build .recordLength (reader.size == (specMessageLength type.toUInt8).toNat)

/-- `assert(is_valid_side(reader.read_char(19)))`; its read happens in the debug build only. -/
def assertSide : Except Fault Unit :=
  match build with
  | .relWithDebInfo => .ok ()
  | .debug => do
    let value ← reader.readChar 19
    cassert .debug .validSide (isValidSide value)

def decodeHeader : Except Fault MessageHeader := do
  let type ← reader.readChar 0
  let stockLocate ← reader.readU16 1
  let trackingNumber ← reader.readU16 3
  let timestampNs ← reader.readU48 5
  return { type, stockLocate, trackingNumber, timestampNs }

def decodeSystemEvent : Except Fault SystemEvent := do
  assertLength build reader 'S'
  let header ← decodeHeader reader
  let eventCode ← reader.readChar 11
  return { header, eventCode }

def decodeAddOrder : Except Fault AddOrder := do
  assertLength build reader 'A'
  assertSide build reader
  let header ← decodeHeader reader
  let orderReference ← reader.readU64 11
  let side ← reader.readChar 19
  let shares ← reader.readU32 20
  let stock ← reader.readAlpha 8 24
  let price ← reader.readU32 32
  return { header, orderReference, side := ⟨side⟩, shares, stock, price }

/-- The leading 36 bytes are laid out like an 'A'. -/
def decodeAddOrderWithMpid : Except Fault AddOrderWithMpid := do
  assertLength build reader 'F'
  assertSide build reader
  let header ← decodeHeader reader
  let orderReference ← reader.readU64 11
  let side ← reader.readChar 19
  let shares ← reader.readU32 20
  let stock ← reader.readAlpha 8 24
  let price ← reader.readU32 32
  let order : AddOrder := { header, orderReference, side := ⟨side⟩, shares, stock, price }
  let attribution ← reader.readAlpha 4 36
  return { order, attribution }

def decodeOrderExecuted : Except Fault OrderExecuted := do
  assertLength build reader 'E'
  let header ← decodeHeader reader
  let orderReference ← reader.readU64 11
  let executedShares ← reader.readU32 19
  let matchNumber ← reader.readU64 23
  return { header, orderReference, executedShares, matchNumber }

def decodeOrderExecutedWithPrice : Except Fault OrderExecutedWithPrice := do
  assertLength build reader 'C'
  let header ← decodeHeader reader
  let orderReference ← reader.readU64 11
  let executedShares ← reader.readU32 19
  let matchNumber ← reader.readU64 23
  let executed : OrderExecuted := { header, orderReference, executedShares, matchNumber }
  let printable ← reader.readChar 31
  let executionPrice ← reader.readU32 32
  return { executed, printable, executionPrice }

def decodeOrderCancel : Except Fault OrderCancel := do
  assertLength build reader 'X'
  let header ← decodeHeader reader
  let orderReference ← reader.readU64 11
  let cancelledShares ← reader.readU32 19
  return { header, orderReference, cancelledShares }

def decodeOrderDelete : Except Fault OrderDelete := do
  assertLength build reader 'D'
  let header ← decodeHeader reader
  let orderReference ← reader.readU64 11
  return { header, orderReference }

def decodeOrderReplace : Except Fault OrderReplace := do
  assertLength build reader 'U'
  let header ← decodeHeader reader
  let originalOrderReference ← reader.readU64 11
  let newOrderReference ← reader.readU64 19
  let shares ← reader.readU32 27
  let price ← reader.readU32 31
  return { header, originalOrderReference, newOrderReference, shares, price }

def decodeTradeNonCross : Except Fault TradeNonCross := do
  assertLength build reader 'P'
  assertSide build reader
  let header ← decodeHeader reader
  let orderReference ← reader.readU64 11
  let side ← reader.readChar 19
  let shares ← reader.readU32 20
  let stock ← reader.readAlpha 8 24
  let price ← reader.readU32 32
  let matchNumber ← reader.readU64 36
  return { header, orderReference, side := ⟨side⟩, shares, stock, price, matchNumber }

def decodeStockDirectory : Except Fault StockDirectory := do
  assertLength build reader 'R'
  let header ← decodeHeader reader
  let stock ← reader.readAlpha 8 11
  let marketCategory ← reader.readChar 19
  let financialStatusIndicator ← reader.readChar 20
  let roundLotSize ← reader.readU32 21
  let roundLotsOnly ← reader.readChar 25
  let issueClassification ← reader.readChar 26
  let issueSubType ← reader.readAlpha 2 27
  let authenticity ← reader.readChar 29
  let shortSaleThresholdIndicator ← reader.readChar 30
  let ipoFlag ← reader.readChar 31
  let luldReferencePriceTier ← reader.readChar 32
  let etpFlag ← reader.readChar 33
  let etpLeverageFactor ← reader.readU32 34
  let inverseIndicator ← reader.readChar 38
  return { header, stock, marketCategory, financialStatusIndicator, roundLotSize, roundLotsOnly,
           issueClassification, issueSubType, authenticity, shortSaleThresholdIndicator, ipoFlag,
           luldReferencePriceTier, etpFlag, etpLeverageFactor, inverseIndicator }

end Decoders

end Itch
