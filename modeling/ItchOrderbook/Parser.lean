import ItchOrderbook.Framer
import ItchOrderbook.Messages

/-!
# Dispatch from frames to decoded messages

A handler is an overload set: one `on` for each decoded type and `on_other` for
the rest. Here it is one function on `Message` that threads its own state.
-/

namespace Itch

universe u

abbrev MessageHandler (σ : Type u) := Message → σ → Except Fault σ

/-- The `switch` of `dispatch_record`: which decoder a type selects. -/
def decodeRecord (build : Build) (type : UInt8) (record : List UInt8) : Except Fault Message :=
  let reader : ByteReader := ⟨record⟩
  if type = 'A'.toUInt8 then (decodeAddOrder build reader).map .addOrder
  else if type = 'D'.toUInt8 then (decodeOrderDelete build reader).map .orderDelete
  else if type = 'E'.toUInt8 then (decodeOrderExecuted build reader).map .orderExecuted
  else if type = 'X'.toUInt8 then (decodeOrderCancel build reader).map .orderCancel
  else if type = 'U'.toUInt8 then (decodeOrderReplace build reader).map .orderReplace
  else if type = 'F'.toUInt8 then
    (decodeAddOrderWithMpid build reader).map .addOrderWithMpid
  else if type = 'C'.toUInt8 then
    (decodeOrderExecutedWithPrice build reader).map .orderExecutedWithPrice
  else if type = 'P'.toUInt8 then (decodeTradeNonCross build reader).map .tradeNonCross
  else if type = 'S'.toUInt8 then (decodeSystemEvent build reader).map .systemEvent
  else if type = 'R'.toUInt8 then (decodeStockDirectory build reader).map .stockDirectory
  else .ok (.other type record)

variable {σ : Type u}

def dispatchRecord (build : Build) (handler : MessageHandler σ) (type : UInt8)
    (record : List UInt8) (state : σ) : Except Fault σ :=
  match decodeRecord build type record with
  | .ok message => handler message state
  | .error fault => .error fault

def parseAll (build : Build) (handler : MessageHandler σ) (file : List UInt8) (state : σ) :
    Except Fault (FrameOutcome × σ) :=
  frameAll (dispatchRecord build handler) file state

end Itch
