import Wslay.Frame.Context

/-!
# `wslay_frame_send`

The sending half of `src/wslay/frame.c`.  The C function is three blocks, each
guarded by a test of `ostate`, that fall through from one to the next; every
block is one definition here.
-/

namespace Wslay

open Octets (Key beBytes xorFrom)

/-- The first header octet: `fin`, `rsv` and `opcode` packed together. -/
def headerOctet (iocb : Iocb) : UInt8 :=
  ((iocb.fin <<< (7 : UInt8)) &&& (0x80 : UInt8)) |||
    ((iocb.rsv <<< (4 : UInt8)) &&& (0x70 : UInt8)) ||| (iocb.opcode &&& (0xf : UInt8))

/-- The mask bit of the second header octet. -/
def maskBit (mask : Bool) : UInt8 := if mask then 0x80 else 0

/-- The second header octet and the extended length, in the shortest of the
three forms; none when the length does not fit in 63 bits. -/
def headerLength (mask : Bool) (n : Nat) : Option (List UInt8) :=
  if n < 126 then some [maskBit mask ||| UInt8.ofNat n]
  else if n < 2 ^ 16 then some ((maskBit mask ||| 126) :: beBytes 2 n)
  else if n < 2 ^ 63 then some ((maskBit mask ||| 127) :: beBytes 8 n)
  else none

/-- The block `ostate == PREP_HEADER`. -/
def sendPrepHeader (c : FrameContext) (iocb : Iocb) (io : Io) : Option Err × FrameContext × Io :=
  if c.ostate = .prepHeader then
    if isCtrlFrame iocb.opcode && decide (125 < iocb.payloadLength) then
      (some .invalidArgument, c, io)
    else
      match headerLength iocb.mask iocb.payloadLength with
      | none => (some .invalidArgument, c, io)
      | some len =>
        let ready (c : FrameContext) (key : List UInt8) : FrameContext :=
          { c with ostate := .sendHeader, oheader := headerOctet iocb :: len ++ key,
                   oheadermark := 0, opayloadlen := iocb.payloadLength, opayloadoff := 0 }
        if iocb.mask then
          match io.genmaskCallback with
          | (none, io) => (some .invalidCallback, c, io)
          | (some key, io) =>
            (none, ready { c with omask := true, omaskkey := key } key.bytes, io)
        else (none, ready c [], io)
  else (none, c, io)

/-- The block `ostate == SEND_HEADER`. -/
def sendHeader (c : FrameContext) (iocb : Iocb) (io : Io) : Option Err × FrameContext × Io :=
  if c.ostate = .sendHeader then
    let len := c.oheaderRest.length
    match io.sendCallback ⟨c.oheaderRest, decide (iocb.data ≠ []), false⟩ with
    | (r, io) =>
      if 0 < r then
        if (len : Int) < r then (some .invalidCallback, c, io)
        else
          let c := { c with oheadermark := c.oheadermark + r.toNat }
          if c.oheadermark = c.oheader.length then (none, { c with ostate := .sendPayload }, io)
          else (some .wantWrite, c, io)
      else (some .wantWrite, c, io)
  else (none, c, io)

/-- `sizeof ( temp )`, the piece of payload masked at a time. -/
def tempSize : Nat := 4096

/-- The masking loop of the block `ostate == SEND_PAYLOAD`: `data` is what lies
from `datamark` to `datalimit`.  Every pass that does not leave the loop moves
`datamark`, so as much fuel as there are octets is enough. -/
def sendMaskedLoop : Nat → FrameContext → List UInt8 → Nat → Io → Except Err Nat × FrameContext × Io
  | 0, c, _, totallen, io => (.ok totallen, c, io)
  | fuel + 1, c, data, totallen, io =>
    if data = [] then (.ok totallen, c, io)
    else
      let temp := xorFrom c.omaskkey c.opayloadoff (data.take tempSize)
      match io.sendCallback ⟨temp, false, false⟩ with
      | (r, io) =>
        if 0 < r then
          if (temp.length : Int) < r then (.error .invalidCallback, c, io)
          else
            sendMaskedLoop fuel { c with opayloadoff := c.opayloadoff + r.toNat }
              (data.drop r.toNat) (totallen + r.toNat) io
        else if 0 < totallen then (.ok totallen, c, io)
        else (.error .wantWrite, c, io)

/-- The sending part of the block `ostate == SEND_PAYLOAD`. -/
def sendData (c : FrameContext) (iocb : Iocb) (io : Io) : Except Err Nat × FrameContext × Io :=
  if iocb.data = [] then (.ok 0, c, io)
  else if c.omask then sendMaskedLoop iocb.data.length c iocb.data 0 io
  else
    match io.sendCallback ⟨iocb.data, false, true⟩ with
    | (r, io) =>
      if 0 < r then
        if (iocb.data.length : Int) < r then (.error .invalidCallback, c, io)
        else (.ok r.toNat, { c with opayloadoff := c.opayloadoff + r.toNat }, io)
      else (.error .wantWrite, c, io)

/-- The block `ostate == SEND_PAYLOAD`, and the result of a call that is in none
of the three states. -/
def sendPayload (c : FrameContext) (iocb : Iocb) (io : Io) : Except Err Nat × FrameContext × Io :=
  if c.ostate = .sendPayload then
    match sendData c iocb io with
    | (.error e, c, io) => (.error e, c, io)
    | (.ok totallen, c, io) =>
      if c.opayloadoff = c.opayloadlen then (.ok totallen, { c with ostate := .prepHeader }, io)
      else (.ok totallen, c, io)
  else (.error .invalidArgument, c, io)

/-- `wslay_frame_send`: the number of payload octets sent, or an error. -/
def frameSend (c : FrameContext) (iocb : Iocb) (io : Io) : Except Err Nat × FrameContext × Io :=
  if iocb.payloadLength < iocb.data.length then (.error .invalidArgument, c, io)
  else
    match sendPrepHeader c iocb io with
    | (some e, c, io) => (.error e, c, io)
    | (none, c, io) =>
      match sendHeader c iocb io with
      | (some e, c, io) => (.error e, c, io)
      | (none, c, io) => sendPayload c iocb io

end Wslay
