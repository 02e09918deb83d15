import Wslay.Frame.Context

/-!
# `wslay_frame_recv`

The receiving half of `src/wslay/frame.c`: four blocks guarded by a test of
`istate`, each of which falls through to the next.
-/

namespace Wslay

open Octets (Key beVal xorFrom)

/-- `wslay_shift_ibuf`. -/
def shiftIbuf (c : FrameContext) : FrameContext :=
  { c with ibuf := c.avail, ibufmark := 0 }

/-- `wslay_recv`. -/
def wslayRecv (c : FrameContext) (io : Io) : Option Err × FrameContext × Io :=
  let c := if c.ibufmark ≠ 0 then shiftIbuf c else c
  match io.recvCallback (ibufSize - c.ibuf.length) with
  | (bs, io) =>
    if bs ≠ [] then (none, { c with ibuf := c.ibuf ++ bs }, io)
    else (some .wantRead, c, io)

/-- The opening of the three header blocks: make `ireqread` octets available,
asking `recv_callback` once, or give up for now. -/
def requireIbuf (c : FrameContext) (io : Io) : Option Err × FrameContext × Io :=
  if c.avail.length < c.ireqread then
    match wslayRecv c io with
    | (some e, c, io) => (some e, c, io)
    | (none, c, io) =>
      if c.avail.length < c.ireqread then (some .wantRead, c, io) else (none, c, io)
  else (none, c, io)

/-- What the first block does once the two octets are there: it reads them, and
either rejects the frame or settles which block comes next. -/
def readHeader1 (c : FrameContext) : Option Err × FrameContext :=
  let b0 := c.avail.getD 0 0
  let b1 := c.avail.getD 1 0
  let fin := (b0 >>> 7) &&& 1
  let rsv := (b0 >>> 4) &&& 7
  let opcode := b0 &&& 0xf
  let payloadlen := b1 &&& 0x7f
  let imask := (b1 >>> 7) &&& 1 != 0
  let c := { c with iom := ⟨fin, opcode, rsv⟩, imask := imask, ibufmark := c.ibufmark + 2 }
  if isCtrlFrame opcode && (decide (125 < payloadlen) || fin == 0) then (some .proto, c)
  else if payloadlen = 126 then (none, { c with istate := .recvExtPayloadlen, ireqread := 2 })
  else if payloadlen = 127 then (none, { c with istate := .recvExtPayloadlen, ireqread := 8 })
  else
    let c := { c with ipayloadlen := payloadlen.toNat, ipayloadoff := 0 }
    if imask then (none, { c with istate := .recvMaskkey, ireqread := 4 })
    else (none, { c with istate := .recvPayload })

/-- The block `istate == RECV_HEADER1`. -/
def recvHeader1 (c : FrameContext) (io : Io) : Option Err × FrameContext × Io :=
  if c.istate = .recvHeader1 then
    match requireIbuf c io with
    | (some e, c, io) => (some e, c, io)
    | (none, c, io) => ((readHeader1 c).1, (readHeader1 c).2, io)
  else (none, c, io)

/-- `be64toh` of an eight octet buffer. -/
def be64toh (bs : List UInt8) : Nat := beVal bs

/-- What the second block does once the extended length is there. -/
def readExtPayloadlen (c : FrameContext) : Option Err × FrameContext :=
  let len := be64toh (List.replicate (8 - c.ireqread) 0 ++ c.avail.take c.ireqread)
  let c := { c with ipayloadlen := len, ipayloadoff := 0, ibufmark := c.ibufmark + c.ireqread }
  if c.ireqread = 8 && (decide (len < 2 ^ 16) || len.testBit 63) then (some .proto, c)
  else if c.ireqread ≠ 8 && decide (len < 126) then (some .proto, c)
  else if c.imask then (none, { c with istate := .recvMaskkey, ireqread := 4 })
  else (none, { c with istate := .recvPayload })

/-- The block `istate == RECV_EXT_PAYLOADLEN`. -/
def recvExtPayloadlen (c : FrameContext) (io : Io) : Option Err × FrameContext × Io :=
  if c.istate = .recvExtPayloadlen then
    match requireIbuf c io with
    | (some e, c, io) => (some e, c, io)
    | (none, c, io) => ((readExtPayloadlen c).1, (readExtPayloadlen c).2, io)
  else (none, c, io)

/-- What the third block does once the mask key is there. -/
def readMaskkey (c : FrameContext) : FrameContext :=
  { c with imaskkey := Key.ofBytes (c.avail.take 4), ibufmark := c.ibufmark + 4,
           istate := .recvPayload }

/-- The block `istate == RECV_MASKKEY`. -/
def recvMaskkey (c : FrameContext) (io : Io) : Option Err × FrameContext × Io :=
  if c.istate = .recvMaskkey then
    match requireIbuf c io with
    | (some e, c, io) => (some e, c, io)
    | (none, c, io) => (none, readMaskkey c, io)
  else (none, c, io)

/-- What the last block does once there is payload to hand out, or none is
missing: it unmasks in place all it has of the frame and fills in the `iocb`. -/
def readPayload (c : FrameContext) : Iocb × FrameContext :=
  let n := min c.avail.length (c.ipayloadlen - c.ipayloadoff)
  let raw := c.avail.take n
  let data := if c.imask then xorFrom c.imaskkey c.ipayloadoff raw else raw
  let iocb : Iocb :=
    { fin := c.iom.fin, rsv := c.iom.rsv, opcode := c.iom.opcode,
      payloadLength := c.ipayloadlen, mask := c.imask, data := data }
  let c := { c with ibuf := c.ibuf.take c.ibufmark ++ data ++ c.avail.drop n,
                    ibufmark := c.ibufmark + n, ipayloadoff := c.ipayloadoff + n }
  (iocb, if c.ipayloadlen = c.ipayloadoff then { c with istate := .recvHeader1, ireqread := 2 }
    else c)

/-- The block `istate == RECV_PAYLOAD`, and the result of a call that is in none
of the four states. -/
def recvPayload (c : FrameContext) (io : Io) : Except Err Iocb × FrameContext × Io :=
  if c.istate = .recvPayload then
    if c.avail = [] ∧ 0 < c.ipayloadlen - c.ipayloadoff then
      match wslayRecv c io with
      | (some e, c, io) => (.error e, c, io)
      | (none, c, io) => (.ok (readPayload c).1, (readPayload c).2, io)
    else (.ok (readPayload c).1, (readPayload c).2, io)
  else (.error .invalidArgument, c, io)

/-- `wslay_frame_recv`: a piece of a frame, or an error. -/
def frameRecv (c : FrameContext) (io : Io) : Except Err Iocb × FrameContext × Io :=
  match recvHeader1 c io with
  | (some e, c, io) => (.error e, c, io)
  | (none, c, io) =>
    match recvExtPayloadlen c io with
    | (some e, c, io) => (.error e, c, io)
    | (none, c, io) =>
      match recvMaskkey c io with
      | (some e, c, io) => (.error e, c, io)
      | (none, c, io) => recvPayload c io

end Wslay
