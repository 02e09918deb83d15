import Wslay.Event.Send
import Wslay.Frame.Recv

/-!
# `wslay_event_recv`

The receiving loop of `src/wslay/event.c`.  One pass takes one piece of a frame
from `wslay_frame_recv` and brings it through the blocks of the loop body, each
of which is one definition: finding out whether a frame begins
(`recvNewFrame`), accepting it (`recvBeginFrame`), checking UTF-8
(`recvCheckUtf8`), storing the payload (`recvStore`), and completing the frame
and the message (`recvComplete`).

While a receive callback runs the application may call back into the library;
`notify` is a call of such a callback together with what the application does
meanwhile.
-/

namespace Wslay

open Octets (beVal)
open Loop (Step)

/-! ## Calls of the application -/

/-- One call of the application. -/
def appCall (c : EventContext) (io : Io) : AppCall → Int × EventContext × Io
  | .queueMsg arg => eventQueueMsg c arg io
  | .queueFragmentedMsg arg => eventQueueFragmentedMsg c arg io
  | .queueClose statusCode reason => eventQueueClose c statusCode reason io
  | .send => eventSend c io
  | .setError val => (0, c, eventSetError io val)
  | .shutdownRead => (0, eventShutdownRead c, io)
  | .shutdownWrite => (0, eventShutdownWrite c, io)

/-- The calls of the application, one after the other. -/
def appCalls (s : EventContext × Io) (calls : List AppCall) : EventContext × Io :=
  calls.foldl (fun s call => (appCall s.1 s.2 call).2) s

/-- A receive callback runs, if it is set. -/
def notify (isSet : Bool) (call : Call) (c : EventContext) (io : Io) : EventContext × Io :=
  if isSet then
    let io := { io with calls := io.calls ++ [call] }
    match io.apps with
    | [] => (c, io)
    | calls :: rest => appCalls (c, { io with apps := rest }) calls
  else (c, io)

/-! ## Pieces of the loop body -/

/-- `wslay_event_imsg_append_chunk`: its result and the message. -/
def eventImsgAppendChunk (c : EventContext) (m : EventImsg) (len : Nat) (io : Io) :
    Int × EventImsg × Io :=
  if len = 0 then (0, m, io)
  else
    match io.malloc with
    | (false, io) => (1, m, io)
    | (true, io) =>
      match io.malloc with
      | (false, io) => (2, m, io)
      | (true, io) =>
        match io.malloc with
        | (false, io) => (2, m, io)
        | (true, io) =>
          (0, { m with chunks := { m.chunks with cells := m.chunks.cells ++ [⟨[], len⟩] },
                       msgLength := c.toSize (m.msgLength + len) }, io)

/-- The loop of `wslay_event_flatten_queue`: the buffer it fills, and what is
left of the queue. -/
def flattenCells : List ByteChunk → Nat → Nat → List UInt8 → Option (List UInt8) × List ByteChunk
  | [], len, off, buf => (if len = off then some buf else none, [])
  | ch :: chs, len, off, buf =>
    if len < off + ch.dataLength then (none, chs)
    else flattenCells chs len (off + ch.dataLength) (buf ++ ch.data)

/-- `wslay_event_flatten_queue`: the buffer, or none for `NULL`. -/
def eventFlattenQueue (q : ChunkQueue) (len : Nat) (io : Io) :
    Option (List UInt8) × ChunkQueue × Io :=
  if len = 0 then (none, q, io)
  else
    match io.malloc with
    | (false, io) => (none, q, io)
    | (true, io) =>
      match flattenCells q.cells len 0 [] with
      | (buf, cells) => (buf, { q with cells := cells }, io)

/-- `memcpy ( chunk->data + off, src, n )` on the chunk that `wslay_queue_tail`
finds. -/
def writeTail (q : ChunkQueue) (off : Nat) (src : List UInt8) : ChunkQueue :=
  match q.cells.getLast? with
  | none => q
  | some ch =>
    let data := ch.data.take off ++ src ++ ch.data.drop (off + src.length)
    { q with cells := q.cells.dropLast ++ [{ ch with data := data }] }

/-- `wslay_event_is_valid_status_code`. -/
def eventIsValidStatusCode (code : Nat) : Bool :=
  (1000 ≤ code && code ≤ 1011 && code != 1004 && code != 1005 && code != 1006) ||
    (3000 ≤ code && code ≤ 4999)

/-- The UTF-8 loop over one piece of payload: the state it ends in, and whether
it met an octet that `decode` rejects. -/
def utf8Scan : Nat → List UInt8 → Nat × Bool
  | st, [] => (st, false)
  | st, b :: bs =>
    let st := (decode st 0 b).1
    if st = utf8Reject then (st, true) else utf8Scan st bs

/-- `if ( ( r = wslay_event_queue_close_wrapper ( .. ) ) != 0 ) return r; break;` -/
def failWith (code : Nat) (c : EventContext) (io : Io) : Step (EventContext × Io) Int :=
  match eventQueueCloseWrapper c (UInt16.ofNat code) [] io with
  | (r, c, io) => .leave r (c, io)

/-- Whether the payload of this frame is kept. -/
def isBuffered (c : EventContext) (opcode : UInt8) : Bool := !c.noBuffering || isCtrlFrame opcode

/-! ## The loop body -/

/-- The piece has reserved bits set, or the wrong mask bit for our role. -/
def badFrameBits (c : EventContext) (iocb : Iocb) : Bool :=
  iocb.rsv != 0 || (c.server && !iocb.mask) || (!c.server && iocb.mask)

/-- The opcodes a slot without a message accepts. -/
def opensMessage (opcode : UInt8) : Bool :=
  opcode == textFrame || opcode == binaryFrame || opcode == connectionClose || opcode == ping ||
    opcode == pong

/-- The control opcodes accepted inside a message. -/
def interleaves (opcode : UInt8) : Bool :=
  opcode == connectionClose || opcode == ping || opcode == pong

/-- Does a frame begin with this piece?  None if it may not begin here. -/
def recvNewFrame (c : EventContext) (iocb : Iocb) : Option (EventContext × Bool) :=
  if c.curImsg.opcode = noOpcode then
    if opensMessage iocb.opcode then
      some (c.setImsg (c.curImsg.set iocb.fin iocb.rsv iocb.opcode), true)
    else none
  else if c.ipayloadlen = 0 ∧ c.ipayloadoff = 0 then
    if iocb.opcode = continuationFrame then
      some (c.setImsg { c.curImsg with fin := iocb.fin }, true)
    else if interleaves iocb.opcode then
      let c := { c with imsg := .one }
      some (c.setImsg (c.curImsg.set iocb.fin iocb.rsv iocb.opcode), true)
    else none
  else some (c, false)

/-- The block `if ( new_frame )`. -/
def recvBeginFrame (iocb : Iocb) (c : EventContext) (io : Io) : Step (EventContext × Io) Int :=
  if c.maxRecvMsgLength < (c.curImsg.msgLength + iocb.payloadLength) % 2 ^ 64 then
    failWith codeMessageTooBig c io
  else
    match notify c.callbacks.onFrameRecvStart
      (.frameRecvStart iocb.fin iocb.rsv iocb.opcode iocb.payloadLength)
      { c with ipayloadlen := iocb.payloadLength } io with
    | (c, io) =>
      if isBuffered c iocb.opcode then
        match eventImsgAppendChunk c c.curImsg (c.toSize iocb.payloadLength) io with
        | (r, m, io) =>
          if r ≠ 0 then .leave (-1) ({ c.setImsg m with readEnabled := false }, io)
          else .again (c.setImsg m, io)
      else .again (c, io)

/-- The UTF-8 check of a piece, and the test of its outcome.  In a Close frame
the two octets of the status code are passed over. -/
def recvCheckUtf8 (iocb : Iocb) (c : EventContext) (io : Io) : Step (EventContext × Io) Int :=
  if c.curImsg.opcode = textFrame ∨ c.curImsg.opcode = connectionClose then
    let i := if c.curImsg.opcode = connectionClose then 2 else 0
    match utf8Scan c.curImsg.utf8state (iocb.data.drop i) with
    | (st, rejected) =>
      let c := c.setImsg { c.curImsg with utf8state := st }
      if rejected then failWith codeInvalidFramePayloadData c io
      else if st = utf8Reject then .leave 0 (c, io)
      else .again (c, io)
  else if c.curImsg.utf8state = utf8Reject then .leave 0 (c, io)
  else .again (c, io)

/-- The chunk callback, and the copy of the piece. -/
def recvStore (iocb : Iocb) (c : EventContext) (io : Io) : EventContext × Io :=
  match notify c.callbacks.onFrameRecvChunk (.frameRecvChunk iocb.data) c io with
  | (c, io) =>
    if iocb.data ≠ [] then
      let c :=
        if isBuffered c iocb.opcode then
          c.setImsg { c.curImsg with
            chunks := writeTail c.curImsg.chunks c.ipayloadoff iocb.data }
        else c
      ({ c with ipayloadoff := c.ipayloadoff + iocb.data.length }, io)
    else (c, io)

/-- The message of a fin frame, as the callback is to see it.  Fails when the
chunks cannot be put together. -/
def recvFlatten (iocb : Iocb) (c : EventContext) (io : Io) :
    Option (List UInt8) × EventContext × Io :=
  if isBuffered c iocb.opcode then
    match eventFlattenQueue c.curImsg.chunks c.curImsg.msgLength io with
    | (msg, chunks, io) =>
      let c := c.setImsg { c.curImsg with chunks := chunks }
      if c.curImsg.msgLength ≠ 0 ∧ msg = none then (none, { c with readEnabled := false }, io)
      else (some (msg.getD []), c, io)
  else (some [], c, io)

/-- What a complete Close frame does: the status code it carries, and the reply. -/
def recvClose (msg : List UInt8) (c : EventContext) (io : Io) : Step (EventContext × Io) Int :=
  if 2 ≤ c.curImsg.msgLength ∧ !eventIsValidStatusCode (beVal (msg.take 2)) then
    failWith codeProtocolError c io
  else
    let statusCode := if 2 ≤ c.curImsg.msgLength then beVal (msg.take 2) else 0
    let reason := if 2 ≤ c.curImsg.msgLength then msg.drop 2 else []
    let c := { c with closeStatus := { c.closeStatus with received := true },
                      statusCodeRecv := if statusCode = 0 then codeNoStatusRcvd else statusCode }
    match eventQueueCloseWrapper c (UInt16.ofNat statusCode) reason io with
    | (r, c, io) => if r ≠ 0 then .leave r (c, io) else .again (c, io)

/-- What a complete Ping frame does: the Pong. -/
def recvPing (msg : List UInt8) (c : EventContext) (io : Io) : Step (EventContext × Io) Int :=
  match eventQueueMsg c ⟨pong, msg⟩ io with
  | (r, c, io) =>
    if r ≠ 0 ∧ r ≠ Err.noMoreMsg.code then .leave r ({ c with readEnabled := false }, io)
    else .again (c, io)

/-- The status code handed to `on_msg_recv_callback`. -/
def recvStatusCode (c : EventContext) (msg : List UInt8) : Nat :=
  if c.curImsg.opcode = connectionClose ∧ 2 ≤ c.curImsg.msgLength then beVal (msg.take 2) else 0

/-- The completion of a message: the automatic reply and `on_msg_recv_callback`. -/
def recvMessage (iocb : Iocb) (c : EventContext) (io : Io) : Step (EventContext × Io) Int :=
  if c.callbacks.onMsgRecv || c.curImsg.opcode == connectionClose || c.curImsg.opcode == ping then
    match recvFlatten iocb c io with
    | (none, c, io) => .leave Err.nomem.code (c, io)
    | (some msg, c, io) =>
      let reply :=
        if c.curImsg.opcode = connectionClose then recvClose msg c io
        else if c.curImsg.opcode = ping then recvPing msg c io
        else .again (c, io)
      reply.andThen fun s =>
        if s.1.callbacks.onMsgRecv then
          .again (notify true
            (.msgRecv s.1.curImsg.rsv s.1.curImsg.opcode msg (recvStatusCode s.1 msg))
            s.1 { s.2 with error := 0 })
        else .again s
  else .again (c, io)

/-- The end of a message: its slot is reset, and the first slot is current again. -/
def recvReset (c : EventContext) : EventContext :=
  { c.setImsg c.curImsg.reset with imsg := .zero }

/-- The block `if ( ctx->ipayloadoff == ctx->ipayloadlen )`. -/
def recvComplete (iocb : Iocb) (c : EventContext) (io : Io) : Step (EventContext × Io) Int :=
  if c.ipayloadoff = c.ipayloadlen then
    if c.curImsg.fin ≠ 0 ∧ (c.curImsg.opcode = textFrame ∨ c.curImsg.opcode = connectionClose) ∧
        c.curImsg.utf8state ≠ utf8Accept then
      failWith codeInvalidFramePayloadData c io
    else
      match notify c.callbacks.onFrameRecvEnd .frameRecvEnd c io with
      | (c, io) =>
        let message : Step (EventContext × Io) Int :=
          if c.curImsg.fin ≠ 0 then
            (recvMessage iocb c io).andThen fun s => .again (recvReset s.1, s.2)
          else .again (c, io)
        message.andThen fun s => .again ({ s.1 with ipayloadlen := 0, ipayloadoff := 0 }, s.2)
  else .again (c, io)

/-- What the loop body does with a piece of a frame. -/
def recvPiece (iocb : Iocb) (c : EventContext) (io : Io) : Step (EventContext × Io) Int :=
  if badFrameBits c iocb then failWith codeProtocolError c io
  else
    match recvNewFrame c iocb with
    | none => failWith codeProtocolError c io
    | some (c, newFrame) =>
      (if newFrame then recvBeginFrame iocb c io else .again (c, io)).andThen fun s =>
        (recvCheckUtf8 iocb s.1 s.2).andThen fun s =>
          recvComplete iocb (recvStore iocb s.1 s.2).1 (recvStore iocb s.1 s.2).2

/-- What the loop body does when `wslay_frame_recv` fails. -/
def recvFrameError (e : Err) (c : EventContext) (io : Io) : Step (EventContext × Io) Int :=
  if e ≠ .wantRead ∨ (io.error ≠ Err.wouldblock.code ∧ io.error ≠ 0) then
    match eventQueueCloseWrapper c 0 [] io with
    | (r, c, io) =>
      if r ≠ 0 then .leave r (c, io) else .leave Err.callbackFailure.code (c, io)
  else .leave 0 (c, io)

/-- One pass of the loop of `wslay_event_recv`, its condition included. -/
def recvPass (s : EventContext × Io) : Step (EventContext × Io) Int :=
  if s.1.readEnabled then
    match frameRecv s.1.frameCtx s.2 with
    | (.ok iocb, f, io) => recvPiece iocb { s.1 with frameCtx := f } io
    | (.error e, f, io) => recvFrameError e { s.1 with frameCtx := f } io
  else .leave 0 s

/-- A bound on the passes of one call of `wslay_event_recv`: one for each octet
it can consume, and one more. -/
def recvFuel (c : EventContext) (io : Io) : Nat :=
  c.frameCtx.avail.length + (pendingOctets io.recvs).length + 1

/-- `wslay_event_recv`. -/
def eventRecv (c : EventContext) (io : Io) : Int × EventContext × Io :=
  (Loop.run recvPass (recvFuel c io) (c, io)).getD (0, c, io)

end Wslay
