import Wslay.Event.Queue
import Wslay.Frame.Send
import Wslay.Lib.Loop

/-!
# `wslay_event_send`

The sending loop of `src/wslay/event.c`.  One pass of the loop chooses the
message to work on (`sendPick`), and then sends what it can of it, in one of
two ways according to its type (`sendNonFragmented`, `sendFragmented`).
-/

namespace Wslay

open Octets (beVal)
open Loop (Step)

/-- `wslay_event_on_non_fragmented_msg_popped`, for `ctx->omsg` equal to `m`. -/
def eventOnNonFragmentedMsgPopped (c : EventContext) (m : EventOmsg) : EventContext :=
  { c with omsg := some { m with fin := 1 }, opayloadlen := m.data.length, opayloadoff := 0 }

/-- The loop of `wslay_event_send_ctrl_queue_pop` that looks for the Close: the
message found, what is left of the queue, and the messages released on the way. -/
def popClose : List EventOmsg → Option EventOmsg × List EventOmsg × List EventOmsg
  | [] => (none, [], [])
  | m :: ms =>
    if m.opcode = connectionClose then (some m, ms, [])
    else ((popClose ms).1, (popClose ms).2.1, m :: (popClose ms).2.2)

/-- `wslay_event_send_ctrl_queue_pop`. -/
def eventSendCtrlQueuePop (c : EventContext) (io : Io) : Option EventOmsg × EventContext × Io :=
  if c.closeStatus.queued then
    match popClose c.sendCtrlQueue with
    | (m, rest, released) =>
      (m, { c with sendCtrlQueue := rest },
        { io with discarded := io.discarded ++ released.map fun m => ⟨m.opcode, m.data⟩ })
  else (c.sendCtrlQueue.head?, { c with sendCtrlQueue := c.sendCtrlQueue.tail }, io)

/-- The first part of a pass: the message to be sent, which may preempt the one
being sent between two of its fragments. -/
def sendPick (c : EventContext) (io : Io) : Step (EventContext × Io) Int :=
  match c.omsg with
  | none =>
    if c.sendCtrlQueue = [] then
      match c.sendQueue with
      | [] => .leave 0 (c, io)
      | m :: ms =>
        let c := { c with sendQueue := ms, omsg := some m }
        if m.type = .nonFragmented then .again (eventOnNonFragmentedMsgPopped c m, io)
        else .again (c, io)
    else
      match eventSendCtrlQueuePop c io with
      | (none, c, io) => .leave 0 ({ c with omsg := none }, io)
      | (some m, c, io) =>
        if m.type = .nonFragmented then .again (eventOnNonFragmentedMsgPopped c m, io)
        else .again ({ c with omsg := some m }, io)
  | some m =>
    if !isCtrlFrame m.opcode && c.frameCtx.ostate = .prepHeader && c.sendCtrlQueue ≠ [] then
      match io.malloc with
      | (false, io) => .leave 1 ({ c with writeEnabled := false }, io)
      | (true, io) =>
        match eventSendCtrlQueuePop { c with sendQueue := m :: c.sendQueue } io with
        | (none, c, io) => .leave 0 ({ c with omsg := none }, io)
        | (some m, c, io) => .again (eventOnNonFragmentedMsgPopped c m, io)
    else .again (c, io)

/-- What either way of sending does when `wslay_frame_send` fails. -/
def sendFrameError (e : Err) (c : EventContext) (io : Io) : Step (EventContext × Io) Int :=
  if e ≠ .wantWrite ∨ (io.error ≠ Err.wouldblock.code ∧ io.error ≠ 0) then
    .leave Err.callbackFailure.code ({ c with writeEnabled := false }, io)
  else .leave 0 (c, io)

/-- The `iocb` of a non-fragmented message. -/
def nonFragmentedIocb (c : EventContext) (m : EventOmsg) : Iocb :=
  { fin := 1, opcode := m.opcode, mask := !c.server,
    data := (m.data.drop c.opayloadoff).take (c.opayloadlen - c.opayloadoff),
    payloadLength := c.opayloadlen }

/-- The status code in the body of a Close, 0 if there is none. -/
def closeStatusCode (body : List UInt8) : Nat :=
  if 2 ≤ body.length then beVal (body.take 2) else 0

/-- What is done once the last octet of the non-fragmented message `m` is sent. -/
def finishNonFragmented (c : EventContext) (m : EventOmsg) : EventContext :=
  let c := { c with queuedMsgCount := c.queuedMsgCount - 1,
                    queuedMsgLength := c.queuedMsgLength - m.data.length, omsg := none }
  if m.opcode = connectionClose then
    { c with writeEnabled := false, closeStatus := { c.closeStatus with sent := true },
             statusCodeSent := if closeStatusCode m.data = 0 then codeNoStatusRcvd
               else closeStatusCode m.data }
  else c

/-- The second part of a pass when `ctx->omsg`, equal to `m`, is not fragmented. -/
def sendNonFragmented (c : EventContext) (m : EventOmsg) (io : Io) :
    Step (EventContext × Io) Int :=
  match frameSend c.frameCtx (nonFragmentedIocb c m) io with
  | (.ok length, f, io) =>
    let c := { c with frameCtx := f, opayloadoff := c.opayloadoff + length }
    if c.opayloadoff = c.opayloadlen then .again (finishNonFragmented c m, io)
    else .leave 0 (c, io)
  | (.error e, f, io) => sendFrameError e { c with frameCtx := f } io

/-- The refill of the output buffer, by the `read_callback` of `ctx->omsg`,
equal to `m`. -/
def readFragment (c : EventContext) (m : EventOmsg) (io : Io) : Step (EventContext × Io) Int :=
  match m.source with
  | [] => .leave 0 (c, io)
  | .fail e :: rs =>
    .leave Err.callbackFailure.code
      ({ c with omsg := some { m with source := rs }, writeEnabled := false },
        { io with error := e.getD io.error })
  | .data bs eof _ :: rs =>
    if bs = [] then .leave 0 ({ c with omsg := some { m with source := rs } }, io)
    else
      .again ({ c with omsg := some { m with source := rs, fin := if eof then 1 else m.fin },
                       obuf := bs, opayloadlen := bs.length, opayloadoff := 0 }, io)

/-- The `iocb` of a fragment. -/
def fragmentIocb (c : EventContext) (m : EventOmsg) : Iocb :=
  { fin := m.fin, opcode := m.opcode, mask := !c.server, data := c.obuf.drop c.obufmark,
    payloadLength := c.opayloadlen }

/-- Sending the fragment that is in the output buffer, for `ctx->omsg` equal to
`m`. -/
def sendFragment (c : EventContext) (m : EventOmsg) (io : Io) : Step (EventContext × Io) Int :=
  match frameSend c.frameCtx (fragmentIocb c m) io with
  | (.ok length, f, io) =>
    let c := { c with frameCtx := f, obufmark := c.obufmark + length }
    if c.obufmark = c.obuf.length then
      let c := { c with obuf := [], obufmark := 0 }
      if m.fin ≠ 0 then
        .again ({ c with queuedMsgCount := c.queuedMsgCount - 1, omsg := none }, io)
      else .again ({ c with omsg := some { m with opcode := continuationFrame } }, io)
    else .leave 0 (c, io)
  | (.error e, f, io) => sendFrameError e { c with frameCtx := f } io

/-- The second part of a pass when `ctx->omsg`, equal to `m`, is fragmented. -/
def sendFragmented (c : EventContext) (m : EventOmsg) (io : Io) : Step (EventContext × Io) Int :=
  if m.fin = 0 ∧ c.obufmark = c.obuf.length then
    (readFragment c m io).andThen fun s =>
      match s.1.omsg with
      | some m => sendFragment s.1 m s.2
      | none => .leave 0 s
  else sendFragment c m io

/-- The second part of a pass. -/
def sendOmsg (s : EventContext × Io) : Step (EventContext × Io) Int :=
  match s.1.omsg with
  | some m => if m.type = .nonFragmented then sendNonFragmented s.1 m s.2
    else sendFragmented s.1 m s.2
  | none => .leave 0 s

/-- One pass of the loop of `wslay_event_send`, its condition included. -/
def sendPass (s : EventContext × Io) : Step (EventContext × Io) Int :=
  if eventWantWrite s.1 then (sendPick s.1 s.2).andThen sendOmsg else .leave 0 s

/-- The frames a queued message may still need: one, and one for each result its
`read_callback` has left to give. -/
def omsgFuel (m : EventOmsg) : Nat := m.source.length + 1

/-- A bound on the passes of one call of `wslay_event_send`. -/
def sendFuel (c : EventContext) : Nat :=
  ((c.omsg.toList ++ c.sendQueue ++ c.sendCtrlQueue).map omsgFuel).sum + 2

/-- `wslay_event_send`. -/
def eventSend (c : EventContext) (io : Io) : Int × EventContext × Io :=
  (Loop.run sendPass (sendFuel c) (c, io)).getD (0, c, io)

end Wslay
