import Wslay.Frame.Context
import Wslay.Utf8

/-!
# The event context

`src/wslay/event.h` and `src/wslay/context.c`: the state of the event layer and
its construction.

The queues of `src/wslay/queue.h` appear here as the lists they represent.  A
chunk queue is a talloc object of its own, so it also carries whether that
object is still allocated: `talloc_free` ends its life and that of its
children.  Using a released queue is undefined in the source; here it acts as
the empty queue that the release leaves behind.
-/

namespace Wslay

/-! ## Messages being received -/

/-- `struct wslay_event_byte_chunk`: a buffer of `dataLength` octets, of which
`data` have been written, from its start. -/
structure ByteChunk where
  data : List UInt8
  dataLength : Nat
  deriving DecidableEq, Repr

/-- The chunk queue of a message, `wslay_queue * chunks`. -/
structure ChunkQueue where
  /-- The object has not been released by `talloc_free` since `wslay_queue_new`
  allocated it. -/
  live : Bool
  cells : List ByteChunk
  deriving DecidableEq, Repr

/-- `struct wslay_event_imsg`. -/
structure EventImsg where
  fin : UInt8
  rsv : UInt8
  opcode : UInt8
  utf8state : Nat
  chunks : ChunkQueue
  msgLength : Nat
  deriving DecidableEq, Repr

/-- `wslay_event_imsg_set`. -/
def EventImsg.set (m : EventImsg) (fin rsv opcode : UInt8) : EventImsg :=
  { m with fin := fin, rsv := rsv, opcode := opcode, msgLength := 0 }

/-- The opcode of a slot that holds no message. -/
def noOpcode : UInt8 := 0xff

/-- `wslay_event_imsg_reset`. -/
def EventImsg.reset (m : EventImsg) : EventImsg :=
  { m with opcode := noOpcode, utf8state := utf8Accept, chunks := ⟨false, []⟩ }

/-- What `ctx->imsg` points to. -/
inductive Slot where
  | zero
  | one
  deriving DecidableEq, Repr

/-! ## Messages to be sent -/

/-- `enum wslay_event_msg_type`. -/
inductive MsgType where
  | nonFragmented
  | fragmented
  deriving DecidableEq, Repr

/-- `struct wslay_event_omsg`. -/
structure EventOmsg where
  fin : UInt8
  opcode : UInt8
  type : MsgType
  data : List UInt8
  source : List ReadResult
  deriving DecidableEq, Repr

/-! ## The context -/

/-- The bits of `ctx->close_status`, `enum wslay_event_close_status`. -/
structure CloseStatus where
  received : Bool
  queued : Bool
  sent : Bool
  deriving DecidableEq, Repr

/-- Which of the receive callbacks of `ctx->callbacks` are not `NULL`. -/
structure EventCallbacks where
  onFrameRecvStart : Bool
  onFrameRecvChunk : Bool
  onFrameRecvEnd : Bool
  onMsgRecv : Bool
  deriving DecidableEq, Repr

/-- `wslay_event_context`.  `ctx->error` is `Io.error`. -/
structure EventContext where
  /-- The width of `size_t`. -/
  sizeBits : Nat
  /-- The bit `WSLAY_CONFIG_NO_BUFFERING` of `config`. -/
  noBuffering : Bool
  maxRecvMsgLength : Nat
  server : Bool
  closeStatus : CloseStatus
  statusCodeRecv : Nat
  statusCodeSent : Nat
  frameCtx : FrameContext
  readEnabled : Bool
  writeEnabled : Bool
  imsgs0 : EventImsg
  imsgs1 : EventImsg
  imsg : Slot
  ipayloadlen : Nat
  ipayloadoff : Nat
  omsg : Option EventOmsg
  sendQueue : List EventOmsg
  sendCtrlQueue : List EventOmsg
  queuedMsgCount : Nat
  queuedMsgLength : Nat
  /-- The octets from `obuf` up to `obuflimit`. -/
  obuf : List UInt8
  /-- `obufmark - obuf`. -/
  obufmark : Nat
  opayloadlen : Nat
  opayloadoff : Nat
  callbacks : EventCallbacks
  deriving DecidableEq, Repr

namespace EventContext

/-- `* ctx->imsg`. -/
def curImsg (c : EventContext) : EventImsg :=
  match c.imsg with
  | .zero => c.imsgs0
  | .one => c.imsgs1

/-- Assignment to `* ctx->imsg`. -/
def setImsg (c : EventContext) (m : EventImsg) : EventContext :=
  match c.imsg with
  | .zero => { c with imsgs0 := m }
  | .one => { c with imsgs1 := m }

/-- Conversion to `size_t`. -/
def toSize (c : EventContext) (n : Nat) : Nat := n % 2 ^ c.sizeBits

end EventContext

/-! ## Construction -/

/-- `wslay_queue_new`: whether the queue and its destructor could be allocated. -/
def wslayQueueNew (io : Io) : Bool × Io :=
  match io.malloc with
  | (false, io) => (false, io)
  | (true, io) => io.malloc

/-- The context that `wslay_event_context_new` fills in when nothing fails.
`talloc_zero` clears what is not assigned. -/
def freshContext (server : Bool) (callbacks : EventCallbacks) : EventContext :=
  let imsg : EventImsg := EventImsg.reset ⟨0, 0, 0, 0, ⟨false, []⟩, 0⟩
  { sizeBits := 64
    noBuffering := false
    maxRecvMsgLength := 2 ^ 64 - 1
    server := server
    closeStatus := ⟨false, false, false⟩
    statusCodeRecv := codeAbnormalClosure
    statusCodeSent := codeAbnormalClosure
    frameCtx := FrameContext.new
    readEnabled := true
    writeEnabled := true
    imsgs0 := { imsg with chunks := ⟨true, []⟩ }
    imsgs1 := { imsg with chunks := ⟨true, []⟩ }
    imsg := .zero
    ipayloadlen := 0
    ipayloadoff := 0
    omsg := none
    sendQueue := []
    sendCtrlQueue := []
    queuedMsgCount := 0
    queuedMsgLength := 0
    obuf := []
    obufmark := 0
    opayloadlen := 0
    opayloadoff := 0
    callbacks := callbacks }

/-- `wslay_event_context_new`, as `wslay_server_new` and `wslay_client_new` call
it: the two `talloc_zero`, then the two send queues and the two chunk queues. -/
def eventContextNew (server : Bool) (callbacks : EventCallbacks) (io : Io) :
    Option EventContext × Io :=
  match io.malloc with
  | (false, io) => (none, io)
  | (true, io) =>
    match io.malloc with
    | (false, io) => (none, io)
    | (true, io) =>
      match wslayQueueNew io with
      | (false, io) => (none, io)
      | (true, io) =>
        match wslayQueueNew io with
        | (false, io) => (none, io)
        | (true, io) =>
          match wslayQueueNew io with
          | (false, io) => (none, io)
          | (true, io) =>
            match wslayQueueNew io with
            | (false, io) => (none, io)
            | (true, io) => (some (freshContext server callbacks), io)

/-- `wslay_event_config_set_no_buffering`. -/
def eventConfigSetNoBuffering (c : EventContext) (val : Bool) : EventContext :=
  { c with noBuffering := val }

/-- `wslay_event_config_set_max_recv_msg_length`. -/
def eventConfigSetMaxRecvMsgLength (c : EventContext) (val : Nat) : EventContext :=
  { c with maxRecvMsgLength := val }

end Wslay
