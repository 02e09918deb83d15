import Wslay.Lib.Octets
import Mathlib.Data.List.Infix

/-!
# The public vocabulary of the library, and the world its callbacks live in

`src/wslay/wslay.h`: result codes, status codes, opcodes and the frame control
block `wslay_frame_iocb`, which both layers of the library hand around.

The library never performs I/O itself; everything it learns about the outside
comes through callbacks and the allocator.  `Io` is that outside.  It holds,
for each callback, the list of results its next calls will give (an arbitrary
behaviour of a callback during a run is an arbitrary such list), the cell
`ctx->error` that callbacks write through `wslay_event_set_error`, and a
history of what crossed the boundary, which no function of the library reads.
-/

namespace Wslay

open Octets (Key)

/-! ## `enum wslay_error` -/

/-- `enum wslay_error`. -/
inductive Err where
  | wantRead
  | wantWrite
  | proto
  | invalidArgument
  | invalidCallback
  | noMoreMsg
  | callbackFailure
  | wouldblock
  | nomem
  deriving DecidableEq, Repr

/-- The value of an enumerator of `enum wslay_error`. -/
def Err.code : Err → Int
  | .wantRead => -100
  | .wantWrite => -101
  | .proto => -200
  | .invalidArgument => -300
  | .invalidCallback => -301
  | .noMoreMsg => -302
  | .callbackFailure => -400
  | .wouldblock => -401
  | .nomem => -500

/-! ## `enum wslay_status_code` -/

def codeProtocolError : Nat := 1002
def codeNoStatusRcvd : Nat := 1005
def codeAbnormalClosure : Nat := 1006
def codeInvalidFramePayloadData : Nat := 1007
def codeMessageTooBig : Nat := 1009

/-! ## `enum wslay_opcode` -/

def continuationFrame : UInt8 := 0x0
def textFrame : UInt8 := 0x1
def binaryFrame : UInt8 := 0x2
def connectionClose : UInt8 := 0x8
def ping : UInt8 := 0x9
def pong : UInt8 := 0xa

/-- The macro `wslay_is_ctrl_frame`. -/
def isCtrlFrame (opcode : UInt8) : Bool := (opcode >>> 3) &&& 1 != 0

/-- `struct wslay_frame_iocb`.  The pair `data`, `data_length` is the list
`data` of that many octets. -/
structure Iocb where
  fin : UInt8 := 0
  rsv : UInt8 := 0
  opcode : UInt8 := 0
  payloadLength : Nat := 0
  mask : Bool := false
  data : List UInt8 := []
  deriving DecidableEq, Repr

/-! ## The outside world -/

/-- The sizes of the types of `rsv` and `opcode` are not zero, so that these types have
literals. -/
instance neZero_eight : NeZero (8 : Nat) := ⟨by decide⟩

instance neZero_sixteen : NeZero (16 : Nat) := ⟨by decide⟩

/-- What one call of `recv_callback` does. -/
inductive RecvResult where
  /-- There are `bytes` to be read; it stores as many of them as are asked for
  and keeps the rest for the next call. -/
  | data (bytes : List UInt8)
  /-- It returns `-1`, after setting the error if one is given. -/
  | fail (error : Option Int)
  deriving DecidableEq, Repr

/-- What one call of `send_callback` does. -/
inductive SendResult where
  /-- It takes `n` octets, or all it is offered if that is less. -/
  | accept (n : Nat)
  /-- It claims to have taken `n + 1` octets more than it was offered. -/
  | overrun (n : Nat)
  /-- It returns `-1`, after setting the error if one is given. -/
  | fail (error : Option Int)
  deriving DecidableEq, Repr

/-- The arguments of one call of `send_callback`. -/
structure Offer where
  data : List UInt8
  /-- The flag `WSLAY_MSG_MORE`. -/
  more : Bool
  userDataSending : Bool
  deriving DecidableEq, Repr

/-- One call of a receive callback of the event layer, with its argument. -/
inductive Call where
  | frameRecvStart (fin rsv opcode : UInt8) (payloadLength : Nat)
  | frameRecvChunk (data : List UInt8)
  | frameRecvEnd
  | msgRecv (rsv opcode : UInt8) (msg : List UInt8) (statusCode : Nat)
  deriving DecidableEq, Repr

/-- What one call of the `read_callback` of a fragmented message does. -/
inductive ReadResult where
  /-- It stores `bytes`, at most the `sizeof ( ctx->obuf )` it is offered room
  for, and sets `*eof` as given. -/
  | data (bytes : List UInt8) (eof : Bool) (fits : bytes.length ≤ 4096)
  /-- It returns `-1`, after setting the error if one is given. -/
  | fail (error : Option Int)
  deriving DecidableEq, Repr

/-- `wslay_event_msg`. -/
structure EventMsg where
  opcode : UInt8
  msg : List UInt8
  deriving DecidableEq, Repr

/-- `struct wslay_event_fragmented_msg`: its `source` and `read_callback`
together are what the calls of `read_callback` will do. -/
structure EventFragmentedMsg where
  opcode : UInt8
  source : List ReadResult
  deriving DecidableEq, Repr

/-- A message that has been queued. -/
inductive QueuedMsg where
  | msg (arg : EventMsg)
  | fragmented (arg : EventFragmentedMsg)
  deriving DecidableEq, Repr

/-- A call the application makes into the library, other than
`wslay_event_recv`.  These are also the calls it may make from inside a receive
callback. -/
inductive AppCall where
  | queueMsg (arg : EventMsg)
  | queueFragmentedMsg (arg : EventFragmentedMsg)
  | queueClose (statusCode : UInt16) (reason : List UInt8)
  | send
  | setError (val : Int)
  | shutdownRead
  | shutdownWrite
  deriving DecidableEq, Repr

/-- The world outside the library. -/
structure Io where
  /-- What the next calls of `recv_callback` do; with none left it would block. -/
  recvs : List RecvResult := []
  /-- What the next calls of `send_callback` do; with none left it would block. -/
  sends : List SendResult := []
  /-- What the next calls of `genmask_callback` give, `none` for a failure; with
  none left it gives the zero key. -/
  masks : List (Option Key) := []
  /-- Whether the next allocations succeed; with none left they do. -/
  mem : List Bool := []
  /-- What the application calls from inside the next receive callbacks; with
  none left it only looks on. -/
  apps : List (List AppCall) := []
  /-- `ctx->error`. -/
  error : Int := 0
  /-- History: the octets `recv_callback` has stored. -/
  received : List UInt8 := []
  /-- History: the octets `send_callback` has taken. -/
  wire : List UInt8 := []
  /-- History: the calls of `send_callback`. -/
  offers : List Offer := []
  /-- History: the calls of the receive callbacks of the event layer. -/
  calls : List Call := []
  /-- History: the messages that have been queued. -/
  queued : List QueuedMsg := []
  /-- History: the queued messages released without having been sent. -/
  discarded : List EventMsg := []
  deriving DecidableEq, Repr

/-- The octets that calls of `recv_callback` deliver between them. -/
def pendingOctets (recvs : List RecvResult) : List UInt8 :=
  recvs.flatMap fun
    | .data bs => bs
    | .fail _ => []

namespace Io

/-- `recv_callback ( buf, len, 0, user_data )`: the octets stored in `buf`.
None means a result `<= 0`. -/
def recvCallback (io : Io) (len : Nat) : List UInt8 × Io :=
  match io.recvs with
  | [] => ([], { io with error := Err.wouldblock.code })
  | .fail e :: rs => ([], { io with recvs := rs, error := e.getD io.error })
  | .data bs :: rs =>
    if bs.length ≤ len then
      (bs, { io with recvs := rs, received := io.received ++ bs })
    else
      (bs.take len, { io with recvs := .data (bs.drop len) :: rs,
                              received := io.received ++ bs.take len })

/-- `send_callback ( data, len, flags, user_data, user_data_sending )`: its
result. -/
def sendCallback (io : Io) (offer : Offer) : Int × Io :=
  let io := { io with offers := io.offers ++ [offer] }
  match io.sends with
  | [] => (-1, { io with error := Err.wouldblock.code })
  | .fail e :: ss => (-1, { io with sends := ss, error := e.getD io.error })
  | .overrun n :: ss => (offer.data.length + 1 + n, { io with sends := ss })
  | .accept n :: ss =>
    (min n offer.data.length, { io with sends := ss, wire := io.wire ++ offer.data.take n })

/-- `genmask_callback ( buf, 4, user_data )`: the key it stores, if it succeeds. -/
def genmaskCallback (io : Io) : Option Key × Io :=
  match io.masks with
  | [] => (some ⟨0, 0, 0, 0⟩, io)
  | m :: ms => (m, { io with masks := ms })

/-- A message has been queued. -/
def noteQueued (io : Io) (m : QueuedMsg) : Io := { io with queued := io.queued ++ [m] }

/-- `malloc` and `talloc`: whether the allocation succeeds. -/
def malloc (io : Io) : Bool × Io :=
  match io.mem with
  | [] => (true, io)
  | b :: bs => (b, { io with mem := bs })

/-- From `io` to `io'` nothing happened but allocations. -/
structure Allocates (io io' : Io) : Prop where
  eq : io' = { io with mem := io'.mem }
  mem : io'.mem <:+ io.mem

theorem Allocates.refl (io : Io) : Allocates io io := ⟨rfl, List.suffix_rfl⟩

theorem Allocates.trans {io io' io'' : Io} (h : Allocates io io') (h' : Allocates io' io'') :
    Allocates io io'' :=
  ⟨by rw [h'.eq, h.eq], h'.mem.trans h.mem⟩

theorem malloc_allocates (io : Io) :
    Allocates io io.malloc.2 ∧ (io.malloc.1 = false → false ∈ io.mem) := by
  unfold malloc
  cases hm : io.mem with
  | nil => exact ⟨.refl io, by simp⟩
  | cons b bs =>
    refine ⟨⟨rfl, by rw [hm]; exact List.suffix_cons b bs⟩, fun hb => ?_⟩
    simp only at hb
    simp [hb]

/-- No allocation fails. -/
def MemOk (io : Io) : Prop := false ∉ io.mem

theorem Allocates.memOk {io io' : Io} (h : Allocates io io') (hm : io.MemOk) : io'.MemOk :=
  fun hf => hm (h.mem.subset hf)

end Io

end Wslay
