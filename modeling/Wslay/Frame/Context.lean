import Wslay.Core

/-!
# The frame context

`src/wslay/frame.h`.  The two buffers of `wslay_frame_context` are windows
delimited by pointers.  A window is modelled by the octets from its start to its
limit and by the offset of its mark, so that what lies behind the limit, which
the code never reads, is not represented.
-/

namespace Wslay

open Octets (Key)

/-- `enum wslay_frame_state`. -/
inductive FrameState where
  | prepHeader
  | sendHeader
  | sendPayload
  | recvHeader1
  | recvPayloadlen
  | recvExtPayloadlen
  | recvMaskkey
  | recvPayload
  deriving DecidableEq, Repr

/-- `struct wslay_frame_opcode_memo`. -/
structure OpcodeMemo where
  fin : UInt8
  opcode : UInt8
  rsv : UInt8
  deriving DecidableEq, Repr

/-- `sizeof ( ctx->ibuf )`. -/
def ibufSize : Nat := 4096

/-- `wslay_frame_context`. -/
structure FrameContext where
  /-- The octets from `ibuf` up to `ibuflimit`. -/
  ibuf : List UInt8
  /-- `ibufmark - ibuf`. -/
  ibufmark : Nat
  iom : OpcodeMemo
  ipayloadlen : Nat
  ipayloadoff : Nat
  imask : Bool
  imaskkey : Key
  istate : FrameState
  ireqread : Nat
  /-- The octets from `oheader` up to `oheaderlimit`. -/
  oheader : List UInt8
  /-- `oheadermark - oheader`. -/
  oheadermark : Nat
  opayloadlen : Nat
  opayloadoff : Nat
  omask : Bool
  omaskkey : Key
  ostate : FrameState
  deriving DecidableEq, Repr

namespace FrameContext

/-- `wslay_frame_context_new`. -/
def new : FrameContext where
  ibuf := []
  ibufmark := 0
  iom := ⟨0, 0, 0⟩
  ipayloadlen := 0
  ipayloadoff := 0
  imask := false
  imaskkey := ⟨0, 0, 0, 0⟩
  istate := .recvHeader1
  ireqread := 2
  oheader := []
  oheadermark := 0
  opayloadlen := 0
  opayloadoff := 0
  omask := false
  omaskkey := ⟨0, 0, 0, 0⟩
  ostate := .prepHeader

/-- The octets between `ibufmark` and `ibuflimit`: received and not yet consumed. -/
def avail (c : FrameContext) : List UInt8 := c.ibuf.drop c.ibufmark

/-- The octets between `oheadermark` and `oheaderlimit`: the header still to be sent. -/
def oheaderRest (c : FrameContext) : List UInt8 := c.oheader.drop c.oheadermark

/-- The fields of the sending half. -/
def sendHalf (c : FrameContext) :
    List UInt8 × Nat × Nat × Nat × Bool × Key × FrameState :=
  (c.oheader, c.oheadermark, c.opayloadlen, c.opayloadoff, c.omask, c.omaskkey, c.ostate)

/-- The fields of the receiving half. -/
def recvHalf (c : FrameContext) :
    List UInt8 × Nat × OpcodeMemo × Nat × Nat × Bool × Key × FrameState × Nat :=
  (c.ibuf, c.ibufmark, c.iom, c.ipayloadlen, c.ipayloadoff, c.imask, c.imaskkey, c.istate,
    c.ireqread)

end FrameContext

end Wslay
