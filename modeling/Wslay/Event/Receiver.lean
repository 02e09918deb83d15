import Wslay.Event.Text
import Wslay.Frame.DecodeRun

/-!
# The receiver, without its slots and offsets

What `wslay_event_recv` makes of the pieces of frames that `wslay_frame_recv`
hands it, as an automaton of its own.  It is between two frames or inside one,
and behind that there may be a data message that earlier frames have begun.

* `Rx`, `Draft`, `Progress` — its states.
* `Rx.admits` — which frames may begin, and the message they go on with.
* `Rx.piece` — one piece: the callbacks that are due, and the verdict.
-/

namespace Wslay

open Octets (beVal)
open Utf8 (Range read)

/-- The settings that the receiver goes by. -/
structure RxConfig where
  server : Bool
  noBuffering : Bool
  limit : Nat
  /-- There is a callback for messages. -/
  delivers : Bool
  deriving DecidableEq, Repr

/-- Whether the payload of frames with this opcode is kept. -/
def RxConfig.buffers (cfg : RxConfig) (opcode : Fin 16) : Bool :=
  !cfg.noBuffering || decide (8 ≤ opcode.val)

/-- A message that has been begun. -/
structure Draft where
  opcode : Fin 16
  /-- What has been kept of it. -/
  body : List UInt8
  /-- The sum of the payload lengths of its frames, if they are kept. -/
  length : Nat
  /-- What the last character of its text still waits for. -/
  text : List Range
  deriving DecidableEq, Repr

/-- A frame that has been begun, of whose payload `off` octets have come. -/
structure Progress where
  header : Header
  off : Nat
  draft : Draft
  deriving DecidableEq, Repr

/-- The state of the receiver. -/
structure Rx where
  /-- A data message that waits for its next frame. -/
  waiting : Option Draft
  frame : Option Progress
  deriving DecidableEq, Repr

/-- At the start nothing has been begun. -/
def Rx.fresh : Rx := ⟨none, none⟩

/-! ## The beginning of a frame -/

/-- The opcodes of data messages. -/
def isData (opcode : Fin 16) : Bool := opcode == 1 || opcode == 2

/-- The opcodes of the control messages that are defined. -/
def isKnownCtrl (opcode : Fin 16) : Bool := opcode == 8 || opcode == 9 || opcode == 10

/-- A message of which there is nothing yet. -/
def Draft.start (opcode : Fin 16) : Draft := ⟨opcode, [], 0, []⟩

/-- The message with one more frame. -/
def Draft.extend (cfg : RxConfig) (k : Draft) (h : Header) : Draft :=
  if cfg.buffers h.opcode then { k with length := (k.length + h.length) % 2 ^ 64 } else k

/-- The message that a frame belongs to, and the one that waits meanwhile. -/
def belongs (waiting : Option Draft) (opcode : Fin 16) : Option (Draft × Option Draft) :=
  match waiting with
  | none => if isData opcode || isKnownCtrl opcode then some (.start opcode, none) else none
  | some k =>
    if opcode = 0 then some (k, none)
    else if isKnownCtrl opcode then some (.start opcode, some k)
    else none

/-- The frame as it begins and the message that waits meanwhile, or the status
code that it is rejected with. -/
def Rx.admits (cfg : RxConfig) (waiting : Option Draft) (h : Header) :
    Except Nat (Progress × Option Draft) :=
  if h.rsv ≠ 0 ∨ h.key.isSome ≠ cfg.server then .error codeProtocolError
  else
    match belongs waiting h.opcode with
    | none => .error codeProtocolError
    | some (k, waiting) =>
      if cfg.limit < (k.length + h.length) % 2 ^ 64 then .error codeMessageTooBig
      else .ok (⟨h, 0, k.extend cfg h⟩, waiting)

/-! ## A piece -/

/-- What becomes of the receiver. -/
inductive Verdict where
  /-- It goes on. -/
  | more (rx : Rx)
  /-- The message is complete. -/
  | done (opcode : Fin 16) (msg : List UInt8) (rx : Rx)
  /-- It answers with a Close and stops. -/
  | reject (code : Nat)
  /-- The message is longer than its length tells. -/
  | overflow
  deriving DecidableEq, Repr

/-- The callbacks that are due, and the verdict. -/
structure Reaction where
  calls : List Call
  verdict : Verdict
  deriving DecidableEq, Repr

/-- What the text waits for after a piece; in a Close frame `skip` octets of the
piece are passed over. -/
def Draft.scan (k : Draft) (skip : Nat) (data : List UInt8) : Option (List Range) :=
  if k.opcode = 1 then read k.text data
  else if k.opcode = 8 then read k.text (data.drop skip)
  else some k.text

/-- The frame after a piece. -/
def Progress.advance (cfg : RxConfig) (f : Progress) (data : List UInt8) (text : List Range) :
    Progress :=
  { f with
    off := f.off + data.length
    draft := { f.draft with
      body := if cfg.buffers f.header.opcode then f.draft.body ++ data else f.draft.body
      text := text } }

/-- The octets of a complete message. -/
def Draft.gather (k : Draft) : Option (List UInt8) :=
  if k.length = 0 then some []
  else if k.body.length = k.length then some k.body
  else none

/-- The status code at the front of a Close. -/
def statusOf (msg : List UInt8) : Nat := if 2 ≤ msg.length then beVal (msg.take 2) else 0

/-- The verdict on a message that has come to its end. -/
def Draft.verdict (cfg : RxConfig) (k : Draft) (waiting : Option Draft) : Verdict :=
  if cfg.delivers || k.opcode == 8 || k.opcode == 9 then
    match k.gather with
    | none => .overflow
    | some msg =>
      if k.opcode = 8 ∧ 2 ≤ msg.length ∧ eventIsValidStatusCode (statusOf msg) = false then
        .reject codeProtocolError
      else .done k.opcode msg ⟨waiting, none⟩
  else .done k.opcode [] ⟨waiting, none⟩

/-- The end of a frame. -/
def Progress.finish (cfg : RxConfig) (f : Progress) (waiting : Option Draft) : Reaction :=
  if f.header.fin = true ∧ (f.draft.opcode = 1 ∨ f.draft.opcode = 8) ∧ f.draft.text ≠ [] then
    ⟨[], .reject codeInvalidFramePayloadData⟩
  else
    ⟨[.frameRecvEnd],
      if f.header.fin then f.draft.verdict cfg waiting else .more ⟨some f.draft, none⟩⟩

/-- A piece of the frame in progress. -/
def Progress.piece (skip : Nat) (cfg : RxConfig) (f : Progress) (waiting : Option Draft)
    (data : List UInt8) : Reaction :=
  match f.draft.scan skip data with
  | none => ⟨[], .reject codeInvalidFramePayloadData⟩
  | some text =>
    let g := f.advance cfg data text
    if g.off = g.header.length then
      ⟨.frameRecvChunk data :: (g.finish cfg waiting).calls, (g.finish cfg waiting).verdict⟩
    else ⟨[.frameRecvChunk data], .more ⟨waiting, some g⟩⟩

/-- The call that announces a frame. -/
def Header.startCall (h : Header) : Call :=
  .frameRecvStart (UInt8.ofNat h.fin.toNat) (UInt8.ofNat h.rsv.val) (UInt8.ofNat h.opcode.val)
    h.length

/-- **A piece of a frame with header `h`.** -/
def Rx.piece (skip : Nat) (cfg : RxConfig) (rx : Rx) (h : Header) (data : List UInt8) : Reaction :=
  match rx.frame with
  | some f => f.piece skip cfg rx.waiting data
  | none =>
    match Rx.admits cfg rx.waiting h with
    | .error code => ⟨[], .reject code⟩
    | .ok (f, waiting) =>
      ⟨h.startCall :: (f.piece skip cfg waiting data).calls, (f.piece skip cfg waiting data).verdict⟩

/-- The call that delivers a message. -/
def msgCall (opcode : Fin 16) (msg : List UInt8) : Call :=
  .msgRecv 0 (UInt8.ofNat opcode.val) msg (if opcode = 8 then statusOf msg else 0)

/-! ## Its opcodes, and those of the code -/

theorem opensMessage_iff (opcode : Fin 16) :
    opensMessage (UInt8.ofNat opcode.val) = (isData opcode || isKnownCtrl opcode) := by
  revert opcode
  decide

theorem interleaves_iff (opcode : Fin 16) :
    interleaves (UInt8.ofNat opcode.val) = isKnownCtrl opcode := by
  revert opcode
  decide

theorem ofNat_opcode_eq_iff (a b : Fin 16) :
    UInt8.ofNat a.val = UInt8.ofNat b.val ↔ a = b := by
  revert a b
  decide

theorem ofNat_opcode_ne_noOpcode (opcode : Fin 16) : UInt8.ofNat opcode.val ≠ noOpcode := by
  revert opcode
  decide

theorem isKnownCtrl_ctrl {opcode : Fin 16} (h : isKnownCtrl opcode = true) : 8 ≤ opcode.val := by
  revert opcode
  decide

theorem isData_not_ctrl {opcode : Fin 16} (h : isData opcode = true) : ¬ 8 ≤ opcode.val := by
  revert opcode
  decide

/-! ## Verdicts -/

theorem Draft.verdict_more {cfg : RxConfig} {k : Draft} {waiting : Option Draft} {rx : Rx} :
    k.verdict cfg waiting ≠ .more rx := by
  unfold Draft.verdict
  split_ifs
  · cases k.gather with
    | none => simp
    | some msg =>
      simp only
      split_ifs <;> simp
  · simp

theorem Draft.verdict_done {cfg : RxConfig} {k : Draft} {waiting : Option Draft} {opcode : Fin 16}
    {msg : List UInt8} {rx : Rx} (h : k.verdict cfg waiting = .done opcode msg rx) :
    opcode = k.opcode ∧ rx = ⟨waiting, none⟩ := by
  unfold Draft.verdict at h
  split_ifs at h
  · cases hg : k.gather with
    | none => simp [hg] at h
    | some m =>
      simp only [hg] at h
      split_ifs at h
      cases h
      exact ⟨rfl, rfl⟩
  · cases h
    exact ⟨rfl, rfl⟩

end Wslay
