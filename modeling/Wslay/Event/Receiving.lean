import Wslay.Event.SendLoop
import Wslay.Event.Run
import Wslay.Event.Receiver

/-!
# How a context represents the receiver

The two message slots, the pointer to one of them and the two offsets are a
representation of the state of the receiver.  While a callback runs, the
application may call back into the library; that leaves the receiver alone,
except that reading may be shut down.

* `Spares` — nothing has happened to the receiver.
* `Works` — what happens while the receiver does its work.
* `Models` — the representation.
-/

namespace Wslay

open Loop (Step)
open Octets (beVal)

/-! ## What the application can do meanwhile -/

/-- The part of the context that belongs to the receiver. -/
def EventContext.rxPart (c : EventContext) :=
  (c.sizeBits, c.noBuffering, c.maxRecvMsgLength, c.server, c.callbacks, c.closeStatus.received,
    c.statusCodeRecv, c.frameCtx.recvHalf, c.imsgs0, c.imsgs1, c.imsg, c.ipayloadlen,
    c.ipayloadoff)

/-- From `s` to `s'` the receiver has been left alone. -/
structure Spares (s s' : EventContext × Io) : Prop where
  context : s'.1.rxPart = s.1.rxPart
  enabled : s'.1.readEnabled = true → s.1.readEnabled = true
  recvs : s'.2.recvs = s.2.recvs
  received : s'.2.received = s.2.received
  calls : s'.2.calls = s.2.calls
  apps : s'.2.apps = s.2.apps
  mem : s'.2.mem <:+ s.2.mem

theorem Spares.refl (s : EventContext × Io) : Spares s s :=
  ⟨rfl, id, rfl, rfl, rfl, rfl, List.suffix_rfl⟩

theorem Spares.trans {s s' s'' : EventContext × Io} (h : Spares s s') (h' : Spares s' s'') :
    Spares s s'' where
  context := h'.context.trans h.context
  enabled := fun he => h.enabled (h'.enabled he)
  recvs := h'.recvs.trans h.recvs
  received := h'.received.trans h.received
  calls := h'.calls.trans h.calls
  apps := h'.apps.trans h.apps
  mem := h'.mem.trans h.mem

theorem Spares.of_allocates {c c' : EventContext} {io io' : Io} (ha : io.Allocates io')
    (hc : c'.rxPart = c.rxPart) (he : c'.readEnabled = c.readEnabled) : Spares (c, io) (c', io') := by
  obtain ⟨heq, hmem⟩ := ha
  exact ⟨hc, fun h => he ▸ h, by rw [heq], by rw [heq], by rw [heq], by rw [heq], hmem⟩

theorem Spares.noteQueued {s s' : EventContext × Io} (h : Spares s s') (m : QueuedMsg) :
    Spares s (s'.1, s'.2.noteQueued m) :=
  ⟨h.context, h.enabled, h.recvs, h.received, h.calls, h.apps, h.mem⟩

theorem rxPart_withMsg (c : EventContext) (arg : EventMsg) : (c.withMsg arg).rxPart = c.rxPart := by
  unfold EventContext.withMsg
  cases isCtrlFrame arg.opcode <;> rfl

theorem readEnabled_withMsg (c : EventContext) (arg : EventMsg) :
    (c.withMsg arg).readEnabled = c.readEnabled := by
  unfold EventContext.withMsg
  cases isCtrlFrame arg.opcode <;> rfl

theorem eventQueueMsg_spares (c : EventContext) (arg : EventMsg) (io : Io) :
    Spares (c, io) (eventQueueMsg c arg io).2 := by
  rcases eventQueueMsg_cases c arg io with ⟨-, heq⟩ | ⟨-, -, -, heq⟩ |
    ⟨-, -, io', ha, heq | ⟨-, r, -, -, heq⟩⟩ <;> rw [heq]
  · exact .refl _
  · exact .refl _
  · exact (Spares.of_allocates ha (rxPart_withMsg c arg) (readEnabled_withMsg c arg)).noteQueued _
  · exact .of_allocates ha rfl rfl

theorem eventQueueFragmentedMsg_spares (c : EventContext) (arg : EventFragmentedMsg) (io : Io) :
    Spares (c, io) (eventQueueFragmentedMsg c arg io).2 := by
  rcases eventQueueFragmentedMsg_cases c arg io with ⟨-, heq⟩ | ⟨-, -, heq⟩ |
    ⟨-, -, io', ha, heq | ⟨-, heq⟩⟩ <;> rw [heq]
  · exact .refl _
  · exact .refl _
  · have h : Spares (c, io) (c.withFragmentedMsg arg, io') := .of_allocates ha rfl rfl
    exact h.noteQueued _
  · exact .of_allocates ha rfl rfl

theorem eventQueueClose_spares (c : EventContext) (code : UInt16) (reason : List UInt8) (io : Io) :
    Spares (c, io) (eventQueueClose c code reason io).2 := by
  rcases eventQueueClose_cases c code reason io with ⟨-, heq⟩ | ⟨-, -, heq⟩ |
    ⟨-, -, io', ha, heq | ⟨-, r, -, -, heq⟩⟩ <;> rw [heq]
  · exact .refl _
  · exact .refl _
  · have h : Spares (c, io) (c.withClose code reason, io') :=
      .of_allocates ha (rxPart_withMsg c _) (readEnabled_withMsg c _)
    exact h.noteQueued _
  · exact .of_allocates ha rfl rfl

/-- The wrapper shuts reading down, and leaves the receiver alone. -/
theorem eventQueueCloseWrapper_spares (c : EventContext) (code : UInt16) (reason : List UInt8)
    (io : Io) :
    Spares (c, io) (eventQueueCloseWrapper c code reason io).2 ∧
      (eventQueueCloseWrapper c code reason io).2.1.readEnabled = false := by
  have h := eventQueueClose_spares { c with readEnabled := false } code reason io
  have hoff : (eventQueueClose { c with readEnabled := false } code reason io).2.1.readEnabled =
      false := by
    cases he : (eventQueueClose { c with readEnabled := false } code reason io).2.1.readEnabled with
    | false => rfl
    | true => exact absurd (h.enabled he) (by simp)
  have hshut : Spares (c, io) ({ c with readEnabled := false }, io) :=
    ⟨rfl, fun he => (by cases he), rfl, rfl, rfl, rfl, List.suffix_rfl⟩
  have hs := hshut.trans h
  unfold eventQueueCloseWrapper
  obtain ⟨r, c', io', heq⟩ : ∃ r c' io',
      eventQueueClose { c with readEnabled := false } code reason io = (r, c', io') := ⟨_, _, _, rfl⟩
  rw [heq] at hoff hs ⊢
  simp only
  split_ifs <;> exact ⟨hs, hoff⟩

theorem RecvSame.spares {s s' : EventContext × Io} (h : RecvSame s s') : Spares s s' := by
  have hc := h.context
  simp only [EventContext.recvHalf, Prod.mk.injEq] at hc
  obtain ⟨h1, -, h2, h3, h4, h5, h6, h7, h8, h9, h10, h11, h12, h13, h14⟩ := hc
  refine ⟨?_, fun he => by rw [← h8]; exact he, h.recvs, h.received, h.calls, h.apps, h.mem⟩
  simp only [EventContext.rxPart, h1, h2, h3, h4, h5, h6, h7, h9, h10, h11, h12, h13, h14]

/-- **No call of the application disturbs the receiver.** -/
theorem appCall_spares (c : EventContext) (io : Io) (a : AppCall) :
    Spares (c, io) (appCall c io a).2 := by
  cases a with
  | queueMsg arg => exact eventQueueMsg_spares c arg io
  | queueFragmentedMsg arg => exact eventQueueFragmentedMsg_spares c arg io
  | queueClose code reason => exact eventQueueClose_spares c code reason io
  | send => exact (eventSend_recvSame c io).1.spares
  | setError _ => exact ⟨rfl, id, rfl, rfl, rfl, rfl, List.suffix_rfl⟩
  | shutdownRead => exact ⟨rfl, fun h => (by cases h), rfl, rfl, rfl, rfl, List.suffix_rfl⟩
  | shutdownWrite => exact ⟨rfl, id, rfl, rfl, rfl, rfl, List.suffix_rfl⟩

theorem appCalls_spares (s : EventContext × Io) (calls : List AppCall) :
    Spares s (appCalls s calls) := by
  induction calls generalizing s with
  | nil => exact .refl s
  | cons a calls ih => exact (appCall_spares s.1 s.2 a).trans (ih _)

/-! ## The effects of the loop body -/

/-- The callback that a call goes to is set. -/
def EventCallbacks.takes (cb : EventCallbacks) : Call → Bool
  | .frameRecvStart .. => cb.onFrameRecvStart
  | .frameRecvChunk .. => cb.onFrameRecvChunk
  | .frameRecvEnd => cb.onFrameRecvEnd
  | .msgRecv .. => cb.onMsgRecv

/-- The settings of a context. -/
def EventContext.settings (c : EventContext) :=
  (c.sizeBits, c.noBuffering, c.maxRecvMsgLength, c.server, c.callbacks)

/-- The representation of the state of the receiver. -/
def EventContext.slots (c : EventContext) :=
  (c.imsgs0, c.imsgs1, c.imsg, c.ipayloadlen, c.ipayloadoff)

/-- When the application only looks on, nothing is sent or queued, and reading is
not shut down. -/
structure Alone (s s' : EventContext × Io) : Prop where
  apps : s'.2.apps = []
  send : s'.1.sendHalf = s.1.sendHalf
  io : s'.2.sendHalf = s.2.sendHalf
  enabled : s'.1.readEnabled = s.1.readEnabled
  error : s'.2.error = s.2.error ∨ s'.2.error = 0

/-- **From `s` to `s'` the receiver has worked**: it has called the callbacks that
there are for `calls`, and changed the state that represents it. -/
structure Works (s s' : EventContext × Io) (calls : List Call) : Prop where
  settings : s'.1.settings = s.1.settings
  frame : s'.1.frameCtx.recvHalf = s.1.frameCtx.recvHalf
  heard : s'.1.closeStatus.received = s.1.closeStatus.received
  code : s'.1.statusCodeRecv = s.1.statusCodeRecv
  enabled : s'.1.readEnabled = true → s.1.readEnabled = true
  recvs : s'.2.recvs = s.2.recvs
  received : s'.2.received = s.2.received
  calls : s'.2.calls = s.2.calls ++ calls.filter s.1.callbacks.takes
  mem : s'.2.mem <:+ s.2.mem
  alone : s.2.apps = [] → Alone s s'

theorem Works.callbacks {s s' : EventContext × Io} {calls : List Call} (h : Works s s' calls) :
    s'.1.callbacks = s.1.callbacks := by
  have hs := h.settings
  simp only [EventContext.settings, Prod.mk.injEq] at hs
  exact hs.2.2.2.2

theorem Works.trans {s s' s'' : EventContext × Io} {calls calls' : List Call} (h : Works s s' calls)
    (h' : Works s' s'' calls') : Works s s'' (calls ++ calls') where
  settings := h'.settings.trans h.settings
  frame := h'.frame.trans h.frame
  heard := h'.heard.trans h.heard
  code := h'.code.trans h.code
  enabled := fun he => h.enabled (h'.enabled he)
  recvs := h'.recvs.trans h.recvs
  received := h'.received.trans h.received
  calls := by
    rw [h'.calls, h.calls, h.callbacks, List.filter_append, List.append_assoc]
  mem := h'.mem.trans h.mem
  alone := by
    intro happs
    have h1 := h.alone happs
    have h2 := h'.alone h1.apps
    refine ⟨h2.apps, h2.send.trans h1.send, h2.io.trans h1.io, h2.enabled.trans h1.enabled, ?_⟩
    rcases h2.error with he | he
    · rw [he]
      exact h1.error
    · exact Or.inr he

/-- Only slots have been written. -/
theorem Works.of_slots {c c' : EventContext} (io : Io) (hs : c'.settings = c.settings)
    (hsend : c'.sendHalf = c.sendHalf) (hframe : c'.frameCtx = c.frameCtx)
    (hheard : c'.closeStatus = c.closeStatus) (hcode : c'.statusCodeRecv = c.statusCodeRecv)
    (he : c'.readEnabled = c.readEnabled) : Works (c, io) (c', io) [] where
  settings := hs
  frame := by rw [hframe]
  heard := by rw [hheard]
  code := hcode
  enabled := fun h => he ▸ h
  recvs := rfl
  received := rfl
  calls := by simp
  mem := List.suffix_rfl
  alone := fun happs => ⟨happs, hsend, rfl, he, Or.inl rfl⟩

theorem Works.refl (s : EventContext × Io) : Works s s [] :=
  .of_slots s.2 rfl rfl rfl rfl rfl rfl

theorem Works.setImsg (c : EventContext) (m : EventImsg) (io : Io) :
    Works (c, io) (c.setImsg m, io) [] := by
  unfold EventContext.setImsg
  cases c.imsg <;> exact .of_slots io rfl rfl rfl rfl rfl rfl

theorem Works.malloc (c : EventContext) (io : Io) : Works (c, io) (c, io.malloc.2) [] := by
  unfold Io.malloc
  cases hm : io.mem with
  | nil => exact .refl _
  | cons b bs =>
    exact ⟨rfl, rfl, rfl, rfl, id, rfl, rfl, by simp, by simp [hm], fun happs =>
      ⟨happs, rfl, rfl, rfl, Or.inl rfl⟩⟩

/-- **A callback, and what the application does in it.** -/
theorem notify_works (c : EventContext) (call : Call) (io : Io) :
    Works (c, io) (notify (c.callbacks.takes call) call c io) [call] ∧
      (notify (c.callbacks.takes call) call c io).1.slots = c.slots := by
  unfold notify
  cases hset : c.callbacks.takes call with
  | false =>
    have hnone : [call].filter c.callbacks.takes = [] := by simp [hset]
    exact ⟨⟨rfl, rfl, rfl, rfl, id, rfl, rfl, by rw [hnone, List.append_nil]; rfl, List.suffix_rfl,
      fun happs => ⟨happs, rfl, rfl, rfl, Or.inl rfl⟩⟩, rfl⟩
  | true =>
    have hcall : [call].filter c.callbacks.takes = [call] := by simp [hset]
    simp only [if_true]
    cases happs : io.apps with
    | nil =>
      exact ⟨⟨rfl, rfl, rfl, rfl, id, rfl, rfl, by rw [hcall], List.suffix_rfl,
        fun _ => ⟨rfl, rfl, rfl, rfl, Or.inl rfl⟩⟩, rfl⟩
    | cons now rest =>
      have h := appCalls_spares (c, { io with calls := io.calls ++ [call], apps := rest }) now
      have hc := h.context
      simp only [EventContext.rxPart, Prod.mk.injEq] at hc
      obtain ⟨h1, h2, h3, h4, h5, h6, h7, h8, h9, h10, h11, h12, h13⟩ := hc
      refine ⟨⟨?_, h8, h6, h7, h.enabled, h.recvs, h.received, ?_, h.mem, fun hnil => ?_⟩, ?_⟩
      · simp only [EventContext.settings, h1, h2, h3, h4, h5]
      · rw [hcall]
        exact h.calls
      · have hnil' : io.apps = [] := hnil
        rw [happs] at hnil'
        cases hnil'
      · simp only [EventContext.slots, h9, h10, h11, h12, h13]

/-! ## How the state is represented -/

@[simp] theorem curImsg_setImsg (c : EventContext) (m : EventImsg) : (c.setImsg m).curImsg = m := by
  unfold EventContext.setImsg EventContext.curImsg
  cases c.imsg <;> rfl

@[simp] theorem ipayloadlen_setImsg (c : EventContext) (m : EventImsg) :
    (c.setImsg m).ipayloadlen = c.ipayloadlen := by
  unfold EventContext.setImsg
  cases c.imsg <;> rfl

@[simp] theorem ipayloadoff_setImsg (c : EventContext) (m : EventImsg) :
    (c.setImsg m).ipayloadoff = c.ipayloadoff := by
  unfold EventContext.setImsg
  cases c.imsg <;> rfl

@[simp] theorem settings_setImsg (c : EventContext) (m : EventImsg) :
    (c.setImsg m).settings = c.settings := by
  unfold EventContext.setImsg
  cases c.imsg <;> rfl

/-- The chunks are full, and hold `body` between them. -/
structure Stored (cells : List ByteChunk) (body : List UInt8) : Prop where
  full : ∀ ch ∈ cells, ch.data.length = ch.dataLength
  body : cells.flatMap ByteChunk.data = body

/-- The last chunk is for a frame of `len` octets, of which it holds `off`. -/
def Storing (cells : List ByteChunk) (body : List UInt8) (off len : Nat) : Prop :=
  ∃ full part before, cells = full ++ [⟨part, len⟩] ∧ Stored full before ∧
    body = before ++ part ∧ part.length = off

/-- No message is in the slot. -/
structure Vacant (m : EventImsg) : Prop where
  opcode : m.opcode = noOpcode
  utf8state : m.utf8state = utf8Accept
  cells : m.chunks.cells = []

/-- The message `k` is in the slot, its octets apart. -/
structure Bears (cfg : RxConfig) (m : EventImsg) (k : Draft) : Prop where
  opcode : m.opcode = UInt8.ofNat k.opcode.val
  rsv : m.rsv = 0
  length : m.msgLength = k.length
  small : k.length < 2 ^ 64
  text : Waits m.utf8state k.text
  plain : k.opcode ≠ 1 → k.opcode ≠ 8 → k.text = []
  unkept : cfg.buffers k.opcode = false → k.length = 0

/-- The data message `k` waits in the slot for its next frame. -/
structure Suspended (cfg : RxConfig) (m : EventImsg) (k : Draft) : Prop extends Bears cfg m k where
  stored : Stored m.chunks.cells k.body
  data : isData k.opcode = true
  fin : m.fin = 0

/-- The frame `f` is being received into the slot. -/
structure InFrame (cfg : RxConfig) (m : EventImsg) (f : Progress) : Prop
    extends Bears cfg m f.draft where
  fin : m.fin = UInt8.ofNat f.header.fin.toNat
  kind : 8 ≤ f.header.opcode.val ↔ 8 ≤ f.draft.opcode.val
  known : isData f.draft.opcode = true ∨ isKnownCtrl f.draft.opcode = true
  cells : if cfg.buffers f.draft.opcode = true ∧ f.header.length ≠ 0 then
      Storing m.chunks.cells f.draft.body f.off f.header.length
    else Stored m.chunks.cells f.draft.body

/-- What is in the slot that is not current. -/
def Beside (cfg : RxConfig) (c : EventContext) (waiting : Option Draft) : Prop :=
  match waiting with
  | none => c.imsg = .zero ∧ Vacant c.imsgs1
  | some k => c.imsg = .one ∧ Suspended cfg c.imsgs0 k

/-- The receiver is between two frames. -/
structure Between (cfg : RxConfig) (c : EventContext) (waiting : Option Draft) : Prop where
  imsg : c.imsg = .zero
  other : Vacant c.imsgs1
  len : c.ipayloadlen = 0
  off : c.ipayloadoff = 0
  current : match waiting with
    | none => Vacant c.imsgs0
    | some k => Suspended cfg c.imsgs0 k

/-- The receiver is inside the frame `f`. -/
structure Inside (cfg : RxConfig) (c : EventContext) (waiting : Option Draft) (f : Progress) :
    Prop where
  beside : Beside cfg c waiting
  frame : InFrame cfg c.curImsg f
  len : c.ipayloadlen = f.header.length
  off : c.ipayloadoff = f.off
  alone : waiting ≠ none → 8 ≤ f.draft.opcode.val
  bits : f.header.rsv = 0 ∧ f.header.key.isSome = cfg.server
  valid : f.header.Valid

/-- The settings of the context are `cfg`. -/
structure Configured (cfg : RxConfig) (c : EventContext) : Prop where
  sizeBits : c.sizeBits = 64
  noBuffering : c.noBuffering = cfg.noBuffering
  limit : c.maxRecvMsgLength = cfg.limit
  server : c.server = cfg.server
  delivers : c.callbacks.onMsgRecv = cfg.delivers

/-- **The context represents the state `rx` of the receiver.** -/
structure Models (cfg : RxConfig) (c : EventContext) (rx : Rx) : Prop where
  settings : Configured cfg c
  state : match rx.frame with
    | none => Between cfg c rx.waiting
    | some f => Inside cfg c rx.waiting f ∧ 0 < f.off ∧ f.off < f.header.length

theorem Configured.congr {cfg : RxConfig} {c c' : EventContext} (h : Configured cfg c)
    (hs : c'.settings = c.settings) : Configured cfg c' := by
  simp only [EventContext.settings, Prod.mk.injEq] at hs
  obtain ⟨h1, h2, h3, h4, h5⟩ := hs
  exact ⟨h1.trans h.sizeBits, h2.trans h.noBuffering, h3.trans h.limit, h4.trans h.server, by
    rw [h5]; exact h.delivers⟩

theorem curImsg_congr {c c' : EventContext} (h1 : c'.imsgs0 = c.imsgs0)
    (h2 : c'.imsgs1 = c.imsgs1) (h3 : c'.imsg = c.imsg) : c'.curImsg = c.curImsg := by
  unfold EventContext.curImsg
  rw [h1, h2, h3]

theorem Beside.congr {cfg : RxConfig} {c c' : EventContext} {waiting : Option Draft}
    (h : Beside cfg c waiting) (h1 : c'.imsgs0 = c.imsgs0) (h2 : c'.imsgs1 = c.imsgs1)
    (h3 : c'.imsg = c.imsg) : Beside cfg c' waiting := by
  unfold Beside at h ⊢
  rw [h1, h2, h3]
  exact h

theorem Beside.setImsg {cfg : RxConfig} {c : EventContext} {waiting : Option Draft}
    (h : Beside cfg c waiting) (m : EventImsg) : Beside cfg (c.setImsg m) waiting := by
  cases waiting with
  | none =>
    obtain ⟨hslot, hv⟩ := h
    unfold EventContext.setImsg
    rw [hslot]
    exact ⟨rfl, hv⟩
  | some k =>
    obtain ⟨hslot, hk⟩ := h
    unfold EventContext.setImsg
    rw [hslot]
    exact ⟨rfl, hk⟩

theorem Between.congr {cfg : RxConfig} {c c' : EventContext} {waiting : Option Draft}
    (h : Between cfg c waiting) (hs : c'.slots = c.slots) : Between cfg c' waiting := by
  simp only [EventContext.slots, Prod.mk.injEq] at hs
  obtain ⟨h1, h2, h3, h4, h5⟩ := hs
  refine ⟨h3.trans h.imsg, by rw [h2]; exact h.other, h4.trans h.len, h5.trans h.off, ?_⟩
  rw [h1]
  exact h.current

theorem Inside.congr {cfg : RxConfig} {c c' : EventContext} {waiting : Option Draft}
    {f : Progress} (h : Inside cfg c waiting f) (hs : c'.slots = c.slots) :
    Inside cfg c' waiting f := by
  simp only [EventContext.slots, Prod.mk.injEq] at hs
  obtain ⟨h1, h2, h3, h4, h5⟩ := hs
  have hcur := curImsg_congr h1 h2 h3
  have hbeside := h.beside.congr h1 h2 h3
  exact ⟨hbeside, by rw [hcur]; exact h.frame, h4.trans h.len, h5.trans h.off, h.alone, h.bits,
    h.valid⟩

/-! ## The side of a context -/

/-- A context stays on its side. -/
theorem server_kept (server : Bool) : Kept (fun _ => True) fun s => s.1.server = server where
  same := by
    intro s s' h hs
    have hc := h.context
    simp only [EventContext.sendHalf, Prod.mk.injEq] at hc
    exact hc.1.trans hs
  call := by
    intro c io a _ hs
    have hpart := (appCall_spares c io a).context
    simp only [EventContext.rxPart, Prod.mk.injEq] at hpart
    exact hpart.2.2.2.1.trans hs
  apps := fun _ _ _ _ _ => trivial
  pong := fun _ => trivial
  close := fun _ _ => trivial

theorem runOps_server (s : EventContext × Io) (ops : List Op) :
    (runOps s ops).1.server = s.1.server := by
  have hstep : ∀ (t : EventContext × Io) (op : Op), True → t.1.server = s.1.server →
      (step t op).2.1.server = s.1.server := by
    intro t op _ ht
    cases op with
    | call a => exact (server_kept s.1.server).call trivial ht
    | recv => exact (server_kept s.1.server).eventRecv ht
  exact runOps_inv hstep (fun _ _ => trivial) rfl

end Wslay
