import Wslay.Event.RecvLoop

/-!
# The two layers agree on where a frame begins and ends

Each layer keeps the length of the frame in progress and the offset in it, and
the event layer takes a frame for a new one when its own two fields are 0.

* `InStep` — how the fields of the two layers are related between two calls.
* `layers_in_step` — they are so related in every run.
-/

namespace Wslay

/-- **The layers are in step.** -/
structure InStep (c : EventContext) : Prop where
  /-- Inside a frame both layers know its length and how far it has come. -/
  inside : c.ipayloadlen ≠ 0 →
    c.frameCtx.istate = .recvPayload ∧ c.frameCtx.ipayloadlen = c.ipayloadlen ∧
      c.frameCtx.ipayloadoff = c.ipayloadoff ∧ c.ipayloadoff < c.ipayloadlen ∧
      c.curImsg.opcode ≠ noOpcode
  /-- Between two frames no payload of the next one has been handed out. -/
  between : c.ipayloadlen = 0 →
    c.ipayloadoff = 0 ∧ (c.frameCtx.istate ≠ .recvPayload ∨ c.frameCtx.ipayloadoff = 0) ∧
      c.imsg = .zero
  /-- The second slot is for a control frame inside a message that is not complete. -/
  second : c.imsg = .one →
    (c.imsgs0.opcode = textFrame ∨ c.imsgs0.opcode = binaryFrame) ∧ c.imsgs0.fin = 0 ∧
      isCtrlFrame c.imsgs1.opcode = true ∧ 0 < c.ipayloadoff ∧ c.ipayloadoff < c.ipayloadlen

/-- Before a header no payload of the next frame has been handed out. -/
theorem View.before {f : FrameContext} {d : Dec} {look : List UInt8} (hv : View f d look)
    (hd : d = .head ∨ ∃ h, d = .body h 0) : f.istate ≠ .recvPayload ∨ f.ipayloadoff = 0 := by
  cases hv with
  | header1 hs => exact Or.inl (by simp [hs])
  | ext b0 b1 hs => exact Or.inl (by simp [hs])
  | maskkey g hb hs => exact Or.inl (by simp [hs])
  | payload h off hp =>
    rcases hd with hd | ⟨g, hd⟩
    · cases hd
    · cases hd
      exact Or.inr hp.ipayloadoff

/-- The opcodes of data messages, as the code has them. -/
theorem isData_cases {opcode : Fin 16} (h : isData opcode = true) :
    UInt8.ofNat opcode.val = textFrame ∨ UInt8.ofNat opcode.val = binaryFrame := by
  revert opcode
  decide

theorem isCtrlFrame_of_ctrl {opcode : Fin 16} (h : 8 ≤ opcode.val) :
    isCtrlFrame (UInt8.ofNat opcode.val) = true := by
  revert opcode
  decide

theorem Listens.inStep {cfg : RxConfig} {s : EventContext × Io} {rx : Rx} {d : Dec}
    {look : List UInt8} (hl : Listens cfg s rx d look) : InStep s.1 := by
  have hstate := hl.models.state
  have hplace := hl.place
  unfold Rx.Place at hplace
  cases hf : rx.frame with
  | none =>
    simp only [hf] at hstate hplace
    refine ⟨fun h => absurd hstate.len h, fun _ => ?_, fun hone => ?_⟩
    · exact ⟨hstate.off, hl.ready.view.before hplace, hstate.imsg⟩
    · rw [hstate.imsg] at hone
      cases hone
  | some f =>
    simp only [hf] at hstate hplace
    obtain ⟨hi, hpos, hlt⟩ := hstate
    have hlen := hi.len
    have hoff := hi.off
    refine ⟨fun _ => ?_, fun h => ?_, fun hone => ?_⟩
    · have hview := hl.ready.view
      rw [hplace] at hview
      cases hview with
      | payload _ _ hp =>
        refine ⟨hp.istate, hp.ipayloadlen.trans hlen.symm, hp.ipayloadoff.trans hoff.symm, by omega, ?_⟩
        rw [hi.frame.opcode]
        exact ofNat_opcode_ne_noOpcode _
    · omega
    · have hbeside := hi.beside
      cases hw : rx.waiting with
      | none =>
        rw [hw] at hbeside
        rw [hbeside.1] at hone
        cases hone
      | some k =>
        rw [hw] at hbeside
        have hk := hbeside.2
        refine ⟨hk.opcode ▸ isData_cases hk.data, hk.fin, ?_, by omega, by omega⟩
        have hctrl := hi.frame.opcode
        rw [EventContext.curImsg, hone] at hctrl
        rw [hctrl]
        exact isCtrlFrame_of_ctrl (hi.alone (by rw [hw]; simp))

/-- **The event layer and the frame layer agree** on where a frame begins and ends,
in every state that a run reaches between two calls, as long as reading is
enabled. -/
theorem layers_in_step (server : Bool) (callbacks : EventCallbacks) (noBuffering : Bool)
    (maxRecvMsgLength : Nat) (io : Io) (ops : List Op) :
    let s := runOps (configured server callbacks noBuffering maxRecvMsgLength, io) ops
    s.1.readEnabled = true → InStep s.1 := by
  intro s hon
  have hs := runOps_hears (configured_hears server callbacks noBuffering maxRecvMsgLength io) ops
  obtain ⟨rx, d, look, hl⟩ := hs hon
  exact hl.inStep

/-- Inside of a message, with a part of a Ping. -/
def pingInText : EventContext × Io :=
  runOps (configured false ⟨true, true, true, true⟩ false 100,
    { recvs := [.data [0x01, 0x01, 97, 0x89, 0x02, 98]] }) [.recv]

theorem layers_in_step_pingInText : pingInText.1.imsg = .one ∧ InStep pingInText.1 :=
  ⟨by decide +kernel, layers_in_step false ⟨true, true, true, true⟩ false 100
    { recvs := [.data [0x01, 0x01, 97, 0x89, 0x02, 98]] } [.recv] (by decide +kernel)⟩

end Wslay
