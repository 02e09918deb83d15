import Wslay.Frame.Recv
import Wslay.Frame.Send

/-!
# The two halves of a frame context

Sending and receiving share a context and a world, and nothing in it:
`wslay_frame_recv` leaves alone what belongs to sending
(`frameSendSame_frameRecv`), and `wslay_frame_send` what belongs to receiving
(`frameRecvSame_frameSend`), in every state.
-/

namespace Wslay

open Octets (xorFrom)

/-- The part of the world that the sending half depends on, and its history. -/
def Io.sendHalf (io : Io) := (io.sends, io.masks, io.wire, io.offers, io.queued, io.discarded)

/-- The part of the world that the receiving half depends on, and its history. -/
def Io.recvHalf (io : Io) :=
  (io.recvs, io.mem, io.apps, io.received, io.calls, io.queued, io.discarded)

/-! ## Receiving -/

theorem sendHalf_recvCallback (io : Io) (len : Nat) :
    (io.recvCallback len).2.sendHalf = io.sendHalf ∧ (io.recvCallback len).2.apps = io.apps ∧
      (io.recvCallback len).2.mem = io.mem := by
  unfold Io.recvCallback
  split <;> try split_ifs
  all_goals exact ⟨rfl, rfl, rfl⟩

theorem sendHalf_wslayRecv (f : FrameContext) (io : Io) :
    (wslayRecv f io).2.1.sendHalf = f.sendHalf ∧ (wslayRecv f io).2.2.sendHalf = io.sendHalf ∧
      (wslayRecv f io).2.2.apps = io.apps ∧ (wslayRecv f io).2.2.mem = io.mem := by
  unfold wslayRecv
  have hshift : (if f.ibufmark ≠ 0 then shiftIbuf f else f).sendHalf = f.sendHalf := by
    split_ifs <;> rfl
  obtain ⟨g, hg⟩ : ∃ g, (if f.ibufmark ≠ 0 then shiftIbuf f else f) = g := ⟨_, rfl⟩
  rw [hg] at hshift ⊢
  have hio := sendHalf_recvCallback io (ibufSize - g.ibuf.length)
  simp only
  split_ifs
  · exact ⟨hshift, hio⟩
  · exact ⟨hshift, hio⟩

theorem sendHalf_requireIbuf (f : FrameContext) (io : Io) :
    (requireIbuf f io).2.1.sendHalf = f.sendHalf ∧ (requireIbuf f io).2.2.sendHalf = io.sendHalf ∧
      (requireIbuf f io).2.2.apps = io.apps ∧ (requireIbuf f io).2.2.mem = io.mem := by
  have h := sendHalf_wslayRecv f io
  unfold requireIbuf
  split_ifs
  · obtain ⟨e, f', io', heq⟩ : ∃ e f' io', wslayRecv f io = (e, f', io') := ⟨_, _, _, rfl⟩
    rw [heq] at h ⊢
    cases e with
    | some e => exact h
    | none =>
      simp only
      split_ifs <;> exact h
  · exact ⟨rfl, rfl, rfl, rfl⟩

theorem sendHalf_readHeader1 (f : FrameContext) : (readHeader1 f).2.sendHalf = f.sendHalf := by
  unfold readHeader1
  simp only
  split_ifs <;> rfl

theorem sendHalf_readExtPayloadlen (f : FrameContext) :
    (readExtPayloadlen f).2.sendHalf = f.sendHalf := by
  unfold readExtPayloadlen
  simp only
  split_ifs <;> rfl

theorem sendHalf_readPayload (f : FrameContext) : (readPayload f).2.sendHalf = f.sendHalf := by
  unfold readPayload
  simp only
  split_ifs <;> rfl

/-- From `f`, `io` to `f'`, `io'` nothing has happened to the sending half. -/
def FrameSendSame (f : FrameContext) (io : Io) (f' : FrameContext) (io' : Io) : Prop :=
  f'.sendHalf = f.sendHalf ∧ io'.sendHalf = io.sendHalf ∧ io'.apps = io.apps ∧ io'.mem = io.mem

theorem FrameSendSame.trans {f f' f'' : FrameContext} {io io' io'' : Io}
    (h : FrameSendSame f io f' io') (h' : FrameSendSame f' io' f'' io'') :
    FrameSendSame f io f'' io'' :=
  ⟨h'.1.trans h.1, h'.2.1.trans h.2.1, h'.2.2.1.trans h.2.2.1, h'.2.2.2.trans h.2.2.2⟩

/-- A block that may ask `recv_callback` and then reads, or is passed over. -/
theorem frameSendSame_block {guard : Prop} [Decidable guard]
    {read : FrameContext → Option Err × FrameContext}
    (hread : ∀ f, (read f).2.sendHalf = f.sendHalf) (f : FrameContext) (io : Io)
    {r : Option Err × FrameContext × Io}
    (hr : r = if guard then
        match requireIbuf f io with
        | (some e, f, io) => (some e, f, io)
        | (none, f, io) => ((read f).1, (read f).2, io)
      else (none, f, io)) :
    FrameSendSame f io r.2.1 r.2.2 := by
  have h := sendHalf_requireIbuf f io
  by_cases hg : guard
  · rw [if_pos hg] at hr
    obtain ⟨e, f', io', heq⟩ : ∃ e f' io', requireIbuf f io = (e, f', io') := ⟨_, _, _, rfl⟩
    rw [heq] at h hr
    cases e with
    | some e =>
      rw [hr]
      exact h
    | none =>
      rw [hr]
      exact ⟨(hread f').trans h.1, h.2⟩
  · rw [if_neg hg] at hr
    rw [hr]
    exact ⟨rfl, rfl, rfl, rfl⟩

theorem frameSendSame_recvPayload (f : FrameContext) (io : Io) :
    FrameSendSame f io (recvPayload f io).2.1 (recvPayload f io).2.2 := by
  have h := sendHalf_wslayRecv f io
  unfold recvPayload
  obtain ⟨e, f', io', heq⟩ : ∃ e f' io', wslayRecv f io = (e, f', io') := ⟨_, _, _, rfl⟩
  rw [heq] at h
  split_ifs
  · rw [heq]
    cases e with
    | some e => exact h
    | none => exact ⟨(sendHalf_readPayload f').trans h.1, h.2⟩
  · exact ⟨sendHalf_readPayload f, rfl, rfl, rfl⟩
  · exact ⟨rfl, rfl, rfl, rfl⟩

/-- `wslay_frame_recv` leaves the sending half alone. -/
theorem frameSendSame_frameRecv (f : FrameContext) (io : Io) :
    FrameSendSame f io (frameRecv f io).2.1 (frameRecv f io).2.2 := by
  have h1 : FrameSendSame f io (recvHeader1 f io).2.1 (recvHeader1 f io).2.2 :=
    frameSendSame_block sendHalf_readHeader1 f io rfl
  unfold frameRecv
  obtain ⟨e, f₁, io₁, heq⟩ : ∃ e f₁ io₁, recvHeader1 f io = (e, f₁, io₁) := ⟨_, _, _, rfl⟩
  rw [heq] at h1 ⊢
  rcases e with _ | e
  swap
  · exact h1
  have h2 : FrameSendSame f₁ io₁ (recvExtPayloadlen f₁ io₁).2.1 (recvExtPayloadlen f₁ io₁).2.2 :=
    frameSendSame_block sendHalf_readExtPayloadlen f₁ io₁ rfl
  simp only
  obtain ⟨e, f₂, io₂, heq₂⟩ : ∃ e f₂ io₂, recvExtPayloadlen f₁ io₁ = (e, f₂, io₂) := ⟨_, _, _, rfl⟩
  rw [heq₂] at h2 ⊢
  rcases e with _ | e
  swap
  · exact h1.trans h2
  have h3 : FrameSendSame f₂ io₂ (recvMaskkey f₂ io₂).2.1 (recvMaskkey f₂ io₂).2.2 :=
    @frameSendSame_block _ _ (fun f => (none, readMaskkey f)) (fun _ => rfl) f₂ io₂ _ rfl
  simp only
  obtain ⟨e, f₃, io₃, heq₃⟩ : ∃ e f₃ io₃, recvMaskkey f₂ io₂ = (e, f₃, io₃) := ⟨_, _, _, rfl⟩
  rw [heq₃] at h3 ⊢
  rcases e with _ | e
  swap
  · exact h1.trans (h2.trans h3)
  · exact h1.trans (h2.trans (h3.trans (frameSendSame_recvPayload f₃ io₃)))

/-! ## Sending -/

theorem recvHalf_sendCallback (io : Io) (offer : Offer) :
    (io.sendCallback offer).2.recvHalf = io.recvHalf := by
  unfold Io.sendCallback
  simp only
  split <;> rfl

theorem recvHalf_genmaskCallback (io : Io) : io.genmaskCallback.2.recvHalf = io.recvHalf := by
  unfold Io.genmaskCallback
  cases io.masks <;> rfl

/-- From `f`, `io` to `f'`, `io'` nothing has happened to the receiving half. -/
def FrameRecvSame (f : FrameContext) (io : Io) (f' : FrameContext) (io' : Io) : Prop :=
  f'.recvHalf = f.recvHalf ∧ io'.recvHalf = io.recvHalf

theorem FrameRecvSame.trans {f f' f'' : FrameContext} {io io' io'' : Io}
    (h : FrameRecvSame f io f' io') (h' : FrameRecvSame f' io' f'' io'') :
    FrameRecvSame f io f'' io'' :=
  ⟨h'.1.trans h.1, h'.2.trans h.2⟩

theorem frameRecvSame_sendPrepHeader (f : FrameContext) (iocb : Iocb) (io : Io) :
    FrameRecvSame f io (sendPrepHeader f iocb io).2.1 (sendPrepHeader f iocb io).2.2 := by
  have hgen := recvHalf_genmaskCallback io
  unfold sendPrepHeader
  by_cases hstate : f.ostate = .prepHeader
  · rw [if_pos hstate]
    by_cases hlong : (isCtrlFrame iocb.opcode && decide (125 < iocb.payloadLength)) = true
    · rw [if_pos hlong]
      exact ⟨rfl, rfl⟩
    · rw [if_neg hlong]
      cases headerLength iocb.mask iocb.payloadLength with
      | none => exact ⟨rfl, rfl⟩
      | some len =>
        obtain ⟨k, io', heq⟩ : ∃ k io', io.genmaskCallback = (k, io') := ⟨_, _, rfl⟩
        rw [heq] at hgen
        simp only [heq]
        cases iocb.mask with
        | false => exact ⟨rfl, rfl⟩
        | true => cases k <;> exact ⟨rfl, hgen⟩
  · rw [if_neg hstate]
    exact ⟨rfl, rfl⟩

theorem frameRecvSame_sendHeader (f : FrameContext) (iocb : Iocb) (io : Io) :
    FrameRecvSame f io (sendHeader f iocb io).2.1 (sendHeader f iocb io).2.2 := by
  have hcb := recvHalf_sendCallback io ⟨f.oheaderRest, decide (iocb.data ≠ []), false⟩
  unfold sendHeader
  obtain ⟨r, io', heq⟩ : ∃ r io', io.sendCallback
      ⟨f.oheaderRest, decide (iocb.data ≠ []), false⟩ = (r, io') := ⟨_, _, rfl⟩
  rw [heq] at hcb
  simp only [heq]
  split_ifs <;> exact ⟨rfl, by first | exact hcb | rfl⟩

theorem frameRecvSame_sendMaskedLoop (fuel : Nat) (f : FrameContext) (data : List UInt8)
    (tot : Nat) (io : Io) :
    FrameRecvSame f io (sendMaskedLoop fuel f data tot io).2.1
      (sendMaskedLoop fuel f data tot io).2.2 := by
  induction fuel generalizing f data tot io with
  | zero => exact ⟨rfl, rfl⟩
  | succ fuel ih =>
    unfold sendMaskedLoop
    have hcb := recvHalf_sendCallback io
      ⟨xorFrom f.omaskkey f.opayloadoff (data.take tempSize), false, false⟩
    obtain ⟨r, io', heq⟩ : ∃ r io', io.sendCallback
        ⟨xorFrom f.omaskkey f.opayloadoff (data.take tempSize), false, false⟩ = (r, io') :=
      ⟨_, _, rfl⟩
    rw [heq] at hcb
    simp only [heq]
    split_ifs
    · exact ⟨rfl, rfl⟩
    · exact ⟨rfl, hcb⟩
    · have h := ih { f with opayloadoff := f.opayloadoff + r.toNat } (data.drop r.toNat)
        (tot + r.toNat) io'
      exact ⟨h.1, h.2.trans hcb⟩
    · exact ⟨rfl, hcb⟩
    · exact ⟨rfl, hcb⟩

theorem frameRecvSame_sendPayload (f : FrameContext) (iocb : Iocb) (io : Io) :
    FrameRecvSame f io (sendPayload f iocb io).2.1 (sendPayload f iocb io).2.2 := by
  have hdata : FrameRecvSame f io (sendData f iocb io).2.1 (sendData f iocb io).2.2 := by
    have hcb := recvHalf_sendCallback io ⟨iocb.data, false, true⟩
    unfold sendData
    obtain ⟨r, io', heq⟩ : ∃ r io', io.sendCallback ⟨iocb.data, false, true⟩ = (r, io') :=
      ⟨_, _, rfl⟩
    rw [heq] at hcb
    simp only [heq]
    split_ifs
    · exact ⟨rfl, rfl⟩
    · exact frameRecvSame_sendMaskedLoop _ _ _ _ _
    all_goals exact ⟨rfl, hcb⟩
  unfold sendPayload
  obtain ⟨r, f', io', heq⟩ : ∃ r f' io', sendData f iocb io = (r, f', io') := ⟨_, _, _, rfl⟩
  rw [heq] at hdata
  simp only [heq]
  cases r with
  | error e => split_ifs <;> first | exact hdata | exact ⟨rfl, rfl⟩
  | ok n => simp only; split_ifs <;> first | exact hdata | exact ⟨rfl, rfl⟩

/-- `wslay_frame_send` leaves the receiving half alone. -/
theorem frameRecvSame_frameSend (f : FrameContext) (iocb : Iocb) (io : Io) :
    FrameRecvSame f io (frameSend f iocb io).2.1 (frameSend f iocb io).2.2 := by
  have h1 := frameRecvSame_sendPrepHeader f iocb io
  unfold frameSend
  by_cases hlong : iocb.payloadLength < iocb.data.length
  · rw [if_pos hlong]
    exact ⟨rfl, rfl⟩
  rw [if_neg hlong]
  obtain ⟨e, f₁, io₁, heq⟩ : ∃ e f₁ io₁, sendPrepHeader f iocb io = (e, f₁, io₁) := ⟨_, _, _, rfl⟩
  rw [heq] at h1 ⊢
  rcases e with _ | e
  swap
  · exact h1
  have h2 := frameRecvSame_sendHeader f₁ iocb io₁
  simp only
  obtain ⟨e, f₂, io₂, heq₂⟩ : ∃ e f₂ io₂, sendHeader f₁ iocb io₁ = (e, f₂, io₂) := ⟨_, _, _, rfl⟩
  rw [heq₂] at h2 ⊢
  rcases e with _ | e
  swap
  · exact h1.trans h2
  · exact h1.trans (h2.trans (frameRecvSame_sendPayload f₂ iocb io₂))

end Wslay
