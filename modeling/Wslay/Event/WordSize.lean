import Wslay.Event.Storage

/-!
# The width of `size_t`

The lengths of frames are `uint64_t`, but a chunk and a message have lengths of type
`size_t`.  As long as the limit fits into a `size_t`, nothing is cut off, and a platform
where it is narrow behaves as one where it has 64 bits.

* `onWidth` — the same state on another platform.
* `recvPass_onWidth` — a pass does the same there.
* `narrow_agrees` — **the platforms agree**.
* `payload_stays_in_chunk` — **stored payload stays in its chunk**, on all of them.
-/

namespace Wslay

open Loop (Step)
open Octets (beVal)

/-- The context where `size_t` has `w` bits. -/
def EventContext.onWidth (w : Nat) (c : EventContext) : EventContext := { c with sizeBits := w }

/-- The state where `size_t` has `w` bits. -/
def onWidth (w : Nat) (s : EventContext × Io) : EventContext × Io := (s.1.onWidth w, s.2)

/-- What a function returns, where `size_t` has `w` bits. -/
def returnOn {ρ : Type} (w : Nat) (x : ρ × EventContext × Io) : ρ × EventContext × Io :=
  (x.1, onWidth w x.2)

section

variable (w : Nat)

theorem curImsg_onWidth (c : EventContext) : (c.onWidth w).curImsg = c.curImsg := by
  unfold EventContext.curImsg EventContext.onWidth
  rfl

theorem setImsg_onWidth (c : EventContext) (m : EventImsg) :
    (c.onWidth w).setImsg m = (c.setImsg m).onWidth w := by
  unfold EventContext.setImsg EventContext.onWidth
  cases c.imsg <;> rfl

/-! ## The sending half does not look at it -/

theorem eventQueueMsg_onWidth (c : EventContext) (arg : EventMsg) (io : Io) :
    eventQueueMsg (c.onWidth w) arg io = returnOn w (eventQueueMsg c arg io) := by
  have hq : eventIsMsgQueueable (c.onWidth w) = eventIsMsgQueueable c := rfl
  unfold eventQueueMsg
  rw [hq]
  split_ifs
  · rfl
  · rfl
  · rcases eventOmsgNonFragmentedNew arg.opcode arg.msg io with ⟨_ | omsg, io₁⟩
    · rfl
    · rcases hm : io₁.malloc with ⟨_ | _, io₂⟩
      · simp only [hm]
        rfl
      · simp only [hm]
        rfl
  · rcases eventOmsgNonFragmentedNew arg.opcode arg.msg io with ⟨_ | omsg, io₁⟩
    · rfl
    · rcases hm : io₁.malloc with ⟨_ | _, io₂⟩
      · simp only [hm]
        rfl
      · simp only [hm]
        rfl

theorem eventQueueFragmentedMsg_onWidth (c : EventContext) (arg : EventFragmentedMsg) (io : Io) :
    eventQueueFragmentedMsg (c.onWidth w) arg io = returnOn w (eventQueueFragmentedMsg c arg io) := by
  have hq : eventIsMsgQueueable (c.onWidth w) = eventIsMsgQueueable c := rfl
  unfold eventQueueFragmentedMsg
  rw [hq]
  split_ifs
  · rfl
  · rfl
  · rcases eventOmsgFragmentedNew arg.opcode arg.source io with ⟨_ | omsg, io₁⟩
    · rfl
    · rcases hm : io₁.malloc with ⟨_ | _, io₂⟩
      · simp only [hm]
        rfl
      · simp only [hm]
        rfl

theorem eventQueueClose_onWidth (c : EventContext) (code : UInt16) (reason : List UInt8)
    (io : Io) :
    eventQueueClose (c.onWidth w) code reason io = returnOn w (eventQueueClose c code reason io) := by
  have hq : eventIsMsgQueueable (c.onWidth w) = eventIsMsgQueueable c := rfl
  unfold eventQueueClose
  rw [hq, eventQueueMsg_onWidth]
  split_ifs
  · rfl
  · rfl
  · rcases eventQueueMsg c ⟨connectionClose, closeBody code reason⟩ io with ⟨r, c', io'⟩
    dsimp only [returnOn, onWidth]
    by_cases hr : r = 0
    · rw [if_pos hr, if_pos hr]
      rfl
    · rw [if_neg hr, if_neg hr]

theorem eventQueueCloseWrapper_onWidth (c : EventContext) (code : UInt16) (reason : List UInt8)
    (io : Io) :
    eventQueueCloseWrapper (c.onWidth w) code reason io =
      returnOn w (eventQueueCloseWrapper c code reason io) := by
  have h := eventQueueClose_onWidth w { c with readEnabled := false } code reason io
  have hoff : { c.onWidth w with readEnabled := false } =
      EventContext.onWidth w { c with readEnabled := false } := rfl
  unfold eventQueueCloseWrapper
  rw [hoff, h]
  rcases eventQueueClose { c with readEnabled := false } code reason io with ⟨r, c', io'⟩
  dsimp only [returnOn, onWidth]
  by_cases hr : r ≠ 0 ∧ r ≠ Err.noMoreMsg.code
  · rw [if_pos hr, if_pos hr]
  · rw [if_neg hr, if_neg hr]

theorem eventSendCtrlQueuePop_onWidth (c : EventContext) (io : Io) :
    eventSendCtrlQueuePop (c.onWidth w) io = returnOn w (eventSendCtrlQueuePop c io) := by
  unfold eventSendCtrlQueuePop
  have hc : (c.onWidth w).closeStatus.queued = c.closeStatus.queued := rfl
  rw [hc]
  split_ifs
  · rfl
  · rfl

theorem sendPick_onWidth (s : EventContext × Io) :
    sendPick (s.1.onWidth w) s.2 = (sendPick s.1 s.2).map (onWidth w) := by
  obtain ⟨c, io⟩ := s
  have hpop := eventSendCtrlQueuePop_onWidth w
  unfold sendPick
  have homsg : (c.onWidth w).omsg = c.omsg := rfl
  simp only [homsg]
  cases hc : c.omsg with
  | none =>
    have hctrl : (c.onWidth w).sendCtrlQueue = c.sendCtrlQueue := rfl
    have hdata : (c.onWidth w).sendQueue = c.sendQueue := rfl
    simp only [hctrl, hdata, hpop]
    split_ifs
    · cases c.sendQueue with
      | nil => rfl
      | cons m ms =>
        simp only
        split_ifs
        · rfl
        · rfl
    · rcases eventSendCtrlQueuePop c io with ⟨_ | m, c', io'⟩
      · rfl
      · simp only [returnOn, onWidth]
        by_cases htype : m.type = .nonFragmented
        · simp only [if_pos htype]
          rfl
        · simp only [if_neg htype]
          rfl
  | some m =>
    have hguard : (!isCtrlFrame m.opcode && decide ((c.onWidth w).frameCtx.ostate = .prepHeader) &&
        decide ((c.onWidth w).sendCtrlQueue ≠ [])) = (!isCtrlFrame m.opcode &&
          decide (c.frameCtx.ostate = .prepHeader) && decide (c.sendCtrlQueue ≠ [])) := rfl
    simp only [hguard]
    split_ifs
    · rcases io.malloc with ⟨_ | _, io₁⟩
      · rfl
      · have hback : { c.onWidth w with omsg := some m, sendQueue := m :: (c.onWidth w).sendQueue } =
            EventContext.onWidth w { c with omsg := some m, sendQueue := m :: c.sendQueue } := rfl
        simp only [hback, hpop]
        rcases eventSendCtrlQueuePop { c with omsg := some m, sendQueue := m :: c.sendQueue } io₁ with
          ⟨_ | m', c', io'⟩
        · rfl
        · rfl
    · rfl

theorem sendFrameError_onWidth (e : Err) (c : EventContext) (io : Io) :
    sendFrameError e (c.onWidth w) io = (sendFrameError e c io).map (onWidth w) := by
  unfold sendFrameError
  split_ifs
  · rfl
  · rfl

theorem finishNonFragmented_onWidth (c : EventContext) (m : EventOmsg) :
    finishNonFragmented (c.onWidth w) m = (finishNonFragmented c m).onWidth w := by
  unfold finishNonFragmented
  by_cases hclose : m.opcode = connectionClose
  · simp only [if_pos hclose]
    rfl
  · simp only [if_neg hclose]
    rfl

theorem sendNonFragmented_onWidth (c : EventContext) (m : EventOmsg) (io : Io) :
    sendNonFragmented (c.onWidth w) m io = (sendNonFragmented c m io).map (onWidth w) := by
  have hcall : frameSend (c.onWidth w).frameCtx (nonFragmentedIocb (c.onWidth w) m) io =
      frameSend c.frameCtx (nonFragmentedIocb c m) io := rfl
  unfold sendNonFragmented
  rw [hcall]
  rcases frameSend c.frameCtx (nonFragmentedIocb c m) io with ⟨e | n, f, io'⟩
  · exact sendFrameError_onWidth w e { c with frameCtx := f } io'
  · by_cases hend : c.opayloadoff + n = c.opayloadlen
    · have hdone := finishNonFragmented_onWidth w
        { c with frameCtx := f, opayloadoff := c.opayloadlen } m
      simp only [EventContext.onWidth, hend, if_true] at hdone ⊢
      rw [hdone]
      rfl
    · simp only [EventContext.onWidth, hend, if_false]
      rfl

theorem readFragment_onWidth (c : EventContext) (m : EventOmsg) (io : Io) :
    readFragment (c.onWidth w) m io = (readFragment c m io).map (onWidth w) := by
  unfold readFragment
  cases m.source with
  | nil => rfl
  | cons r rs =>
    cases r with
    | fail e => rfl
    | data bs eof hle =>
      simp only
      by_cases hnil : bs = []
      · rw [if_pos hnil, if_pos hnil]
        rfl
      · rw [if_neg hnil, if_neg hnil]
        rfl

theorem sendFragment_onWidth (c : EventContext) (m : EventOmsg) (io : Io) :
    sendFragment (c.onWidth w) m io = (sendFragment c m io).map (onWidth w) := by
  have hcall : frameSend (c.onWidth w).frameCtx (fragmentIocb (c.onWidth w) m) io =
      frameSend c.frameCtx (fragmentIocb c m) io := rfl
  unfold sendFragment
  rw [hcall]
  rcases frameSend c.frameCtx (fragmentIocb c m) io with ⟨e | n, f, io'⟩
  · exact sendFrameError_onWidth w e { c with frameCtx := f } io'
  · by_cases hend : c.obufmark + n = c.obuf.length
    · by_cases hfin : m.fin = 0
      · simp only [EventContext.onWidth, hend, hfin, if_true, ne_eq, not_true_eq_false, if_false]
        rfl
      · simp only [EventContext.onWidth, hend, hfin, if_true, ne_eq, not_false_eq_true]
        rfl
    · simp only [EventContext.onWidth, hend, if_false]
      rfl

theorem sendOmsg_onWidth (s : EventContext × Io) :
    sendOmsg (onWidth w s) = (sendOmsg s).map (onWidth w) := by
  unfold sendOmsg
  have homsg : (onWidth w s).1.omsg = s.1.omsg := rfl
  rw [homsg]
  cases s.1.omsg with
  | none => rfl
  | some m =>
    simp only
    split_ifs
    · exact sendNonFragmented_onWidth w s.1 m s.2
    · unfold sendFragmented
      have hguard : (m.fin = 0 ∧ (onWidth w s).1.obufmark = (onWidth w s).1.obuf.length) =
          (m.fin = 0 ∧ s.1.obufmark = s.1.obuf.length) := rfl
      simp only [hguard]
      split_ifs
      · have hread : readFragment (onWidth w s).1 m (onWidth w s).2 =
            (readFragment s.1 m s.2).map (onWidth w) := readFragment_onWidth w s.1 m s.2
        rw [hread]
        refine Step.map_andThen fun t ht => ?_
        have ht' : (onWidth w t).1.omsg = t.1.omsg := rfl
        rw [ht']
        cases t.1.omsg with
        | none => rfl
        | some m' => exact sendFragment_onWidth w t.1 m' t.2
      · exact sendFragment_onWidth w s.1 m s.2

theorem sendPass_onWidth (s : EventContext × Io) :
    sendPass (onWidth w s) = (sendPass s).map (onWidth w) := by
  have hwant : eventWantWrite (onWidth w s).1 = eventWantWrite s.1 := rfl
  have hpick : sendPick (onWidth w s).1 (onWidth w s).2 = (sendPick s.1 s.2).map (onWidth w) :=
    sendPick_onWidth w s
  unfold sendPass
  rw [hwant]
  split_ifs
  · rw [hpick]
    exact Step.map_andThen fun t _ => sendOmsg_onWidth w t
  · rfl

/-- **`wslay_event_send` does not depend on the width.** -/
theorem eventSend_onWidth (c : EventContext) (io : Io) :
    eventSend (c.onWidth w) io = returnOn w (eventSend c io) := by
  have hrun := Loop.run_map (P := fun _ => True) (fun s _ => sendPass_onWidth w s)
    (fun _ _ _ _ => trivial) (n := sendFuel c) (s := (c, io)) trivial
  have hfuel : sendFuel (c.onWidth w) = sendFuel c := rfl
  obtain ⟨x, hx⟩ := Option.isSome_iff_exists.1 (eventSend_isSome c io)
  unfold eventSend
  rw [hfuel]
  change (Loop.run sendPass (sendFuel c) (onWidth w (c, io))).getD _ = _
  rw [hrun, hx]
  rfl

/-! ## Nor do the calls of the application -/

theorem appCall_onWidth (c : EventContext) (io : Io) (a : AppCall) :
    appCall (c.onWidth w) io a = returnOn w (appCall c io a) := by
  cases a with
  | queueMsg arg => exact eventQueueMsg_onWidth w c arg io
  | queueFragmentedMsg arg => exact eventQueueFragmentedMsg_onWidth w c arg io
  | queueClose code reason => exact eventQueueClose_onWidth w c code reason io
  | send => exact eventSend_onWidth w c io
  | setError val => rfl
  | shutdownRead => rfl
  | shutdownWrite => rfl

theorem appCalls_onWidth (s : EventContext × Io) (calls : List AppCall) :
    appCalls (onWidth w s) calls = onWidth w (appCalls s calls) := by
  induction calls generalizing s with
  | nil => rfl
  | cons a calls ih =>
    have ha := appCall_onWidth w s.1 s.2 a
    have hhead : appCalls (onWidth w s) (a :: calls) =
        appCalls (appCall (s.1.onWidth w) s.2 a).2 calls := rfl
    rw [hhead, ha]
    exact ih _

theorem notify_onWidth (isSet : Bool) (call : Call) (c : EventContext) (io : Io) :
    notify isSet call (c.onWidth w) io = onWidth w (notify isSet call c io) := by
  unfold notify
  cases isSet with
  | false => rfl
  | true =>
    simp only [if_true]
    rcases io.apps with _ | ⟨now, rest⟩
    · rfl
    · exact appCalls_onWidth w (c, { io with calls := io.calls ++ [call], apps := rest }) now

/-! ## The receiving half -/

theorem failWith_onWidth (code : Nat) (c : EventContext) (io : Io) :
    failWith code (c.onWidth w) io = (failWith code c io).map (onWidth w) := by
  unfold failWith
  rw [eventQueueCloseWrapper_onWidth]
  rfl

theorem recvNewFrame_onWidth (c : EventContext) (iocb : Iocb) :
    recvNewFrame (c.onWidth w) iocb =
      (recvNewFrame c iocb).map fun x => (x.1.onWidth w, x.2) := by
  have hset : ∀ m, (c.onWidth w).setImsg m = (c.setImsg m).onWidth w := setImsg_onWidth w c
  have hcur : (c.onWidth w).curImsg = c.curImsg := rfl
  have hlen : ((c.onWidth w).ipayloadlen = 0 ∧ (c.onWidth w).ipayloadoff = 0) =
    (c.ipayloadlen = 0 ∧ c.ipayloadoff = 0) := rfl
  unfold recvNewFrame
  simp only [hcur, hset, hlen]
  split_ifs
  · rfl
  · rfl
  · rfl
  · have hone : { c.onWidth w with imsg := .one } = EventContext.onWidth w { c with imsg := .one } :=
      rfl
    simp only [hone, setImsg_onWidth]
    rfl
  · rfl
  · rfl

theorem eventImsgAppendChunk_onWidth (c : EventContext) (m : EventImsg) (len : Nat) (io : Io)
    (hsize : (c.onWidth w).toSize (m.msgLength + len) = c.toSize (m.msgLength + len)) :
    eventImsgAppendChunk (c.onWidth w) m len io = eventImsgAppendChunk c m len io := by
  unfold eventImsgAppendChunk
  rw [hsize]

/-- A length that fits is not cut off. -/
theorem toSize_onWidth {c : EventContext} {n : Nat} (h64 : c.sizeBits = 64) (hw : w ≤ 64)
    (hn : n < 2 ^ w) : c.toSize n = n ∧ (c.onWidth w).toSize n = n := by
  have hpow : 2 ^ w ≤ 2 ^ 64 := Nat.pow_le_pow_right (by decide) hw
  constructor
  · rw [EventContext.toSize, h64]
    exact Nat.mod_eq_of_lt (by omega)
  · exact Nat.mod_eq_of_lt hn

/-- **The beginning of a frame**, whose length together with that of the message has
passed the test of the limit. -/
theorem recvBeginFrame_onWidth (hw : w ≤ 64) {c : EventContext} (h64 : c.sizeBits = 64)
    (hlimit : c.maxRecvMsgLength < 2 ^ w) {iocb : Iocb}
    (hsum : c.curImsg.msgLength + iocb.payloadLength < 2 ^ 64) (io : Io) :
    recvBeginFrame iocb (c.onWidth w) io = (recvBeginFrame iocb c io).map (onWidth w) := by
  have htest : ((c.onWidth w).maxRecvMsgLength <
      ((c.onWidth w).curImsg.msgLength + iocb.payloadLength) % 2 ^ 64) =
      (c.maxRecvMsgLength < (c.curImsg.msgLength + iocb.payloadLength) % 2 ^ 64) := rfl
  unfold recvBeginFrame
  simp only [htest]
  by_cases hbig : c.maxRecvMsgLength < (c.curImsg.msgLength + iocb.payloadLength) % 2 ^ 64
  · rw [if_pos hbig, if_pos hbig]
    exact failWith_onWidth w codeMessageTooBig c io
  · rw [if_neg hbig, if_neg hbig]
    rw [Nat.mod_eq_of_lt hsum] at hbig
    obtain ⟨call, hstart⟩ : ∃ call, Call.frameRecvStart iocb.fin iocb.rsv iocb.opcode
        iocb.payloadLength = call := ⟨_, rfl⟩
    obtain ⟨c₀, hc₀⟩ : ∃ c₀, { c with ipayloadlen := iocb.payloadLength } = c₀ := ⟨_, rfl⟩
    have hwide : { c.onWidth w with ipayloadlen := iocb.payloadLength } = c₀.onWidth w := by
      rw [← hc₀]
      rfl
    have htakes : c₀.callbacks.takes call = c.callbacks.onFrameRecvStart := by
      rw [← hc₀, ← hstart]
      rfl
    have hset : (c.onWidth w).callbacks.onFrameRecvStart = c.callbacks.onFrameRecvStart := rfl
    obtain ⟨hworks, hslots⟩ := notify_works c₀ call io
    rw [htakes] at hworks hslots
    rw [hset, hwide, hc₀, hstart, notify_onWidth]
    obtain ⟨c₁, io₁, hn⟩ : ∃ c₁ io₁, notify c.callbacks.onFrameRecvStart call c₀ io = (c₁, io₁) :=
      ⟨_, _, rfl⟩
    rw [hn] at hworks hslots ⊢
    have hwidth : c₁.sizeBits = 64 := by
      rw [← h64]
      refine (congrArg Prod.fst hworks.settings).trans ?_
      rw [← hc₀]
      rfl
    have hcur : c₁.curImsg = c.curImsg := by
      rw [← hc₀] at hslots
      simp only [EventContext.slots, Prod.mk.injEq] at hslots
      exact curImsg_congr hslots.1 hslots.2.1 hslots.2.2.1
    obtain ⟨hlen, hlen'⟩ := toSize_onWidth w (n := iocb.payloadLength) hwidth hw (by omega)
    obtain ⟨hmsg, hmsg'⟩ := toSize_onWidth w (n := c.curImsg.msgLength + iocb.payloadLength)
      hwidth hw (by omega)
    have happend := eventImsgAppendChunk_onWidth w c₁ c₁.curImsg iocb.payloadLength io₁
      (by rw [hcur, hmsg, hmsg'])
    have hbuf : isBuffered (c₁.onWidth w) iocb.opcode = isBuffered c₁ iocb.opcode := rfl
    simp only [onWidth, hbuf, hlen, hlen', curImsg_onWidth, happend]
    by_cases hkept : isBuffered c₁ iocb.opcode = true
    · simp only [if_pos hkept]
      rcases eventImsgAppendChunk c₁ c₁.curImsg iocb.payloadLength io₁ with ⟨r, m, io₂⟩
      by_cases hr : r ≠ 0
      · simp only [if_pos hr, setImsg_onWidth]
        rfl
      · simp only [if_neg hr, setImsg_onWidth]
        rfl
    · simp only [if_neg hkept]
      rfl

theorem recvCheckUtf8_onWidth (iocb : Iocb) (c : EventContext) (io : Io) :
    recvCheckUtf8 iocb (c.onWidth w) io = (recvCheckUtf8 iocb c io).map (onWidth w) := by
  unfold recvCheckUtf8
  simp only [curImsg_onWidth, setImsg_onWidth]
  by_cases htext : c.curImsg.opcode = textFrame ∨ c.curImsg.opcode = connectionClose
  · simp only [if_pos htext]
    obtain ⟨st, rejected, hscan⟩ : ∃ st rejected, utf8Scan c.curImsg.utf8state
        (iocb.data.drop (if c.curImsg.opcode = connectionClose then 2 else 0)) = (st, rejected) :=
      ⟨_, _, rfl⟩
    simp only [hscan]
    cases rejected with
    | true =>
      simp only [if_true]
      exact failWith_onWidth w _ _ io
    | false =>
      simp only [Bool.false_eq_true, if_false]
      by_cases hst : st = utf8Reject
      · simp only [if_pos hst]
        rfl
      · simp only [if_neg hst]
        rfl
  · simp only [if_neg htext]
    by_cases hst : c.curImsg.utf8state = utf8Reject
    · simp only [if_pos hst]
      rfl
    · simp only [if_neg hst]
      rfl

theorem recvStore_onWidth (iocb : Iocb) (c : EventContext) (io : Io) :
    recvStore iocb (c.onWidth w) io = onWidth w (recvStore iocb c io) := by
  have hset : (c.onWidth w).callbacks = c.callbacks := rfl
  unfold recvStore
  rw [hset, notify_onWidth]
  rcases notify c.callbacks.onFrameRecvChunk (.frameRecvChunk iocb.data) c io with ⟨c₁, io₁⟩
  have hbuf : isBuffered (c₁.onWidth w) iocb.opcode = isBuffered c₁ iocb.opcode := rfl
  simp only [onWidth, hbuf, curImsg_onWidth, setImsg_onWidth]
  by_cases hnil : iocb.data ≠ []
  · by_cases hkept : isBuffered c₁ iocb.opcode = true
    · simp only [if_pos hnil, if_pos hkept]
      rfl
    · simp only [if_pos hnil, if_neg hkept]
      rfl
  · simp only [if_neg hnil]

theorem recvFlatten_onWidth (iocb : Iocb) (c : EventContext) (io : Io) :
    recvFlatten iocb (c.onWidth w) io = returnOn w (recvFlatten iocb c io) := by
  have hbuf : isBuffered (c.onWidth w) iocb.opcode = isBuffered c iocb.opcode := rfl
  unfold recvFlatten
  simp only [hbuf, curImsg_onWidth]
  by_cases hkept : isBuffered c iocb.opcode = true
  · simp only [if_pos hkept]
    rcases eventFlattenQueue c.curImsg.chunks c.curImsg.msgLength io with ⟨msg, chunks, io₁⟩
    simp only [setImsg_onWidth, curImsg_onWidth]
    by_cases hnone : (c.setImsg { c.curImsg with chunks := chunks }).curImsg.msgLength ≠ 0 ∧
        msg = none
    · rw [if_pos hnone, if_pos hnone]
      rfl
    · rw [if_neg hnone, if_neg hnone]
      rfl
  · simp only [if_neg hkept]
    rfl

theorem recvClose_onWidth (msg : List UInt8) (c : EventContext) (io : Io) :
    recvClose msg (c.onWidth w) io = (recvClose msg c io).map (onWidth w) := by
  unfold recvClose
  simp only [curImsg_onWidth]
  by_cases hbad : 2 ≤ c.curImsg.msgLength ∧ (!eventIsValidStatusCode (beVal (msg.take 2))) = true
  · simp only [if_pos hbad]
    exact failWith_onWidth w codeProtocolError c io
  · simp only [if_neg hbad]
    obtain ⟨code, hcode⟩ : ∃ code, (if 2 ≤ c.curImsg.msgLength then beVal (msg.take 2) else 0) =
        code := ⟨_, rfl⟩
    obtain ⟨reason, hreason⟩ : ∃ reason, (if 2 ≤ c.curImsg.msgLength then msg.drop 2 else []) =
        reason := ⟨_, rfl⟩
    simp only [hcode, hreason]
    have hnoted : { c.onWidth w with
        closeStatus := { (c.onWidth w).closeStatus with received := true }
        statusCodeRecv := if code = 0 then codeNoStatusRcvd else code } =
        EventContext.onWidth w { c with
          closeStatus := { c.closeStatus with received := true }
          statusCodeRecv := if code = 0 then codeNoStatusRcvd else code } := rfl
    simp only [hnoted, eventQueueCloseWrapper_onWidth]
    obtain ⟨r, c', io', heq⟩ : ∃ r c' io', eventQueueCloseWrapper { c with
        closeStatus := { c.closeStatus with received := true }
        statusCodeRecv := if code = 0 then codeNoStatusRcvd else code }
        (UInt16.ofNat code) reason io = (r, c', io') := ⟨_, _, _, rfl⟩
    simp only [heq, returnOn, onWidth]
    by_cases hr : r ≠ 0
    · simp only [if_pos hr]
      rfl
    · simp only [if_neg hr]
      rfl

theorem recvPing_onWidth (msg : List UInt8) (c : EventContext) (io : Io) :
    recvPing msg (c.onWidth w) io = (recvPing msg c io).map (onWidth w) := by
  unfold recvPing
  rw [eventQueueMsg_onWidth]
  obtain ⟨r, c', io', heq⟩ : ∃ r c' io', eventQueueMsg c ⟨pong, msg⟩ io = (r, c', io') :=
    ⟨_, _, _, rfl⟩
  simp only [heq, returnOn, onWidth]
  by_cases hr : r ≠ 0 ∧ r ≠ Err.noMoreMsg.code
  · simp only [if_pos hr]
    rfl
  · simp only [if_neg hr]
    rfl

theorem recvMessage_onWidth (iocb : Iocb) (c : EventContext) (io : Io) :
    recvMessage iocb (c.onWidth w) io = (recvMessage iocb c io).map (onWidth w) := by
  have hset : (c.onWidth w).callbacks = c.callbacks := rfl
  unfold recvMessage
  simp only [curImsg_onWidth, hset, recvFlatten_onWidth]
  by_cases hwanted : (c.callbacks.onMsgRecv || c.curImsg.opcode == connectionClose ||
      c.curImsg.opcode == ping) = true
  · simp only [if_pos hwanted]
    rcases recvFlatten iocb c io with ⟨_ | msg, c₁, io₁⟩
    · rfl
    · simp only [returnOn, onWidth, curImsg_onWidth]
      have hreply : (if c₁.curImsg.opcode = connectionClose then recvClose msg (c₁.onWidth w) io₁
          else if c₁.curImsg.opcode = ping then recvPing msg (c₁.onWidth w) io₁
          else .again (c₁.onWidth w, io₁)) =
          (if c₁.curImsg.opcode = connectionClose then recvClose msg c₁ io₁
          else if c₁.curImsg.opcode = ping then recvPing msg c₁ io₁
          else .again (c₁, io₁)).map (onWidth w) := by
        split_ifs
        · exact recvClose_onWidth w msg c₁ io₁
        · exact recvPing_onWidth w msg c₁ io₁
        · rfl
      rw [hreply]
      refine Step.map_andThen fun s _ => ?_
      have hset' : (onWidth w s).1.callbacks = s.1.callbacks := rfl
      have hcode : recvStatusCode (onWidth w s).1 msg = recvStatusCode s.1 msg := rfl
      have hcur : (onWidth w s).1.curImsg = s.1.curImsg := rfl
      simp only [hset', hcode, hcur]
      by_cases hcb : s.1.callbacks.onMsgRecv = true
      · simp only [if_pos hcb]
        exact congrArg Step.again (notify_onWidth w true _ s.1 { s.2 with error := 0 })
      · simp only [if_neg hcb]
        rfl
  · simp only [if_neg hwanted]
    rfl

theorem recvReset_onWidth (c : EventContext) :
    recvReset (c.onWidth w) = (recvReset c).onWidth w := by
  unfold recvReset
  rw [curImsg_onWidth, setImsg_onWidth]
  rfl

theorem recvComplete_onWidth (iocb : Iocb) (c : EventContext) (io : Io) :
    recvComplete iocb (c.onWidth w) io = (recvComplete iocb c io).map (onWidth w) := by
  have hset : (c.onWidth w).callbacks = c.callbacks := rfl
  have hends : ((c.onWidth w).ipayloadoff = (c.onWidth w).ipayloadlen) =
    (c.ipayloadoff = c.ipayloadlen) := rfl
  unfold recvComplete
  simp only [hends, hset, curImsg_onWidth]
  by_cases hend : c.ipayloadoff = c.ipayloadlen
  · simp only [if_pos hend]
    by_cases hbad : c.curImsg.fin ≠ 0 ∧
        (c.curImsg.opcode = textFrame ∨ c.curImsg.opcode = connectionClose) ∧
        c.curImsg.utf8state ≠ utf8Accept
    · simp only [if_pos hbad]
      exact failWith_onWidth w _ c io
    · simp only [if_neg hbad, notify_onWidth]
      obtain ⟨c₁, io₁, hn⟩ : ∃ c₁ io₁, notify c.callbacks.onFrameRecvEnd .frameRecvEnd c io =
        (c₁, io₁) := ⟨_, _, rfl⟩
      simp only [hn, onWidth, curImsg_onWidth]
      have hmsg : (if c₁.curImsg.fin ≠ 0 then
            (recvMessage iocb (c₁.onWidth w) io₁).andThen fun s => .again (recvReset s.1, s.2)
          else .again (c₁.onWidth w, io₁)) =
          (if c₁.curImsg.fin ≠ 0 then
            (recvMessage iocb c₁ io₁).andThen fun s => .again (recvReset s.1, s.2)
          else .again (c₁, io₁)).map (onWidth w) := by
        by_cases hfin : c₁.curImsg.fin ≠ 0
        · rw [if_pos hfin, if_pos hfin, recvMessage_onWidth]
          refine Step.map_andThen fun s _ => ?_
          exact congrArg (fun c => Step.again (c, s.2)) (recvReset_onWidth w s.1)
        · rw [if_neg hfin, if_neg hfin]
          rfl
      rw [hmsg]
      exact Step.map_andThen fun s _ => rfl
  · simp only [if_neg hend]
    rfl

theorem recvFrameError_onWidth (e : Err) (c : EventContext) (io : Io) :
    recvFrameError e (c.onWidth w) io = (recvFrameError e c io).map (onWidth w) := by
  unfold recvFrameError
  by_cases hbad : e ≠ .wantRead ∨ (io.error ≠ Err.wouldblock.code ∧ io.error ≠ 0)
  · simp only [if_pos hbad, eventQueueCloseWrapper_onWidth]
    obtain ⟨r, c', io', heq⟩ : ∃ r c' io', eventQueueCloseWrapper c 0 [] io = (r, c', io') :=
      ⟨_, _, _, rfl⟩
    simp only [heq, returnOn, onWidth]
    by_cases hr : r ≠ 0
    · simp only [if_pos hr]
      rfl
    · simp only [if_neg hr]
      rfl
  · simp only [if_neg hbad]
    rfl

/-! ## A pass -/

end

section

variable {w : Nat} {cfg : RxConfig}

/-- What is measured leaves room for one more frame. -/
theorem Models.room {c c' : EventContext} {rx : Rx} (hm : Models cfg c rx)
    (hmeasured : rx.Measured cfg) (hlimit : cfg.limit < 2 ^ 63) {h : Header} {data : List UInt8}
    (hexpects : rx.Expects h data) (hv : h.Valid) (hrsv : h.rsv = 0)
    (hnew : recvNewFrame c (h.iocb data) = some (c', true)) :
    Configured cfg c' ∧ c'.curImsg.msgLength + (h.iocb data).payloadLength < 2 ^ 64 := by
  obtain ⟨hs, hstate⟩ := hm
  cases hf : rx.frame with
  | some f =>
    simp only [Rx.Expects, hf] at hexpects hstate
    obtain ⟨rfl, -⟩ := hexpects
    obtain ⟨hi, hpos, -⟩ := hstate
    rw [recvNewFrame_inside hi hpos data] at hnew
    cases hnew
  | none =>
    simp only [hf] at hstate
    have hbetween := recvNewFrame_between hstate hrsv data
    cases hb : belongs rx.waiting h.opcode with
    | none =>
      rw [hb] at hbetween
      rw [hbetween] at hnew
      cases hnew
    | some x =>
      obtain ⟨k, rest⟩ := x
      rw [hb] at hbetween
      obtain ⟨c'', heq, hw, ho⟩ := hbetween
      rw [heq] at hnew
      cases hnew
      have hk := (hmeasured.bounded.of_belongs hb).1
      have hlen := hv.1
      have hsum : k.length + h.length < 2 ^ 64 := by omega
      refine ⟨hs.congr (hw {}).settings, ?_⟩
      rw [ho.bears.length]
      exact hsum

theorem recvUntilCopy_onWidth (hw : w ≤ 64) (hlimit : cfg.limit < 2 ^ w)
    (hsmall : cfg.limit < 2 ^ 63) {c : EventContext} {rx : Rx} (hm : Models cfg c rx)
    (hmeasured : rx.Measured cfg) {h : Header} {data : List UInt8} (hexpects : rx.Expects h data)
    (hv : h.Valid) (io : Io) :
    recvUntilCopy (h.iocb data) (c.onWidth w) io =
      (recvUntilCopy (h.iocb data) c io).map (onWidth w) := by
  have hbits : badFrameBits (c.onWidth w) (h.iocb data) = badFrameBits c (h.iocb data) := rfl
  unfold recvUntilCopy
  rw [hbits]
  by_cases hbad : badFrameBits c (h.iocb data) = true
  · rw [if_pos hbad, if_pos hbad]
    exact failWith_onWidth w codeProtocolError c io
  · rw [if_neg hbad, if_neg hbad, recvNewFrame_onWidth]
    have hrsv : h.rsv = 0 := by
      by_contra hne
      exact hbad ((badFrameBits_iff hm.settings h data).2 (Or.inl hne))
    cases hnew : recvNewFrame c (h.iocb data) with
    | none => exact failWith_onWidth w codeProtocolError c io
    | some x =>
      obtain ⟨c', newFrame⟩ := x
      have hbegin : (if newFrame then recvBeginFrame (h.iocb data) (c'.onWidth w) io
          else .again (c'.onWidth w, io)) =
          (if newFrame then recvBeginFrame (h.iocb data) c' io else .again (c', io)).map
            (onWidth w) := by
        cases newFrame with
        | false => rfl
        | true =>
          obtain ⟨hs, hsum⟩ := hm.room hmeasured hsmall hexpects hv hrsv hnew
          exact recvBeginFrame_onWidth w hw hs.sizeBits (hs.limit ▸ hlimit) hsum io
      simp only [Option.map_some, hbegin]
      exact Step.map_andThen fun s _ => recvCheckUtf8_onWidth w (h.iocb data) s.1 s.2

/-- **A pass does not depend on the width** as long as messages are measured. -/
theorem recvPass_onWidth (hw : w ≤ 64) (hlimit : cfg.limit < 2 ^ w) (hsmall : cfg.limit < 2 ^ 63)
    {s : EventContext × Io} (hs : Measures cfg s) :
    recvPass (onWidth w s) = (recvPass s).map (onWidth w) := by
  have hon' : (onWidth w s).1.readEnabled = s.1.readEnabled := rfl
  have hcall' : frameRecv (onWidth w s).1.frameCtx (onWidth w s).2 =
    frameRecv s.1.frameCtx s.2 := rfl
  unfold recvPass
  rw [hon', hcall']
  cases hon : s.1.readEnabled with
  | false => rfl
  | true =>
    obtain ⟨rx, d, look, hl, hm⟩ := hs hon
    simp only [if_true]
    obtain ⟨r, f, io, hcall⟩ : ∃ r f io, frameRecv s.1.frameCtx s.2 = (r, f, io) := ⟨_, _, _, rfl⟩
    rw [hcall]
    have hfed : { (onWidth w s).1 with frameCtx := f } =
        EventContext.onWidth w { s.1 with frameCtx := f } := rfl
    cases r with
    | error e => exact recvFrameError_onWidth w e { s.1 with frameCtx := f } io
    | ok iocb =>
      obtain ⟨h, data, rfl, hexpects, hsuits⟩ := hl.given hcall
      have hmodels : Models cfg { s.1 with frameCtx := f } rx := hl.models.congr rfl rfl
      have hcopy := recvUntilCopy_onWidth hw hlimit hsmall hmodels hm hexpects hsuits.1 io
      simp only [hfed, recvPiece_eq, hcopy]
      refine Step.map_andThen fun t _ => ?_
      have hstore : recvStore (h.iocb data) (onWidth w t).1 (onWidth w t).2 =
          onWidth w (recvStore (h.iocb data) t.1 t.2) := recvStore_onWidth w (h.iocb data) t.1 t.2
      rw [hstore]
      exact recvComplete_onWidth w _ _ _

/-- What is stored where `size_t` is narrow is stored where it is wide. -/
theorem Deposits.of_onWidth (hw : w ≤ 64) (hlimit : cfg.limit < 2 ^ w) (hsmall : cfg.limit < 2 ^ 63)
    {s t : EventContext × Io} (hs : Measures cfg s) {iocb : Iocb}
    (ht : Deposits (onWidth w s) iocb t) : ∃ u, Deposits s iocb u ∧ t = onWidth w u := by
  obtain ⟨hon, f, io, hcall, hcopy⟩ := ht
  have hon' : s.1.readEnabled = true := hon
  have hcall' : frameRecv s.1.frameCtx s.2 = (.ok iocb, f, io) := hcall
  obtain ⟨rx, d, look, hl, hm⟩ := hs hon'
  obtain ⟨h, data, rfl, hexpects, hsuits⟩ := hl.given hcall'
  have hmodels : Models cfg { s.1 with frameCtx := f } rx := hl.models.congr rfl rfl
  have heq := recvUntilCopy_onWidth hw hlimit hsmall hmodels hm hexpects hsuits.1 io
  change recvUntilCopy (h.iocb data) (EventContext.onWidth w { s.1 with frameCtx := f }) io =
    .again t at hcopy
  rw [heq] at hcopy
  cases hu : recvUntilCopy (h.iocb data) { s.1 with frameCtx := f } io with
  | leave r u =>
    rw [hu] at hcopy
    cases hcopy
  | again u =>
    rw [hu] at hcopy
    cases hcopy
    exact ⟨u, ⟨hon', f, io, hcall', hu⟩, rfl⟩

/-! ## A run -/

/-- **`wslay_event_recv` does not depend on the width.** -/
theorem eventRecv_onWidth (hw : w ≤ 64) (hlimit : cfg.limit < 2 ^ w) (hsmall : cfg.limit < 2 ^ 63)
    {s : EventContext × Io} (hs : Measures cfg s) :
    eventRecv (onWidth w s).1 (onWidth w s).2 = returnOn w (eventRecv s.1 s.2) := by
  have hfuel : recvFuel (onWidth w s).1 (onWidth w s).2 = recvFuel s.1 s.2 := rfl
  have hrun := Loop.run_map (P := Measures cfg)
    (fun t ht => recvPass_onWidth hw hlimit hsmall ht)
    (fun t u ht heq => by
      have hall := recvPass_measures ht
      rw [heq] at hall
      exact hall) (n := recvFuel s.1 s.2) hs
  unfold eventRecv
  rw [hfuel]
  change (Loop.run recvPass (recvFuel s.1 s.2) (onWidth w s)).getD _ = _
  rw [hrun, eventRecv_run hs.hears]
  rfl

theorem step_onWidth (hw : w ≤ 64) (hlimit : cfg.limit < 2 ^ w) (hsmall : cfg.limit < 2 ^ 63)
    {s : EventContext × Io} (hs : Measures cfg s) (op : Op) :
    step (onWidth w s) op = returnOn w (step s op) := by
  cases op with
  | call a => exact appCall_onWidth w s.1 s.2 a
  | recv => exact eventRecv_onWidth hw hlimit hsmall hs

theorem runOps_onWidth (hw : w ≤ 64) (hlimit : cfg.limit < 2 ^ w) (hsmall : cfg.limit < 2 ^ 63)
    {s : EventContext × Io} (hs : Measures cfg s) (ops : List Op) :
    runOps (onWidth w s) ops = onWidth w (runOps s ops) := by
  induction ops generalizing s with
  | nil => rfl
  | cons op ops ih =>
    have hstep := step_onWidth hw hlimit hsmall hs op
    have hnext : Measures cfg (step s op).2 := runOps_measures hs [op]
    change runOps (step (onWidth w s) op).2 ops = _
    rw [hstep]
    exact ih hnext

end

/-! ## The results -/

/-- **The platforms agree.**  Where `size_t` is narrower than 64 bits but wide enough for
the limit, every run goes as it does where `size_t` has 64 bits: each call has the same
result, and the contexts and the outside world are the same. -/
theorem narrow_agrees {w limit : Nat} (hw : w < 64) (hlimit : limit < 2 ^ w) (server : Bool)
    (callbacks : EventCallbacks) (noBuffering : Bool) (io : Io) (ops : List Op) :
    let s := (configured server callbacks noBuffering limit, io)
    runOps (onWidth w s) ops = onWidth w (runOps s ops) ∧
      ∀ op, step (runOps (onWidth w s) ops) op = returnOn w (step (runOps s ops) op) := by
  intro s
  have hpow : 2 ^ w ≤ 2 ^ 63 := Nat.pow_le_pow_right (by decide) (by omega)
  have hs := configured_measures server callbacks noBuffering limit io
  have hlimit' : (RxConfig.of server callbacks noBuffering limit).limit < 2 ^ w := hlimit
  have hsmall : (RxConfig.of server callbacks noBuffering limit).limit < 2 ^ 63 := by omega
  have hrun := runOps_onWidth (Nat.le_of_lt hw) hlimit' hsmall hs ops
  refine ⟨hrun, fun op => ?_⟩
  rw [hrun]
  exact step_onWidth (Nat.le_of_lt hw) hlimit' hsmall (runOps_measures hs ops) op

/-- A binary message of two octets, and what a client reads of it. -/
def shortMessage : EventContext × Io :=
  (configured false ⟨true, true, true, true⟩ false 100, { recvs := [.data [0x82, 0x02, 7, 8]] })

/-- A client with 32 bits delivers the message as one with 64 bits. -/
theorem narrow_agrees_shortMessage :
    runOps (onWidth 32 shortMessage) [.recv] = onWidth 32 (runOps shortMessage [.recv]) :=
  (narrow_agrees (by decide) (by decide) false ⟨true, true, true, true⟩ false
    { recvs := [.data [0x82, 0x02, 7, 8]] } [.recv]).1

/-- **Stored payload stays in its chunk**, and no octet of a message is made up.  In
every run, wherever allocations fail and whatever the application does: when a piece is
copied its chunk is there, is as long as the payload of the frame, is filled up to the
offset and has room for the piece; and when a frame is complete all chunks of the message
are full and have its length between them. -/
theorem payload_stays_in_chunk {w limit : Nat} (hw : w ≤ 64) (hlimit : limit < 2 ^ w)
    (server : Bool) (callbacks : EventCallbacks) (noBuffering : Bool) (io : Io) (ops : List Op)
    {t u : EventContext × Io} {iocb : Iocb}
    (ht : Loop.Reaches recvPass
      (runOps (onWidth w (configured server callbacks noBuffering limit, io)) ops) t)
    (hu : Deposits t iocb u) :
    CopyFits iocb (atCopy iocb u).1 ∧
      (limit < 2 ^ 63 → ChunksFull iocb (recvStore iocb u.1 u.2).1) := by
  have hs := runOps_measures (configured_measures server callbacks noBuffering limit io) ops
  by_cases hwide : w = 64
  · subst hwide
    exact hu.fits (reaches_measures hs ht)
  · have hpow : 2 ^ w ≤ 2 ^ 63 := Nat.pow_le_pow_right (by decide) (by omega)
    have hlimit' : (RxConfig.of server callbacks noBuffering limit).limit < 2 ^ w := hlimit
    have hsmall : (RxConfig.of server callbacks noBuffering limit).limit < 2 ^ 63 := by omega
    rw [runOps_onWidth hw hlimit' hsmall (configured_measures server callbacks noBuffering limit io)]
      at ht
    -- the pass is the image of one where `size_t` has 64 bits
    obtain ⟨t, -, hmeasures, rfl⟩ := Loop.Reaches.of_map (P := Measures _)
      (fun s hs => recvPass_onWidth hw hlimit' hsmall hs)
      (fun s s' hs heq => by
        have hall := recvPass_measures hs
        rw [heq] at hall
        exact hall) hs ht
    obtain ⟨u, hu', rfl⟩ := hu.of_onWidth hw hlimit' hsmall hmeasures
    obtain ⟨hfits, hfull⟩ := hu'.fits hmeasures
    have hcopy : atCopy iocb (onWidth w u) = onWidth w (atCopy iocb u) := notify_onWidth w _ _ _ _
    have hstore : recvStore iocb (onWidth w u).1 (onWidth w u).2 =
      onWidth w (recvStore iocb u.1 u.2) := recvStore_onWidth w iocb u.1 u.2
    rw [hcopy, hstore]
    exact ⟨hfits, hfull⟩

/-- The two octets of the message go into a chunk of two octets. -/
theorem payload_stays_in_chunk_shortMessage :
    ∃ u, Deposits (onWidth 32 shortMessage) ⟨1, 0, 2, 2, false, [7, 8]⟩ u ∧
      CopyFits ⟨1, 0, 2, 2, false, [7, 8]⟩ (atCopy ⟨1, 0, 2, 2, false, [7, 8]⟩ u).1 := by
  have hu : ∃ u, Deposits (onWidth 32 shortMessage) ⟨1, 0, 2, 2, false, [7, 8]⟩ u :=
    ⟨_, rfl, _, _, rfl, rfl⟩
  obtain ⟨u, hu⟩ := hu
  exact ⟨u, hu, (payload_stays_in_chunk (w := 32) (by decide) (by decide) false
    ⟨true, true, true, true⟩ false { recvs := [.data [0x82, 0x02, 7, 8]] } [] .refl hu).1⟩

/-- With the limit of a new context, which a `size_t` of 32 bits cannot hold, a frame of
`2 ^ 32 + 1` octets gets a chunk of one octet, and the second is written behind it. -/
example :
    (runOps (onWidth 32 (configured false ⟨true, true, true, true⟩ false (2 ^ 64 - 1),
      { recvs := [.data [0x82, 0x7f, 0, 0, 0, 1, 0, 0, 0, 1, 7, 8]] })) [.recv]).1.imsgs0.chunks.cells =
      [⟨[7, 8], 1⟩] := by
  decide +kernel

end Wslay
