import Wslay.Event.RecvLoop

/-!
# The exits of the loop of `wslay_event_recv`

Whatever goes wrong with a piece of a frame, the loop is left in a state in which
reading is over, and the result is one of this library's own.

* `ClosesReading` — what every exit has in common.
* `recvPiece_exits` — the exits of the loop body, one block after the other.
* `recvPass_exits` — the exits of a pass.
-/

namespace Wslay

open Loop (Step)
open Loop.Step (exits_again exits_leave)

/-- A result other than 0 means that reading is over, and it is not
`WSLAY_ERR_CALLBACK_FAILURE`. -/
def ClosesReading (r : Int) (s : EventContext × Io) : Prop :=
  r ≠ Err.callbackFailure.code ∧ (r ≠ 0 → s.1.readEnabled = false)

theorem ClosesReading.zero (s : EventContext × Io) : ClosesReading 0 s :=
  ⟨by decide, fun h => absurd rfl h⟩

/-! ## The results of queueing a reply -/

theorem eventQueueMsg_result (c : EventContext) (arg : EventMsg) (io : Io) :
    (eventQueueMsg c arg io).1 ≠ Err.callbackFailure.code := by
  unfold eventQueueMsg eventOmsgNonFragmentedNew
  by_cases hq : (!eventIsMsgQueueable c) = true
  · rw [if_pos hq]
    simp [Err.code]
  · rw [if_neg hq]
    by_cases hlong : (isCtrlFrame arg.opcode && decide (125 < arg.msg.length)) = true
    · rw [if_pos hlong]
      simp [Err.code]
    · rw [if_neg hlong]
      -- the allocations, one after the other
      rcases io.malloc with ⟨_ | _, io₁⟩
      · simp [Err.code]
      · by_cases hnil : arg.msg = []
        · simp only [if_pos hnil]
          rcases io₁.malloc with ⟨_ | _, io₂⟩ <;> simp [Err.code]
        · simp only [if_neg hnil]
          rcases io₁.malloc with ⟨_ | _, io₂⟩
          · simp [Err.code]
          · simp only
            rcases io₂.malloc with ⟨_ | _, io₃⟩ <;> simp [Err.code]

theorem eventQueueCloseWrapper_result (c : EventContext) (code : UInt16) (reason : List UInt8)
    (io : Io) : (eventQueueCloseWrapper c code reason io).1 ≠ Err.callbackFailure.code := by
  have hclose : ∀ c, (eventQueueClose c code reason io).1 ≠ Err.callbackFailure.code := by
    intro c
    unfold eventQueueClose
    split_ifs
    · simp [Err.code]
    · simp [Err.code]
    · have hmsg := eventQueueMsg_result c ⟨connectionClose, closeBody code reason⟩ io
      obtain ⟨r, c', io', heq⟩ : ∃ r c' io', eventQueueMsg c
          ⟨connectionClose, closeBody code reason⟩ io = (r, c', io') := ⟨_, _, _, rfl⟩
      simp only [heq] at hmsg ⊢
      split_ifs <;> exact hmsg
  have h := hclose { c with readEnabled := false }
  unfold eventQueueCloseWrapper
  obtain ⟨r, c', io', heq⟩ : ∃ r c' io', eventQueueClose { c with readEnabled := false } code
      reason io = (r, c', io') := ⟨_, _, _, rfl⟩
  rw [heq] at h ⊢
  simp only
  split_ifs
  · exact h
  · simp [Err.code]

/-- Queueing a Close from the loop disables reading, whatever comes of it. -/
theorem closeWrapper_exits (c : EventContext) (code : UInt16) (reason : List UInt8) (io : Io) :
    ClosesReading (eventQueueCloseWrapper c code reason io).1
      (eventQueueCloseWrapper c code reason io).2 :=
  ⟨eventQueueCloseWrapper_result c code reason io,
    fun _ => (eventQueueCloseWrapper_spares c code reason io).2⟩

/-! ## The blocks of the loop body -/

theorem failWith_exits (code : Nat) (c : EventContext) (io : Io) :
    (failWith code c io).Exits ClosesReading := by
  unfold failWith
  exact exits_leave (closeWrapper_exits c (UInt16.ofNat code) [] io)

theorem recvBeginFrame_exits (iocb : Iocb) (c : EventContext) (io : Io) :
    (recvBeginFrame iocb c io).Exits ClosesReading := by
  unfold recvBeginFrame
  split_ifs
  · exact failWith_exits _ _ _
  · simp only
    split_ifs
    · exact exits_leave ⟨by decide, fun _ => rfl⟩
    · exact exits_again _ _
    · exact exits_again _ _

theorem recvCheckUtf8_exits (iocb : Iocb) (c : EventContext) (io : Io) :
    (recvCheckUtf8 iocb c io).Exits ClosesReading := by
  unfold recvCheckUtf8
  simp only
  split_ifs
  · exact failWith_exits _ _ _
  · exact exits_leave (.zero _)
  · exact exits_again _ _
  · exact failWith_exits _ _ _
  · exact exits_leave (.zero _)
  · exact exits_again _ _
  · exact exits_leave (.zero _)
  · exact exits_again _ _

theorem recvClose_exits (msg : List UInt8) (c : EventContext) (io : Io) :
    (recvClose msg c io).Exits ClosesReading := by
  have hreply : ∀ x : Int × EventContext × Io, ClosesReading x.1 x.2 →
      Step.Exits ClosesReading (if x.1 ≠ 0 then .leave x.1 x.2 else .again x.2) := by
    rintro ⟨r, c', io'⟩ hr
    split_ifs
    · exact exits_leave hr
    · exact exits_again _ _
  unfold recvClose
  by_cases hbad : 2 ≤ c.curImsg.msgLength ∧
      (!eventIsValidStatusCode (Octets.beVal (msg.take 2))) = true
  · rw [if_pos hbad]
    exact failWith_exits _ _ _
  · rw [if_neg hbad]
    exact hreply _ (closeWrapper_exits _ _ _ _)

theorem recvPing_exits (msg : List UInt8) (c : EventContext) (io : Io) :
    (recvPing msg c io).Exits ClosesReading := by
  have h := eventQueueMsg_result c ⟨pong, msg⟩ io
  unfold recvPing
  simp only
  split_ifs
  · exact exits_leave ⟨h, fun _ => rfl⟩
  · exact exits_again _ _

/-- When the chunks cannot be put together reading is over. -/
theorem recvFlatten_none {iocb : Iocb} {c c' : EventContext} {io io' : Io}
    (h : recvFlatten iocb c io = (none, c', io')) : c'.readEnabled = false := by
  unfold recvFlatten at h
  by_cases hbuf : isBuffered c iocb.opcode = true
  · rw [if_pos hbuf] at h
    simp only at h
    split_ifs at h
    · simp only [Prod.mk.injEq, true_and] at h
      rw [← h.1]
    · simp at h
  · rw [if_neg hbuf] at h
    simp at h

theorem recvMessage_exits (iocb : Iocb) (c : EventContext) (io : Io) :
    (recvMessage iocb c io).Exits ClosesReading := by
  unfold recvMessage
  by_cases hwanted : (c.callbacks.onMsgRecv || c.curImsg.opcode == connectionClose ||
      c.curImsg.opcode == ping) = true
  · rw [if_pos hwanted]
    obtain ⟨msg, c₁, io₁, heq⟩ : ∃ msg c₁ io₁, recvFlatten iocb c io = (msg, c₁, io₁) :=
      ⟨_, _, _, rfl⟩
    rw [heq]
    cases msg with
    | none => exact exits_leave ⟨by decide, fun _ => recvFlatten_none heq⟩
    | some msg =>
      refine Step.Exits.andThen ?_ fun s => ?_
      · split_ifs
        · exact recvClose_exits msg _ _
        · exact recvPing_exits msg _ _
        · exact exits_again _ _
      · split_ifs <;> exact exits_again _ _
  · rw [if_neg hwanted]
    exact exits_again _ _

theorem recvComplete_exits (iocb : Iocb) (c : EventContext) (io : Io) :
    (recvComplete iocb c io).Exits ClosesReading := by
  unfold recvComplete
  split_ifs
  · exact failWith_exits _ _ _
  · simp only
    refine Step.Exits.andThen ?_ fun _ => exits_again _ _
    split_ifs
    · exact (recvMessage_exits iocb _ _).andThen fun _ => exits_again _ _
    · exact exits_again _ _
  · exact exits_again _ _

/-- Whatever goes wrong with a piece, it is not called a callback failure, and
nothing is read any more after an error. -/
theorem recvPiece_exits (iocb : Iocb) (c : EventContext) (io : Io) :
    (recvPiece iocb c io).Exits ClosesReading := by
  unfold recvPiece
  split_ifs
  · exact failWith_exits _ _ _
  · cases recvNewFrame c iocb with
    | none => exact failWith_exits _ _ _
    | some x =>
      simp only
      refine Step.Exits.andThen ?_ fun s => (recvCheckUtf8_exits iocb s.1 s.2).andThen
        fun s => recvComplete_exits iocb _ _
      split_ifs
      · exact recvBeginFrame_exits iocb _ _
      · exact exits_again _ _

/-! ## A pass -/

theorem recvFrameError_exits (e : Err) (c : EventContext) (io : Io) :
    (recvFrameError e c io).Exits fun r s => r ≠ 0 → s.1.readEnabled = false := by
  have hoff := (eventQueueCloseWrapper_spares c 0 [] io).2
  unfold recvFrameError
  split_ifs
  · simp only
    split_ifs <;> exact exits_leave fun _ => hoff
  · exact exits_leave fun h => absurd rfl h

/-- A pass that leaves the loop with an error leaves reading disabled. -/
theorem recvPass_exits (s : EventContext × Io) :
    (recvPass s).Exits fun r s => r ≠ 0 → s.1.readEnabled = false := by
  unfold recvPass
  split_ifs
  · obtain ⟨r, f, io, heq⟩ : ∃ r f io, frameRecv s.1.frameCtx s.2 = (r, f, io) := ⟨_, _, _, rfl⟩
    rw [heq]
    cases r with
    | error e => exact recvFrameError_exits e _ _
    | ok iocb => exact fun r t ht => (recvPiece_exits iocb _ _ r t ht).2
  · exact exits_leave fun h => absurd rfl h

end Wslay
