import Wslay.Event.Context

/-!
# Queueing messages

The queueing functions of `src/wslay/event.c`, and the small functions an
application may call at any time.
-/

namespace Wslay

open Octets (beBytes)

/-- `wslay_event_omsg_non_fragmented_new`. -/
def eventOmsgNonFragmentedNew (opcode : UInt8) (msg : List UInt8) (io : Io) :
    Option EventOmsg × Io :=
  let omsg : EventOmsg := ⟨1, opcode, .nonFragmented, msg, []⟩
  match io.malloc with
  | (false, io) => (none, io)
  | (true, io) =>
    if msg = [] then (some omsg, io)
    else
      match io.malloc with
      | (false, io) => (none, io)
      | (true, io) => (some omsg, io)

/-- `wslay_event_omsg_fragmented_new`. -/
def eventOmsgFragmentedNew (opcode : UInt8) (source : List ReadResult) (io : Io) :
    Option EventOmsg × Io :=
  match io.malloc with
  | (false, io) => (none, io)
  | (true, io) => (some ⟨0, opcode, .fragmented, [], source⟩, io)

/-- `wslay_event_is_msg_queueable`. -/
def eventIsMsgQueueable (c : EventContext) : Bool := c.writeEnabled && !c.closeStatus.queued

/-- `wslay_event_queue_msg`. -/
def eventQueueMsg (c : EventContext) (arg : EventMsg) (io : Io) : Int × EventContext × Io :=
  if !eventIsMsgQueueable c then (Err.noMoreMsg.code, c, io)
  else if isCtrlFrame arg.opcode && decide (125 < arg.msg.length) then
    (Err.invalidArgument.code, c, io)
  else
    match eventOmsgNonFragmentedNew arg.opcode arg.msg io with
    | (none, io) => (-1, c, io)
    | (some omsg, io) =>
      match io.malloc with
      | (false, io) => (1, c, io)
      | (true, io) =>
        let c :=
          if isCtrlFrame arg.opcode then { c with sendCtrlQueue := c.sendCtrlQueue ++ [omsg] }
          else { c with sendQueue := c.sendQueue ++ [omsg] }
        (0, { c with queuedMsgCount := c.queuedMsgCount + 1,
                     queuedMsgLength := c.queuedMsgLength + arg.msg.length }, io.noteQueued (.msg arg))

/-- `wslay_event_queue_fragmented_msg`. -/
def eventQueueFragmentedMsg (c : EventContext) (arg : EventFragmentedMsg) (io : Io) :
    Int × EventContext × Io :=
  if !eventIsMsgQueueable c then (Err.noMoreMsg.code, c, io)
  else if isCtrlFrame arg.opcode then (Err.invalidArgument.code, c, io)
  else
    match eventOmsgFragmentedNew arg.opcode arg.source io with
    | (none, io) => (-1, c, io)
    | (some omsg, io) =>
      match io.malloc with
      | (false, io) => (-1, c, io)
      | (true, io) =>
        (0, { c with sendQueue := c.sendQueue ++ [omsg],
                     queuedMsgCount := c.queuedMsgCount + 1 }, io.noteQueued (.fragmented arg))

/-- The context after a message has been queued. -/
def EventContext.withMsg (c : EventContext) (arg : EventMsg) : EventContext :=
  let omsg : EventOmsg := ⟨1, arg.opcode, .nonFragmented, arg.msg, []⟩
  let c :=
    if isCtrlFrame arg.opcode then { c with sendCtrlQueue := c.sendCtrlQueue ++ [omsg] }
    else { c with sendQueue := c.sendQueue ++ [omsg] }
  { c with queuedMsgCount := c.queuedMsgCount + 1,
           queuedMsgLength := c.queuedMsgLength + arg.msg.length }

/-- The context after a fragmented message has been queued. -/
def EventContext.withFragmentedMsg (c : EventContext) (arg : EventFragmentedMsg) : EventContext :=
  { c with sendQueue := c.sendQueue ++ [⟨0, arg.opcode, .fragmented, [], arg.source⟩],
           queuedMsgCount := c.queuedMsgCount + 1 }

theorem queueable_withMsg (c : EventContext) (arg : EventMsg) :
    eventIsMsgQueueable (c.withMsg arg) = eventIsMsgQueueable c := by
  unfold EventContext.withMsg
  simp only
  split_ifs <;> rfl

/-- A message is refused, or queued, or there is no memory for it. -/
theorem eventQueueMsg_cases (c : EventContext) (arg : EventMsg) (io : Io) :
    eventIsMsgQueueable c = false ∧ eventQueueMsg c arg io = (Err.noMoreMsg.code, c, io) ∨
    eventIsMsgQueueable c = true ∧ isCtrlFrame arg.opcode = true ∧ 125 < arg.msg.length ∧
        eventQueueMsg c arg io = (Err.invalidArgument.code, c, io) ∨
    eventIsMsgQueueable c = true ∧ (isCtrlFrame arg.opcode = true → arg.msg.length ≤ 125) ∧
      ∃ io', io.Allocates io' ∧ (eventQueueMsg c arg io = (0, c.withMsg arg, io'.noteQueued (.msg arg)) ∨
        ¬ io.MemOk ∧ ∃ r, r ≠ 0 ∧ r ≠ Err.noMoreMsg.code ∧ eventQueueMsg c arg io = (r, c, io')) := by
  unfold eventQueueMsg
  cases hq : eventIsMsgQueueable c with
  | false => exact Or.inl ⟨rfl, rfl⟩
  | true =>
    right
    by_cases hlong : isCtrlFrame arg.opcode = true ∧ 125 < arg.msg.length
    · exact Or.inl ⟨rfl, hlong.1, hlong.2, by simp [hlong.1, hlong.2]⟩
    · have hguard : (isCtrlFrame arg.opcode && decide (125 < arg.msg.length)) = false := by
        simpa using hlong
      refine Or.inr ⟨rfl, fun hc => Nat.le_of_not_lt fun hlt => hlong ⟨hc, hlt⟩, ?_⟩
      rw [hguard]
      simp only [Bool.not_true, Bool.false_eq_true, if_false]
      obtain ⟨ha, hfail⟩ := io.malloc_allocates
      unfold eventOmsgNonFragmentedNew
      rcases hm : io.malloc with ⟨_ | _, io₁⟩ <;> rw [hm] at ha hfail
      · exact ⟨io₁, ha, Or.inr ⟨fun h => h (hfail rfl), -1, by decide, by decide, rfl⟩⟩
      · simp only
        by_cases hnil : arg.msg = []
        · rw [if_pos hnil]
          obtain ⟨ha₁, hfail₁⟩ := io₁.malloc_allocates
          simp only
          rcases hm₁ : io₁.malloc with ⟨_ | _, io₂⟩ <;> rw [hm₁] at ha₁ hfail₁
          · exact ⟨io₂, ha.trans ha₁,
              Or.inr ⟨fun h => ha.memOk h (hfail₁ rfl), 1, by decide, by decide, rfl⟩⟩
          · exact ⟨io₂, ha.trans ha₁, Or.inl rfl⟩
        · rw [if_neg hnil]
          obtain ⟨ha₁, hfail₁⟩ := io₁.malloc_allocates
          rcases hm₁ : io₁.malloc with ⟨_ | _, io₂⟩ <;> rw [hm₁] at ha₁ hfail₁
          · exact ⟨io₂, ha.trans ha₁,
              Or.inr ⟨fun h => ha.memOk h (hfail₁ rfl), -1, by decide, by decide, rfl⟩⟩
          · obtain ⟨ha₂, hfail₂⟩ := io₂.malloc_allocates
            simp only
            rcases hm₂ : io₂.malloc with ⟨_ | _, io₃⟩ <;> rw [hm₂] at ha₂ hfail₂
            · exact ⟨io₃, (ha.trans ha₁).trans ha₂, Or.inr
                ⟨fun h => (ha.trans ha₁).memOk h (hfail₂ rfl), 1, by decide, by decide, rfl⟩⟩
            · exact ⟨io₃, (ha.trans ha₁).trans ha₂, Or.inl rfl⟩

theorem eventQueueFragmentedMsg_cases (c : EventContext) (arg : EventFragmentedMsg) (io : Io) :
    eventIsMsgQueueable c = false ∧
        eventQueueFragmentedMsg c arg io = (Err.noMoreMsg.code, c, io) ∨
    eventIsMsgQueueable c = true ∧ isCtrlFrame arg.opcode = true ∧
        eventQueueFragmentedMsg c arg io = (Err.invalidArgument.code, c, io) ∨
    eventIsMsgQueueable c = true ∧ isCtrlFrame arg.opcode = false ∧
      ∃ io', io.Allocates io' ∧ (eventQueueFragmentedMsg c arg io =
          (0, c.withFragmentedMsg arg, io'.noteQueued (.fragmented arg)) ∨
        ¬ io.MemOk ∧ eventQueueFragmentedMsg c arg io = (-1, c, io')) := by
  unfold eventQueueFragmentedMsg
  cases hq : eventIsMsgQueueable c with
  | false => exact Or.inl ⟨rfl, rfl⟩
  | true =>
    right
    cases hc : isCtrlFrame arg.opcode with
    | true => exact Or.inl ⟨rfl, rfl, by simp⟩
    | false =>
      refine Or.inr ⟨rfl, rfl, ?_⟩
      simp only [Bool.not_true, Bool.false_eq_true, if_false]
      obtain ⟨ha, hfail⟩ := io.malloc_allocates
      unfold eventOmsgFragmentedNew
      rcases hm : io.malloc with ⟨_ | _, io₁⟩ <;> rw [hm] at ha hfail
      · exact ⟨io₁, ha, Or.inr ⟨fun h => h (hfail rfl), rfl⟩⟩
      · obtain ⟨ha₁, hfail₁⟩ := io₁.malloc_allocates
        simp only
        rcases hm₁ : io₁.malloc with ⟨_ | _, io₂⟩ <;> rw [hm₁] at ha₁ hfail₁
        · exact ⟨io₂, ha.trans ha₁, Or.inr ⟨fun h => ha.memOk h (hfail₁ rfl), rfl⟩⟩
        · exact ⟨io₂, ha.trans ha₁, Or.inl rfl⟩

/-- The body of the Close that `wslay_event_queue_close` queues. -/
def closeBody (statusCode : UInt16) (reason : List UInt8) : List UInt8 :=
  if statusCode = 0 then [] else beBytes 2 statusCode.toNat ++ reason

/-- `wslay_event_queue_close`. -/
def eventQueueClose (c : EventContext) (statusCode : UInt16) (reason : List UInt8) (io : Io) :
    Int × EventContext × Io :=
  if !eventIsMsgQueueable c then (1, c, io)
  else if 123 < reason.length then (2, c, io)
  else
    match eventQueueMsg c ⟨connectionClose, closeBody statusCode reason⟩ io with
    | (r, c, io) =>
      if r = 0 then (r, { c with closeStatus := { c.closeStatus with queued := true } }, io)
      else (r, c, io)

/-- The context after a Close has been queued. -/
def EventContext.withClose (c : EventContext) (statusCode : UInt16) (reason : List UInt8) :
    EventContext :=
  let c := c.withMsg ⟨connectionClose, closeBody statusCode reason⟩
  { c with closeStatus := { c.closeStatus with queued := true } }

theorem length_closeBody (statusCode : UInt16) {reason : List UInt8} (h : reason.length ≤ 123) :
    (closeBody statusCode reason).length ≤ 125 := by
  unfold closeBody
  split_ifs
  · simp
  · rw [List.length_append, Octets.length_beBytes]
    omega

theorem eventQueueClose_cases (c : EventContext) (statusCode : UInt16) (reason : List UInt8)
    (io : Io) :
    eventIsMsgQueueable c = false ∧ eventQueueClose c statusCode reason io = (1, c, io) ∨
    eventIsMsgQueueable c = true ∧ 123 < reason.length ∧
        eventQueueClose c statusCode reason io = (2, c, io) ∨
    eventIsMsgQueueable c = true ∧ reason.length ≤ 123 ∧
      ∃ io', io.Allocates io' ∧
        (eventQueueClose c statusCode reason io = (0, c.withClose statusCode reason,
            io'.noteQueued (.msg ⟨connectionClose, closeBody statusCode reason⟩)) ∨
        ¬ io.MemOk ∧ ∃ r, r ≠ 0 ∧ r ≠ Err.noMoreMsg.code ∧
          eventQueueClose c statusCode reason io = (r, c, io')) := by
  unfold eventQueueClose
  cases hq : eventIsMsgQueueable c with
  | false => exact Or.inl ⟨rfl, rfl⟩
  | true =>
    right
    simp only [Bool.not_true, Bool.false_eq_true, if_false]
    by_cases hlong : 123 < reason.length
    · rw [if_pos hlong]
      exact Or.inl ⟨trivial, hlong, rfl⟩
    · rw [if_neg hlong]
      refine Or.inr ⟨trivial, by omega, ?_⟩
      have hbody := length_closeBody statusCode (by omega : reason.length ≤ 123)
      rcases eventQueueMsg_cases c ⟨connectionClose, closeBody statusCode reason⟩ io with
        ⟨hno, -⟩ | ⟨-, -, hbig, -⟩ | ⟨-, -, io', ha, heq | ⟨hmem, r, hr, hr', heq⟩⟩
      · rw [hq] at hno
        cases hno
      · simp only at hbig
        omega
      · exact ⟨io', ha, Or.inl (by rw [heq]; rfl)⟩
      · exact ⟨io', ha, Or.inr ⟨hmem, r, hr, hr', by rw [heq]; simp [hr]⟩⟩

/-- `wslay_event_queue_close_wrapper`. -/
def eventQueueCloseWrapper (c : EventContext) (statusCode : UInt16) (reason : List UInt8)
    (io : Io) : Int × EventContext × Io :=
  match eventQueueClose { c with readEnabled := false } statusCode reason io with
  | (r, c, io) => if r ≠ 0 ∧ r ≠ Err.noMoreMsg.code then (r, c, io) else (0, c, io)

/-- `wslay_event_set_error`. -/
def eventSetError (io : Io) (val : Int) : Io := { io with error := val }

/-- `wslay_event_shutdown_read`. -/
def eventShutdownRead (c : EventContext) : EventContext := { c with readEnabled := false }

/-- `wslay_event_shutdown_write`. -/
def eventShutdownWrite (c : EventContext) : EventContext := { c with writeEnabled := false }

/-- `wslay_event_want_read`. -/
def eventWantRead (c : EventContext) : Bool := c.readEnabled

/-- `wslay_event_want_write`. -/
def eventWantWrite (c : EventContext) : Bool :=
  c.writeEnabled && (!c.sendQueue.isEmpty || !c.sendCtrlQueue.isEmpty || c.omsg.isSome)

end Wslay
