import Wslay.Event.Drafts
import Wslay.Event.RecvLoop

/-!
# A context that follows a report

While the application only looks on and no allocation fails, `wslay_event_recv`
does to the context what the report of the receiver says, and nothing else: it
calls the callbacks, queues the replies, and notes a Close.

* `Reply.msg`, `EventContext.withReply` — the message that a reply is.
* `Follows` — from one state to another the context has followed a report.
* `Outcome.follows` — what the loop body does with a piece.
-/

namespace Wslay

open Loop (Step)

/-! ## Replies -/

/-- The message that a reply is. -/
def Reply.msg : Reply → EventMsg
  | .pong msg => ⟨Wslay.pong, msg⟩
  | .close code reason => ⟨connectionClose, closeBody (UInt16.ofNat code) reason⟩

/-- The context after a reply has been queued. -/
def EventContext.withReply (c : EventContext) : Reply → EventContext
  | .pong msg => c.withMsg ⟨Wslay.pong, msg⟩
  | .close code reason => c.withClose (UInt16.ofNat code) reason

/-- A reply has been queued. -/
def Io.noteReply (io : Io) (r : Reply) : Io := io.noteQueued (.msg r.msg)

/-- Both, for a pair. -/
def answer (s : EventContext × Io) (r : Reply) : EventContext × Io :=
  (s.1.withReply r, s.2.noteReply r)

/-- What has to be queued is found in the sending half. -/
def sendPart (s : EventContext × Io) := (s.1.sendHalf, s.2.sendHalf)

theorem withMsg_sendHalf {c c' : EventContext} (h : c.sendHalf = c'.sendHalf) (arg : EventMsg) :
    (c.withMsg arg).sendHalf = (c'.withMsg arg).sendHalf := by
  simp only [EventContext.sendHalf, Prod.mk.injEq] at h
  obtain ⟨h1, h2, h3, h4, h5, h6, h7, h8, h9, h10, h11, h12, h13, h14, h15⟩ := h
  unfold EventContext.withMsg
  cases isCtrlFrame arg.opcode
  all_goals
    simp only [EventContext.sendHalf, Bool.false_eq_true, if_true, if_false]
    rw [h1, h2, h3, h4, h5, h6, h7, h8, h9, h10, h11, h12, h13, h14, h15]

theorem withReply_sendHalf {c c' : EventContext} (h : c.sendHalf = c'.sendHalf) (r : Reply) :
    (c.withReply r).sendHalf = (c'.withReply r).sendHalf := by
  cases r with
  | pong msg => exact withMsg_sendHalf h _
  | close code reason =>
    have hm := withMsg_sendHalf h ⟨connectionClose, closeBody (UInt16.ofNat code) reason⟩
    simp only [EventContext.sendHalf, Prod.mk.injEq] at hm
    obtain ⟨h1, -, h3, h4, h5, h6, h7, h8, h9, h10, h11, h12, h13, h14, h15⟩ := hm
    simp only [EventContext.withReply, EventContext.withClose, EventContext.sendHalf]
    rw [h1, h3, h4, h5, h6, h7, h8, h9, h10, h11, h12, h13, h14, h15]

theorem answer_congr {s s' : EventContext × Io} (h : sendPart s = sendPart s') (r : Reply) :
    sendPart (answer s r) = sendPart (answer s' r) := by
  simp only [sendPart, Prod.mk.injEq] at h
  obtain ⟨hc, hio⟩ := h
  simp only [Io.sendHalf, Prod.mk.injEq] at hio
  obtain ⟨h1, h2, h3, h4, h5, h6⟩ := hio
  simp only [sendPart, answer, withReply_sendHalf hc r, Io.noteReply, Io.noteQueued, Io.sendHalf,
    h1, h2, h3, h4, h5, h6]

/-- The replies, one after the other. -/
def answerAll (s : EventContext × Io) (rs : List Reply) : EventContext × Io := rs.foldl answer s

theorem answerAll_append (s : EventContext × Io) (rs rs' : List Reply) :
    answerAll s (rs ++ rs') = answerAll (answerAll s rs) rs' :=
  List.foldl_append ..

theorem answerAll_congr {s s' : EventContext × Io} (h : sendPart s = sendPart s')
    (rs : List Reply) : sendPart (answerAll s rs) = sendPart (answerAll s' rs) := by
  induction rs generalizing s s' with
  | nil => exact h
  | cons r rs ih => exact ih (answer_congr h r)

theorem queueable_sendPart {s s' : EventContext × Io} (h : sendPart s = sendPart s') :
    eventIsMsgQueueable s.1 = eventIsMsgQueueable s'.1 := by
  simp only [sendPart, EventContext.sendHalf, Prod.mk.injEq] at h
  rw [eventIsMsgQueueable, eventIsMsgQueueable, h.1.2.1, h.1.2.2.2.1]

/-- Pongs do not close the queue. -/
theorem queueable_answerAll {rs : List Reply} (hr : ∀ r ∈ rs, ∃ msg, r = .pong msg)
    (s : EventContext × Io) :
    eventIsMsgQueueable (answerAll s rs).1 = eventIsMsgQueueable s.1 := by
  induction rs generalizing s with
  | nil => rfl
  | cons r rs ih =>
    obtain ⟨msg, rfl⟩ := hr r (List.mem_cons_self ..)
    exact (ih (fun r h => hr r (List.mem_cons_of_mem _ h)) _).trans (queueable_withMsg s.1 _)

/-! ## Queueing, when there is memory -/

theorem eventQueueMsg_pong {c : EventContext} {io : Io} (hm : io.MemOk) {msg : List UInt8}
    (hlen : msg.length ≤ 125) :
    if eventIsMsgQueueable c then ∃ io', io.Allocates io' ∧
        eventQueueMsg c ⟨pong, msg⟩ io = (0, c.withReply (.pong msg), io'.noteReply (.pong msg))
      else eventQueueMsg c ⟨pong, msg⟩ io = (Err.noMoreMsg.code, c, io) := by
  rcases eventQueueMsg_cases c ⟨pong, msg⟩ io with ⟨hq, heq⟩ | ⟨-, -, hbig, -⟩ |
    ⟨hq, -, io', ha, heq | ⟨hno, -⟩⟩
  · rw [hq]
    exact heq
  · exact absurd hlen (Nat.not_le.2 hbig)
  · rw [if_pos hq]
    exact ⟨io', ha, heq⟩
  · exact absurd hm hno

theorem queueable_off (c : EventContext) (enabled : Bool) :
    eventIsMsgQueueable { c with readEnabled := enabled } = eventIsMsgQueueable c := rfl

/-- The wrapper queues the Close, or returns 1. -/
theorem eventQueueCloseWrapper_eq {c : EventContext} {io : Io} (hm : io.MemOk) (code : Nat)
    {reason : List UInt8} (hlen : reason.length ≤ 123) :
    if eventIsMsgQueueable c then ∃ io', io.Allocates io' ∧
        eventQueueCloseWrapper c (UInt16.ofNat code) reason io =
          (0, { c with readEnabled := false }.withReply (.close code reason),
            io'.noteReply (.close code reason))
      else eventQueueCloseWrapper c (UInt16.ofNat code) reason io =
        (1, { c with readEnabled := false }, io) := by
  unfold eventQueueCloseWrapper
  rcases eventQueueClose_cases { c with readEnabled := false } (UInt16.ofNat code) reason io with
    ⟨hq, heq⟩ | ⟨-, hbig, -⟩ | ⟨hq, -, io', ha, heq | ⟨hno, -⟩⟩
  · rw [queueable_off] at hq
    rw [hq, heq]
    simp [Err.code]
  · omega
  · rw [queueable_off] at hq
    rw [if_pos hq, heq]
    exact ⟨io', ha, by simp; exact ⟨rfl, rfl⟩⟩
  · exact absurd hm hno

/-! ## Following a report -/

/-- The status code of a valid Close, if one has been received. -/
def Fate.heard : Fate → Option Nat
  | .live _ => none
  | .off heard _ => heard

/-- Reading goes on. -/
def Fate.isLive : Fate → Bool
  | .live _ => true
  | .off _ _ => false

/-- **From `s` to `s'` the context has followed the report `R`.** -/
structure Follows (s s' : EventContext × Io) (R : Report) : Prop where
  settings : s'.1.settings = s.1.settings
  calls : s'.2.calls = s.2.calls ++ R.calls.filter s.1.callbacks.takes
  send : sendPart s' = sendPart (answerAll s R.replies)
  heard : s'.1.closeStatus.received = (R.fate.heard.isSome || s.1.closeStatus.received)
  code : s'.1.statusCodeRecv =
    (R.fate.heard.map fun code => if code = 0 then codeNoStatusRcvd else code).getD
      s.1.statusCodeRecv
  enabled : s'.1.readEnabled = (R.fate.isLive && s.1.readEnabled)
  apps : s'.2.apps = s.2.apps
  mem : s'.2.mem <:+ s.2.mem
  quiet : s.2.Quiet → s'.2.Quiet

theorem Follows.start (s : EventContext × Io) (rx : Rx) : Follows s s (.start rx) where
  settings := rfl
  calls := (List.append_nil _).symm
  send := rfl
  heard := rfl
  code := rfl
  enabled := rfl
  apps := rfl
  mem := List.suffix_rfl
  quiet := id

theorem Follows.callbacks {s s' : EventContext × Io} {R : Report} (h : Follows s s' R) :
    s'.1.callbacks = s.1.callbacks := by
  have hs := h.settings
  simp only [EventContext.settings, Prod.mk.injEq] at hs
  exact hs.2.2.2.2

/-- One report after the other. -/
theorem Follows.trans {s s' s'' : EventContext × Io} {R R' : Report} (h : Follows s s' R)
    {rx : Rx} (hlive : R.fate = .live rx) (h' : Follows s' s'' R') :
    Follows s s'' ⟨R.calls ++ R'.calls, R.replies ++ R'.replies, R'.fate⟩ where
  settings := h'.settings.trans h.settings
  calls := by
    rw [h'.calls, h.calls, h.callbacks, List.filter_append, List.append_assoc]
  send := by
    rw [h'.send, answerAll_congr h.send R'.replies]
    simp only [answerAll_append]
  heard := by
    have hnone : R.fate.heard = none := by rw [hlive]; rfl
    rw [h'.heard, h.heard, hnone]
    simp
  code := by
    have hnone : R.fate.heard = none := by rw [hlive]; rfl
    rw [h'.code, h.code, hnone]
    rfl
  enabled := by
    have htrue : R.fate.isLive = true := by rw [hlive]; rfl
    rw [h'.enabled, h.enabled, htrue, Bool.true_and]
  apps := h'.apps.trans h.apps
  mem := h'.mem.trans h.mem
  quiet := h'.quiet ∘ h.quiet

theorem Follows.queueable {s s' : EventContext × Io} {R : Report} (h : Follows s s' R)
    {rx : Rx} (hlive : R.fate = .live rx) (hpongs : R.OnlyPongs) :
    eventIsMsgQueueable s'.1 = eventIsMsgQueueable s.1 :=
  (queueable_sendPart h.send).trans (queueable_answerAll (hpongs rx hlive) s)

/-- The message as it stands in the queue. -/
def Reply.omsg (r : Reply) : EventOmsg := ⟨1, r.msg.opcode, .nonFragmented, r.msg.msg, []⟩

theorem sendCtrlQueue_withReply (c : EventContext) (r : Reply) :
    (c.withReply r).sendCtrlQueue = c.sendCtrlQueue ++ [r.omsg] := by
  have hctrl : ∀ arg : EventMsg, isCtrlFrame arg.opcode = true →
      (c.withMsg arg).sendCtrlQueue =
        c.sendCtrlQueue ++ [⟨1, arg.opcode, .nonFragmented, arg.msg, []⟩] := by
    intro arg h
    rw [EventContext.withMsg, h]
    rfl
  have hpong : isCtrlFrame Wslay.pong = true := by decide
  have hclose : isCtrlFrame connectionClose = true := by decide
  cases r with
  | pong msg => exact hctrl ⟨Wslay.pong, msg⟩ hpong
  | close code reason => exact hctrl ⟨connectionClose, _⟩ hclose

/-- A reply, in the history of what has been queued. -/
def Reply.queued (r : Reply) : QueuedMsg := .msg r.msg

theorem answerAll_queues (s : EventContext × Io) (rs : List Reply) :
    (answerAll s rs).2.queued = s.2.queued ++ rs.map Reply.queued ∧
      (answerAll s rs).1.sendCtrlQueue = s.1.sendCtrlQueue ++ rs.map Reply.omsg := by
  induction rs generalizing s with
  | nil => exact ⟨(List.append_nil _).symm, (List.append_nil _).symm⟩
  | cons r rs ih =>
    obtain ⟨h1, h2⟩ := ih (answer s r)
    refine ⟨h1.trans ?_, h2.trans ?_⟩
    · rw [List.map_cons, List.append_cons]
      rfl
    · rw [List.map_cons, List.append_cons]
      exact congrArg (· ++ rs.map Reply.omsg) (sendCtrlQueue_withReply s.1 r)

/-- The replies are what is queued. -/
theorem Follows.queues {s s' : EventContext × Io} {R : Report} (h : Follows s s' R) :
    s'.2.queued = s.2.queued ++ R.replies.map Reply.queued ∧
      s'.1.sendCtrlQueue = s.1.sendCtrlQueue ++ R.replies.map Reply.omsg := by
  have hsend := h.send
  simp only [sendPart, EventContext.sendHalf, Io.sendHalf, Prod.mk.injEq] at hsend
  obtain ⟨hq, hc⟩ := answerAll_queues s R.replies
  exact ⟨hsend.2.2.2.2.2.1.trans hq, hsend.1.2.2.2.2.2.2.2.2.1.trans hc⟩

/-! ## Parts of a call -/

/-- Work of the receiver follows its calls. -/
theorem Works.follows {s s' : EventContext × Io} {calls : List Call} (h : Works s s' calls)
    (happs : s.2.apps = []) (rx : Rx) : Follows s s' ⟨calls, [], .live rx⟩ where
  settings := h.settings
  calls := h.calls
  send := by
    obtain ⟨-, hsend, hio, -, -⟩ := h.alone happs
    exact congrArg₂ Prod.mk hsend hio
  heard := h.heard
  code := h.code
  enabled := (h.alone happs).enabled
  apps := (h.alone happs).apps.trans happs.symm
  mem := h.mem
  quiet := by
    rintro ⟨herr, hrecvs⟩
    refine ⟨?_, h.recvs ▸ hrecvs⟩
    rcases (h.alone happs).error with he | he
    · rw [he]
      exact herr
    · exact Or.inl he

/-- Octets that come in are not seen. -/
theorem Delivers.follows {c : EventContext} {f : FrameContext} {io io' : Io} {bs : List UInt8}
    (h : Delivers io bs io') (hq : io.Quiet → io'.Quiet)
    (hsend : { c with frameCtx := f }.sendHalf = c.sendHalf) (rx : Rx) :
    Follows (c, io) ({ c with frameCtx := f }, io') (.start rx) where
  settings := rfl
  calls := h.calls.trans (List.append_nil _).symm
  send := by
    refine congrArg₂ Prod.mk hsend ?_
    simp only [Io.sendHalf, h.sends, h.masks, h.wire, h.offers, h.queued, h.discarded, answerAll,
      Report.start, List.foldl_nil]
  heard := rfl
  code := rfl
  enabled := rfl
  apps := h.apps
  mem := by
    change io'.mem <:+ io.mem
    rw [h.mem]
  quiet := hq

/-- Work before. -/
theorem Follows.before {s s₁ s' : EventContext × Io} {calls : List Call} {R : Report}
    (h : Follows s₁ s' R) (hw : Works s s₁ calls) (happs : s.2.apps = []) :
    Follows s s' ⟨calls ++ R.calls, R.replies, R.fate⟩ :=
  (hw.follows happs .fresh).trans rfl h

/-- Work afterwards. -/
theorem Follows.after {s s₁ s' : EventContext × Io} {calls : List Call} {R : Report}
    (h : Follows s s₁ R) (hw : Works s₁ s' calls) (happs : s.2.apps = []) :
    Follows s s' ⟨R.calls ++ calls, R.replies, R.fate⟩ := by
  have h' := hw.follows (h.apps.trans happs) .fresh
  exact {
    settings := h'.settings.trans h.settings
    calls := by rw [h'.calls, h.calls, h.callbacks, List.filter_append, List.append_assoc]
    send := h'.send.trans h.send
    heard := h'.heard.trans h.heard
    code := h'.code.trans h.code
    enabled := h'.enabled.trans h.enabled
    apps := h'.apps.trans h.apps
    mem := h'.mem.trans h.mem
    quiet := h'.quiet ∘ h.quiet }

theorem readEnabled_withReply (c : EventContext) (r : Reply) :
    (c.withReply r).readEnabled = c.readEnabled := by
  cases r with
  | pong msg => exact readEnabled_withMsg c _
  | close code reason => exact readEnabled_withMsg c _

theorem rxPart_withReply (c : EventContext) (r : Reply) : (c.withReply r).rxPart = c.rxPart := by
  cases r with
  | pong msg => exact rxPart_withMsg c _
  | close code reason => exact rxPart_withMsg c _

/-- A reply is queued. -/
theorem follows_answer {c : EventContext} {io io' : Io} (ha : io.Allocates io') (r : Reply)
    (rx : Rx) : Follows (c, io) (c.withReply r, io'.noteReply r) ⟨[], [r], .live rx⟩ := by
  have hpart := rxPart_withReply c r
  have heq := ha.eq
  simp only [EventContext.rxPart, Prod.mk.injEq] at hpart
  obtain ⟨h1, h2, h3, h4, h5, h6, h7, -⟩ := hpart
  refine ⟨?_, ?_, ?_, h6, h7, readEnabled_withReply c r, ?_, ha.mem, ?_⟩
  · simp only [EventContext.settings, h1, h2, h3, h4, h5]
  · rw [heq]
    exact (List.append_nil _).symm
  · rw [heq]
    rfl
  · rw [heq]
    rfl
  · rw [heq]
    rintro ⟨herr, hrecvs⟩
    exact ⟨herr, hrecvs⟩

/-- A Pong is queued if that is possible. -/
theorem recvPing_follows {s : EventContext × Io} {q : Bool} (hq : eventIsMsgQueueable s.1 = q)
    (hm : s.2.MemOk) {msg : List UInt8} (hlen : msg.length ≤ 125) (rx : Rx) :
    ∃ s', recvPing msg s.1 s.2 = .again s' ∧
      Follows s s' ⟨[], if q then [.pong msg] else [], .live rx⟩ := by
  have hpong := eventQueueMsg_pong (c := s.1) hm hlen
  unfold recvPing
  subst hq
  cases hq : eventIsMsgQueueable s.1 with
  | true =>
    rw [if_pos hq] at hpong
    obtain ⟨io', ha, heq⟩ := hpong
    rw [heq]
    exact ⟨_, rfl, follows_answer ha _ rx⟩
  | false =>
    rw [if_neg (by simp [hq])] at hpong
    rw [hpong]
    exact ⟨s, rfl, .start s rx⟩

theorem answerAll_shut (s : EventContext × Io) (rs : List Reply) :
    sendPart (answerAll (shutRead s) rs) = sendPart (answerAll s rs) := by
  have h : sendPart (shutRead s) = sendPart s := rfl
  exact answerAll_congr h rs

/-- Reading has been shut down before. -/
theorem Follows.shut {s s' : EventContext × Io} {calls : List Call} {replies : List Reply} {rx : Rx}
    (h : Follows (shutRead s) s' ⟨calls, replies, .live rx⟩) (r : Int) :
    Follows s s' ⟨calls, replies, .off none r⟩ where
  settings := h.settings
  calls := h.calls
  send := h.send.trans (answerAll_shut s replies)
  heard := h.heard
  code := h.code
  enabled := h.enabled
  apps := h.apps
  mem := h.mem
  quiet := h.quiet

/-- The wrapper shuts reading down, and queues a Close if that is possible. -/
theorem eventQueueCloseWrapper_follows {s : EventContext × Io} {q : Bool}
    (hq : eventIsMsgQueueable s.1 = q) (hm : s.2.MemOk) (code : Nat) {reason : List UInt8}
    (hlen : reason.length ≤ 123) (r : Int) :
    ∃ s', eventQueueCloseWrapper s.1 (UInt16.ofNat code) reason s.2 = (if q then 0 else 1, s') ∧
      SameInput s s' ∧ Follows s s' ⟨[], if q then [.close code reason] else [], .off none r⟩ := by
  have hsame := (eventQueueCloseWrapper_spares s.1 (UInt16.ofNat code) reason s.2).1.sameInput
  have hclose := eventQueueCloseWrapper_eq (c := s.1) hm code hlen
  subst hq
  cases hq : eventIsMsgQueueable s.1 with
  | true =>
    rw [if_pos hq] at hclose
    obtain ⟨io', ha, heq⟩ := hclose
    rw [heq] at hsame
    exact ⟨_, heq, hsame, (follows_answer ha _ .fresh).shut r⟩
  | false =>
    rw [if_neg (by simp [hq])] at hclose
    rw [hclose] at hsame
    exact ⟨_, hclose, hsame, (Follows.start (shutRead s) .fresh).shut r⟩

/-- A receiver that gives up. -/
theorem failWith_follows {s : EventContext × Io} {q : Bool} (hq : eventIsMsgQueueable s.1 = q)
    (hm : s.2.MemOk) (code : Nat) :
    ∃ s', failWith code s.1 s.2 = .leave (if q then 0 else 1) s' ∧ SameInput s s' ∧
      Follows s s' ⟨[], if q then [.close code []] else [], .off none (if q then 0 else 1)⟩ := by
  have hshort : ([] : List UInt8).length ≤ 123 := Nat.zero_le 123
  obtain ⟨s', heq, hsame, hf⟩ := eventQueueCloseWrapper_follows hq hm code hshort
    (if q then 0 else 1)
  exact ⟨s', by rw [failWith, heq], hsame, hf⟩

/-- A malformed header. -/
theorem recvFrameError_follows {s : EventContext × Io} {q : Bool}
    (hq : eventIsMsgQueueable s.1 = q) (hm : s.2.MemOk) (cfg : RxConfig) (rx : Rx) :
    ∃ s', recvFrameError .proto s.1 s.2 =
        .leave (if q then Err.callbackFailure.code else 1) s' ∧
      SameInput s s' ∧ Follows s s' (rx.react q cfg .malformed) := by
  have hshort : ([] : List UInt8).length ≤ 123 := Nat.zero_le 123
  obtain ⟨s', heq, hsame, hf⟩ := eventQueueCloseWrapper_follows hq hm 0 hshort
    (if q then Err.callbackFailure.code else 1)
  refine ⟨s', ?_, hsame, hf⟩
  rw [recvFrameError, if_pos (Or.inl (by decide))]
  change eventQueueCloseWrapper s.1 0 [] s.2 = _ at heq
  rw [heq]
  cases q <;> rfl

/-- A valid Close is noted. -/
def noteClose (msg : List UInt8) (s : EventContext × Io) : EventContext × Io :=
  ({ s.1 with
      closeStatus := { s.1.closeStatus with received := true }
      statusCodeRecv := if statusOf msg = 0 then codeNoStatusRcvd else statusOf msg }, s.2)

/-- A valid Close is noted, and answered if that is possible. -/
theorem acceptClose_follows {s : EventContext × Io} {q : Bool} (hq : eventIsMsgQueueable s.1 = q)
    (hm : s.2.MemOk) {msg : List UInt8} (hlen : msg.length ≤ 125) :
    ∃ s', (acceptClose msg s.1 s.2 = if q then .again s' else .leave 1 s') ∧ SameInput s s' ∧
      Follows s s' ⟨[], if q then [.close (statusOf msg) (msg.drop 2)] else [],
        .off (some (statusOf msg)) (if q then 0 else 1)⟩ := by
  have hdrop : (msg.drop 2).length ≤ 123 := by
    rw [List.length_drop]
    omega
  have hnote : sendPart (noteClose msg s) = sendPart s := rfl
  obtain ⟨s', heq, hsame, hf⟩ := eventQueueCloseWrapper_follows (s := noteClose msg s) hq hm
    (statusOf msg) hdrop (if q then 0 else 1)
  refine ⟨s', ?_, ⟨hsame.frame, hsame.recvs, hsame.received⟩, hf.settings, hf.calls, hf.send.trans (answerAll_congr hnote _), hf.heard,
    hf.code, hf.enabled, hf.apps, hf.mem, hf.quiet⟩
  unfold noteClose at heq
  rw [acceptClose, heq]
  cases q <;> rfl

/-! ## The loop body -/

/-- The frame layer and the incoming octets are left alone. -/
theorem recvReply_sameInput {opcode : Fin 16} {msg : List UInt8} {s s' : EventContext × Io}
    (h : recvReply opcode msg s = .again s') : SameInput s s' := by
  rcases recvReply_cases opcode msg s with ⟨s₁, heq, hsame⟩ | ⟨r, s₁, heq, -⟩ <;> rw [h] at heq <;>
    cases heq
  exact hsame

/-- **What the loop body does with a piece is what the report says.** -/
theorem Outcome.follows {cfg : RxConfig} {s : EventContext × Io}
    {x : Step (EventContext × Io) Int} {R : Reaction} (h : Outcome cfg s x R)
    (hv : R.verdict.Sound cfg) (happs : s.2.apps = []) (hm : s.2.MemOk) {q : Bool}
    (hq : eventIsMsgQueueable s.1 = q) :
    ∃ s', Follows s s' (R.report q) ∧ SameInput s s' ∧
      match (R.report q).fate with
      | .live rx => x = .again s' ∧ Models cfg s'.1 rx
      | .off _ r => x = .leave r s' ∨ x = .again s' ∧ r = 0 := by
  -- the receiver has worked before the verdict
  have hworked : ∀ {s₁}, Works s s₁ R.calls →
      eventIsMsgQueueable s₁.1 = q ∧ s₁.2.MemOk ∧ s₁.2.apps = [] := by
    intro s₁ hw
    have hf := hw.follows happs .fresh
    refine ⟨?_, hw.memOk hm, hf.apps.trans happs⟩
    have hsend : sendPart s₁ = sendPart s := hf.send
    rw [queueable_sendPart hsend, hq]
  unfold Outcome at h
  unfold Reaction.report
  cases hverdict : R.verdict with
  | more rx =>
    rw [hverdict] at h
    obtain ⟨s', hx, hw, hmod⟩ := h
    exact ⟨s', hw.follows happs rx, hw.sameInput, hx, hmod⟩
  | reject code =>
    rw [hverdict] at h
    obtain ⟨s₁, hx, hw⟩ := h
    obtain ⟨hq₁, hm₁, -⟩ := hworked hw
    obtain ⟨s', heq, hsame, hf⟩ := failWith_follows hq₁ hm₁ code
    have hf' := hf.before hw happs
    rw [List.append_nil] at hf'
    exact ⟨s', hf', hw.sameInput.trans hsame, Or.inl (hx.trans heq)⟩
  | overflow =>
    rw [hverdict] at h
    obtain ⟨s₁, hx, hw⟩ := h
    have hf := ((Follows.start (shutRead s₁) .fresh).shut Err.nomem.code).before hw happs
    rw [List.append_nil] at hf
    exact ⟨shutRead s₁, hf, ⟨hw.frame, hw.recvs, hw.received⟩, Or.inl hx⟩
  | done opcode msg rx =>
    rw [hverdict] at h hv
    obtain ⟨s₁, hw, hrest⟩ := h
    obtain ⟨hq₁, hm₁, happs₁⟩ := hworked hw
    obtain ⟨-, -, hfits⟩ := hv
    simp only
    by_cases h8 : opcode = 8
    · subst h8
      rw [if_pos rfl]
      obtain ⟨s₂, heq, hsame, hf⟩ := acceptClose_follows hq₁ hm₁ (hfits (by decide))
      have hreply : recvReply 8 msg s₁ = acceptClose msg s₁.1 s₁.2 := rfl
      rw [hreply, heq] at hrest
      cases q with
      | true =>
        obtain ⟨s', hx, hw', -⟩ := hrest
        have hf' := (hf.after hw' happs₁).before hw happs
        exact ⟨s', hf', (hw.sameInput.trans hsame).trans hw'.sameInput, Or.inr ⟨hx, rfl⟩⟩
      | false =>
        have hf' := hf.before hw happs
        rw [List.append_nil] at hf'
        exact ⟨s₂, hf', hw.sameInput.trans hsame, Or.inl hrest⟩
    · rw [if_neg h8]
      -- a Ping is answered, another message is not
      obtain ⟨s₂, heq, hf⟩ : ∃ s₂, recvReply opcode msg s₁ = .again s₂ ∧
          Follows s₁ s₂ ⟨[], if opcode = 9 ∧ q = true then [.pong msg] else [], .live rx⟩ := by
        unfold recvReply
        rw [if_neg h8]
        by_cases h9 : opcode = 9
        · rw [if_pos h9]
          simp only [h9, true_and]
          exact recvPing_follows hq₁ hm₁ (hfits (by rw [h9]; decide)) rx
        · rw [if_neg h9, if_neg fun h => h9 h.1]
          exact ⟨s₁, rfl, .start s₁ rx⟩
      have hsame := recvReply_sameInput heq
      rw [heq] at hrest
      obtain ⟨s', hx, hw', hmod⟩ := hrest
      exact ⟨s', (hf.after hw' happs₁).before hw happs,
        (hw.sameInput.trans hsame).trans hw'.sameInput, hx, hmod⟩

end Wslay
