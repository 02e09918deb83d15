import Wslay.Event.Receiving

/-!
# Queueing behind a Close

Whether a message may be queued is decided by `WSLAY_CLOSE_QUEUED`.  The flag is
set by `wslay_event_queue_close`, which also makes the automatic replies.  It is
not set by `wslay_event_queue_msg`, not even when the message is a Close.

* `Refuses` — nothing can be queued any more.
* `refuses_iff` — this is what `wslay_event_is_msg_queueable` says.
* `Walk`, `Unfolds` — a run seen call by call, the calls of receive callbacks included.
* `nothing_behind_close_iff` — the runs in which nothing can be queued behind a
  Close.
-/

namespace Wslay

/-- A Close has been accepted for sending. -/
def Io.CloseAccepted (io : Io) : Prop :=
  ∃ body, QueuedMsg.msg ⟨connectionClose, body⟩ ∈ io.queued

/-- The calls that queue a message. -/
def AppCall.Queues : AppCall → Prop
  | .queueMsg _ => True
  | .queueFragmentedMsg _ => True
  | .queueClose _ _ => True
  | _ => False

/-- Every queueing call is refused and changes nothing, and no call of the
library, `wslay_event_recv` included, queues anything, whatever the world is like. -/
def Refuses (c : EventContext) : Prop :=
  ∀ io, (∀ a, a.Queues → (appCall c io a).1 ≠ 0 ∧ (appCall c io a).2 = (c, io)) ∧
    ∀ op, (step (c, io) op).2.2.queued = io.queued

/-! ## One call -/

/-- A queueing call on a context that takes no more messages. -/
theorem appCall_refused {c : EventContext} (hc : eventIsMsgQueueable c = false) {a : AppCall}
    (ha : a.Queues) (io : Io) : (appCall c io a).1 ≠ 0 ∧ (appCall c io a).2 = (c, io) := by
  cases a with
  | queueMsg arg =>
    have heq : eventQueueMsg c arg io = (Err.noMoreMsg.code, c, io) := by
      rw [eventQueueMsg, hc]
      rfl
    show (eventQueueMsg c arg io).1 ≠ 0 ∧ (eventQueueMsg c arg io).2 = (c, io)
    rw [heq]
    exact ⟨show Err.noMoreMsg.code ≠ 0 by decide, rfl⟩
  | queueFragmentedMsg arg =>
    have heq : eventQueueFragmentedMsg c arg io = (Err.noMoreMsg.code, c, io) := by
      rw [eventQueueFragmentedMsg, hc]
      rfl
    show (eventQueueFragmentedMsg c arg io).1 ≠ 0 ∧ (eventQueueFragmentedMsg c arg io).2 = (c, io)
    rw [heq]
    exact ⟨show Err.noMoreMsg.code ≠ 0 by decide, rfl⟩
  | queueClose code reason =>
    have heq : eventQueueClose c code reason io = (1, c, io) := by
      rw [eventQueueClose, hc]
      rfl
    show (eventQueueClose c code reason io).1 ≠ 0 ∧ (eventQueueClose c code reason io).2 = (c, io)
    rw [heq]
    exact ⟨show (1 : Int) ≠ 0 by decide, rfl⟩
  | send => exact ha.elim
  | setError val => exact ha.elim
  | shutdownRead => exact ha.elim
  | shutdownWrite => exact ha.elim

theorem eventSend_of_shut {c : EventContext} (hc : c.writeEnabled = false) (io : Io) :
    eventSend c io = (0, c, io) := by
  have hpass : sendPass (c, io) = .leave 0 (c, io) := by
    unfold sendPass eventWantWrite
    simp [hc]
  rw [eventSend, show sendFuel c = _ + 1 from rfl, Loop.run_succ_leave hpass]
  rfl

/-- Sending does not make a context take messages again. -/
theorem eventSend_refused {c : EventContext} (hc : eventIsMsgQueueable c = false) (io : Io) :
    eventIsMsgQueueable (eventSend c io).2.1 = false := by
  cases hw : c.writeEnabled with
  | false =>
    rw [eventSend_of_shut hw]
    exact hc
  | true =>
    have hflag : c.closeStatus.queued = true := by
      rw [eventIsMsgQueueable, hw] at hc
      simpa using hc
    have h := (eventSend_recvSame c io).1.context
    simp only [EventContext.recvHalf, Prod.mk.injEq] at h
    rw [eventIsMsgQueueable, h.2.1, hflag]
    simp

/-- The history of queueing has come to its end. -/
def Ended (queued : List QueuedMsg) (s : EventContext × Io) : Prop :=
  eventIsMsgQueueable s.1 = false ∧ s.2.queued = queued

/-- **A context that takes no more messages stays so.** -/
theorem ended_kept (queued : List QueuedMsg) : Kept (fun _ => True) (Ended queued) where
  same := by
    intro s s' hss hs
    obtain ⟨hc, hio⟩ := queueable_congr hss
    exact ⟨hc.trans hs.1, hio.trans hs.2⟩
  call := by
    intro c io a _ hs
    have hc : eventIsMsgQueueable c = false := hs.1
    by_cases ha : a.Queues
    · rw [(appCall_refused hc ha io).2]
      exact hs
    · cases a with
      | queueMsg arg => exact absurd trivial ha
      | queueFragmentedMsg arg => exact absurd trivial ha
      | queueClose code reason => exact absurd trivial ha
      | send => exact ⟨eventSend_refused hc io, (eventSend_recvSame c io).2.1.trans hs.2⟩
      | setError val => exact hs
      | shutdownRead => exact hs
      | shutdownWrite => exact ⟨rfl, hs.2⟩
  apps := fun _ _ _ _ _ => trivial
  pong := fun _ => trivial
  close := fun _ _ => trivial

/-- **Nothing can be queued any more** just when `wslay_event_is_msg_queueable`
says so. -/
theorem refuses_iff (c : EventContext) : Refuses c ↔ eventIsMsgQueueable c = false := by
  constructor
  · intro h
    by_contra hq
    have hping := ((h {}).1 (.queueMsg ⟨ping, []⟩) trivial).1
    refine hping ?_
    show (eventQueueMsg c ⟨ping, []⟩ {}).1 = 0
    rw [eventQueueMsg, (Bool.not_eq_false _).mp hq]
    rfl
  · intro hc io
    refine ⟨fun a ha => appCall_refused hc ha io, fun op => ?_⟩
    have hs : Ended io.queued (c, io) := ⟨hc, rfl⟩
    cases op with
    | call a => exact ((ended_kept io.queued).call trivial hs).2
    | recv => exact ((ended_kept io.queued).eventRecv hs).2

/-! ## A run call by call -/

/-- The replies that the library makes of itself. -/
inductive AppCall.Automatic : AppCall → Prop
  | pong (data : List UInt8) : Automatic (.queueMsg ⟨Wslay.pong, data⟩)
  | close (code : UInt16) (reason : List UInt8) : Automatic (.queueClose code reason)

/-- What happens in a run: the application makes a call, between the calls or from a receive
callback; the library makes a reply; or nothing happens to the sending half. -/
inductive Event where
  | call (a : AppCall)
  | reply (a : AppCall)
  | aside (t : EventContext × Io)

/-- The state after an event. -/
def Event.after (s : EventContext × Io) : Event → EventContext × Io
  | .call a => (appCall s.1 s.2 a).2
  | .reply a => (appCall s.1 s.2 a).2
  | .aside t => t

/-- The events that are possible in the state `s`. -/
def Event.Possible (s : EventContext × Io) : Event → Prop
  | .call _ => True
  | .reply a => a.Automatic
  | .aside t => SendSame s t ∧ t.2.mem <:+ s.2.mem

/-- The call of the application that an event is. -/
def Event.call? : Event → Option AppCall
  | .call a => some a
  | _ => none

/-- The state after some events. -/
def play (s : EventContext × Io) (evs : List Event) : EventContext × Io := evs.foldl Event.after s

/-- Some events that are possible, one after the other. -/
def Walk (s : EventContext × Io) : List Event → Prop
  | [] => True
  | e :: evs => e.Possible s ∧ Walk (e.after s) evs

/-- **The events of one operation**, a call of the application or `wslay_event_recv`: in the
latter the calls are those of the callbacks that have run, in their order. -/
structure UnfoldsOp (s : EventContext × Io) (op : Op) (evs : List Event) : Prop where
  walk : Walk s evs
  after : play s evs = (step s op).2
  calls : match op with
    | .call a => evs = [.call a]
    | .recv => ∃ ran, s.2.apps = ran ++ (step s .recv).2.2.apps ∧
        evs.filterMap Event.call? = ran.flatten

/-- The events of a run. -/
inductive Unfolds : EventContext × Io → List Op → List Event → Prop
  | nil (s : EventContext × Io) : Unfolds s [] []
  | cons {s : EventContext × Io} {op : Op} {ops : List Op} {evs later : List Event} :
      UnfoldsOp s op evs → Unfolds (step s op).2 ops later → Unfolds s (op :: ops) (evs ++ later)

theorem play_append (s : EventContext × Io) (evs later : List Event) :
    play s (evs ++ later) = play (play s evs) later :=
  List.foldl_append ..

theorem walk_append (s : EventContext × Io) (evs later : List Event) :
    Walk s (evs ++ later) ↔ Walk s evs ∧ Walk (play s evs) later := by
  induction evs generalizing s with
  | nil => exact (true_and _).symm ▸ Iff.rfl
  | cons e evs ih =>
    rw [List.cons_append, Walk, Walk, ih, and_assoc]
    rfl

theorem Unfolds.walk {s : EventContext × Io} {ops : List Op} {evs : List Event}
    (h : Unfolds s ops evs) : Walk s evs := by
  induction h with
  | nil => trivial
  | cons hop _ ih =>
    refine (walk_append _ _ _).2 ⟨hop.walk, ?_⟩
    rw [hop.after]
    exact ih

/-- What the calls of the run come to is among what the events come to. -/
theorem Unfolds.boundary {s : EventContext × Io} {ops : List Op} {evs : List Event}
    (h : Unfolds s ops evs) {before : List Op} (hb : before <+: ops) :
    ∃ evs', evs' <+: evs ∧ play s evs' = runOps s before := by
  induction h generalizing before with
  | nil s =>
    rw [List.prefix_nil] at hb
    exact ⟨[], List.prefix_rfl, hb ▸ rfl⟩
  | @cons s op ops evs later hop _ ih =>
    cases before with
    | nil => exact ⟨[], List.nil_prefix, rfl⟩
    | cons op' before =>
      obtain ⟨rfl, hrest⟩ := List.cons_prefix_cons.1 hb
      obtain ⟨evs', hevs, hplay⟩ := ih hrest
      refine ⟨evs ++ evs', (List.prefix_append_right_inj evs).2 hevs, ?_⟩
      rw [play_append, hop.after]
      exact hplay

/-- The calls that a callback makes, one after the other. -/
theorem walk_calls (s : EventContext × Io) (calls : List AppCall) :
    Walk s (calls.map .call) ∧ play s (calls.map .call) = appCalls s calls ∧
      (calls.map Event.call).filterMap Event.call? = calls := by
  induction calls generalizing s with
  | nil => exact ⟨trivial, rfl, rfl⟩
  | cons a calls ih =>
    obtain ⟨h1, h2, h3⟩ := ih (appCall s.1 s.2 a).2
    exact ⟨⟨trivial, h1⟩, h2, congrArg (a :: ·) h3⟩

/-- From `s` some events have led to `t`, and the callbacks of which the calls are among them
have run. -/
def LedTo (s t : EventContext × Io) : Prop :=
  ∃ evs ran, Walk s evs ∧ play s evs = t ∧ s.2.apps = ran ++ t.2.apps ∧
    evs.filterMap Event.call? = ran.flatten

/-- One more event that is no call of the application. -/
theorem LedTo.event {s t : EventContext × Io} (h : LedTo s t) {e : Event} (he : e.Possible t)
    (hcall : e.call? = none) (happs : (e.after t).2.apps = t.2.apps) : LedTo s (e.after t) := by
  obtain ⟨evs, ran, hwalk, rfl, hran, hcalls⟩ := h
  refine ⟨evs ++ [e], ran, (walk_append _ _ _).2 ⟨hwalk, he, trivial⟩, play_append _ _ _, ?_, ?_⟩
  · rw [happs]
    exact hran
  · rw [List.filterMap_append, List.filterMap_cons_none hcall, List.filterMap_nil, List.append_nil]
    exact hcalls

/-- A callback runs: its calls are taken off the list, and made. -/
theorem LedTo.notify {s : EventContext × Io} {c : EventContext} {io : Io} (h : LedTo s (c, io))
    (isSet : Bool) (call : Call) : LedTo s (notify isSet call c io) := by
  unfold Wslay.notify
  cases isSet with
  | false => exact h
  | true =>
    simp only [if_true]
    cases hio : io.apps with
    | nil =>
      have hlog : (Event.aside (c, { io with calls := io.calls ++ [call], apps := [] })).Possible
          (c, io) := ⟨⟨rfl, rfl, fun l hl => by cases hl⟩, List.suffix_rfl⟩
      exact h.event hlog rfl hio.symm
    | cons calls rest =>
      obtain ⟨evs, ran, hwalk, hplay, hran, hcalls⟩ := h
      simp only
      obtain ⟨t, ht⟩ : ∃ t : EventContext × Io,
          (c, { io with calls := io.calls ++ [call], apps := rest }) = t := ⟨_, rfl⟩
      have hpop : (Event.aside t).Possible (c, io) := by
        subst ht
        refine ⟨⟨rfl, rfl, fun l hl => ?_⟩, List.suffix_rfl⟩
        rw [hio]
        exact List.mem_cons_of_mem _ hl
      rw [ht]
      obtain ⟨h1, h2, h3⟩ := walk_calls t calls
      refine ⟨evs ++ .aside t :: calls.map .call, ran ++ [calls], ?_, ?_, ?_, ?_⟩
      · rw [walk_append, hplay]
        exact ⟨hwalk, hpop, h1⟩
      · rw [play_append, hplay]
        exact h2
      · have hleft : (appCalls t calls).2.apps = rest := by
          rw [(appCalls_spares t calls).apps, ← ht]
        rw [hleft, hran, hio, List.append_assoc]
        rfl
      · rw [List.filterMap_append, List.filterMap_cons_none rfl, h3, hcalls, List.flatten_append]
        simp

/-- **Whatever the receiver does can be seen call by call.** -/
theorem ledTo_survives (s : EventContext × Io) : Survives (LedTo s) where
  aside := by
    intro t t' ha h
    exact h.event (e := .aside t') ⟨ha.sendSame, ha.mem⟩ rfl ha.apps
  notify := fun isSet call _ _ h => h.notify isSet call
  pong := fun data c io h =>
    h.event (e := .reply (.queueMsg ⟨pong, data⟩)) (.pong data) rfl (appCall_spares c io _).apps
  close := fun code reason c io h =>
    h.event (e := .reply (.queueClose code reason)) (.close code reason) rfl
      (appCall_spares c io _).apps

theorem exists_unfoldsOp (s : EventContext × Io) (op : Op) : ∃ evs, UnfoldsOp s op evs := by
  cases op with
  | call a => exact ⟨[.call a], ⟨trivial, trivial⟩, rfl, rfl⟩
  | recv =>
    obtain ⟨evs, ran, hwalk, hplay, hran, hcalls⟩ :=
      (ledTo_survives s).eventRecv ⟨[], [], trivial, rfl, rfl, rfl⟩
    exact ⟨evs, hwalk, hplay, ran, hran, hcalls⟩

/-- **Every run can be seen call by call.** -/
theorem exists_unfolds (s : EventContext × Io) (ops : List Op) : ∃ evs, Unfolds s ops evs := by
  induction ops generalizing s with
  | nil => exact ⟨[], .nil s⟩
  | cons op ops ih =>
    obtain ⟨evs, hop⟩ := exists_unfoldsOp s op
    obtain ⟨later, hlater⟩ := ih (step s op).2
    exact ⟨evs ++ later, .cons hop hlater⟩

/-! ## The invariant -/

/-- No message can be queued behind a Close. -/
def ClosedOff (s : EventContext × Io) : Prop :=
  s.2.CloseAccepted → eventIsMsgQueueable s.1 = false

theorem ClosedOff.congr {s s' : EventContext × Io} (hs : ClosedOff s)
    (hqueued : s'.2.queued = s.2.queued)
    (hrefused : eventIsMsgQueueable s.1 = false → eventIsMsgQueueable s'.1 = false) :
    ClosedOff s' := by
  rintro ⟨body, hbody⟩
  exact hrefused (hs ⟨body, hqueued ▸ hbody⟩)

/-- A message other than a Close has been queued. -/
theorem ClosedOff.queued {c c' : EventContext} {io io' : Io} {m : QueuedMsg}
    (hs : ClosedOff (c, io)) (hq : eventIsMsgQueueable c = true) (ha : io.Allocates io')
    (hm : ∀ body, m ≠ .msg ⟨connectionClose, body⟩) : ClosedOff (c', io'.noteQueued m) := by
  rintro ⟨body, hbody⟩
  have hold : QueuedMsg.msg ⟨connectionClose, body⟩ ∈ io.queued := by
    rw [Io.noteQueued, ha.eq, List.mem_append, List.mem_singleton] at hbody
    exact hbody.resolve_right fun h => hm body h.symm
  have := hs ⟨body, hold⟩
  rw [hq] at this
  cases this

theorem ClosedOff.allocates {c : EventContext} {io io' : Io} (hs : ClosedOff (c, io))
    (ha : io.Allocates io') : ClosedOff (c, io') := by
  rw [ha.eq]
  exact hs.congr rfl id

/-- **One call keeps it**, unless it queues a Close as a plain message. -/
theorem ClosedOff.appCall {c : EventContext} {io : Io} (hs : ClosedOff (c, io)) {a : AppCall}
    (ha : ∀ body, a = .queueMsg ⟨connectionClose, body⟩ → (appCall c io a).1 ≠ 0) :
    ClosedOff (appCall c io a).2 := by
  cases a with
  | queueMsg arg =>
    change ∀ body, AppCall.queueMsg arg = .queueMsg ⟨connectionClose, body⟩ →
      (eventQueueMsg c arg io).1 ≠ 0 at ha
    show ClosedOff (eventQueueMsg c arg io).2
    rcases eventQueueMsg_cases c arg io with ⟨-, heq⟩ | ⟨-, -, -, heq⟩ |
      ⟨hq, -, io', halloc, heq | ⟨-, r, -, -, heq⟩⟩ <;> rw [heq] at ha ⊢
    · exact hs
    · exact hs
    · refine hs.queued hq halloc fun body h => ha body ?_ rfl
      cases h
      rfl
    · exact hs.allocates halloc
  | queueFragmentedMsg arg =>
    show ClosedOff (eventQueueFragmentedMsg c arg io).2
    rcases eventQueueFragmentedMsg_cases c arg io with ⟨-, heq⟩ | ⟨-, -, heq⟩ |
      ⟨hq, -, io', halloc, heq | ⟨-, heq⟩⟩ <;> rw [heq]
    · exact hs
    · exact hs
    · exact hs.queued hq halloc fun body h => by cases h
    · exact hs.allocates halloc
  | queueClose code reason =>
    show ClosedOff (eventQueueClose c code reason io).2
    rcases eventQueueClose_cases c code reason io with ⟨-, heq⟩ | ⟨-, -, heq⟩ |
      ⟨-, -, io', halloc, heq | ⟨-, r, -, -, heq⟩⟩ <;> rw [heq]
    · exact hs
    · exact hs
    · intro _
      show (_ && !true) = false
      exact Bool.and_false _
    · exact hs.allocates halloc
  | send => exact hs.congr (eventSend_recvSame c io).2.1 fun h => eventSend_refused h io
  | setError val => exact hs.congr rfl id
  | shutdownRead => exact hs.congr rfl id
  | shutdownWrite => exact hs.congr rfl fun _ => rfl

/-! ## When a Close is accepted as a plain message -/

/-- `wslay_event_queue_msg` can accept a Close with this body: messages are taken, the body fits
in a control frame, and there is memory for the message, for its body and for its place in the
queue. -/
def AcceptsClose (s : EventContext × Io) (body : List UInt8) : Prop :=
  eventIsMsgQueueable s.1 = true ∧ body.length ≤ 125 ∧
    false ∉ s.2.mem.take (if body = [] then 2 else 3)

/-- Some allocations succeed when the first does, and the others after it. -/
theorem malloc_take (io : Io) (n : Nat) :
    false ∉ io.mem.take (n + 1) ↔ io.malloc.1 = true ∧ false ∉ io.malloc.2.mem.take n := by
  unfold Io.malloc
  cases hm : io.mem with
  | nil => simp [hm]
  | cons b bs => cases b <;> simp

theorem eventQueueMsg_close (c : EventContext) (body : List UInt8) (io : Io) :
    (eventQueueMsg c ⟨connectionClose, body⟩ io).1 = 0 ↔ AcceptsClose (c, io) body := by
  have hctrl : isCtrlFrame connectionClose = true := by decide
  have htwo : false ∉ io.mem.take 2 ↔ _ :=
    (malloc_take io 1).trans (and_congr_right' (malloc_take io.malloc.2 0))
  have hthree : false ∉ io.mem.take 3 ↔ _ :=
    (malloc_take io 2).trans (and_congr_right' ((malloc_take io.malloc.2 1).trans
      (and_congr_right' (malloc_take io.malloc.2.malloc.2 0))))
  unfold eventQueueMsg AcceptsClose
  cases hq : eventIsMsgQueueable c with
  | false => simp [Err.code]
  | true =>
    by_cases hlong : 125 < body.length
    · simp [hctrl, hlong, Err.code]
    · simp only [hctrl, hlong, decide_false, Bool.and_false, Bool.not_true, Bool.false_eq_true,
        if_false, if_true, true_and, Nat.le_of_not_lt hlong]
      unfold eventOmsgNonFragmentedNew
      by_cases hnil : body = []
      · simp only [if_pos hnil, htwo]
        rcases io.malloc with ⟨_ | _, io₁⟩
        · simp
        · simp only
          rcases io₁.malloc with ⟨_ | _, io₂⟩ <;> simp
      · simp only [if_neg hnil, hthree]
        rcases io.malloc with ⟨_ | _, io₁⟩
        · simp
        · simp only
          rcases io₁.malloc with ⟨_ | _, io₂⟩
          · simp
          · simp only
            rcases io₂.malloc with ⟨_ | _, io₃⟩ <;> simp

/-- A Close that `wslay_event_queue_msg` accepts leaves the door open. -/
theorem queueable_plainClose {s : EventContext × Io} {body : List UInt8} (h : AcceptsClose s body) :
    (appCall s.1 s.2 (.queueMsg ⟨connectionClose, body⟩)).2.2.CloseAccepted ∧
      eventIsMsgQueueable (appCall s.1 s.2 (.queueMsg ⟨connectionClose, body⟩)).2.1 = true := by
  have hzero := (eventQueueMsg_close s.1 body s.2).2 h
  show (eventQueueMsg s.1 ⟨connectionClose, body⟩ s.2).2.2.CloseAccepted ∧
    eventIsMsgQueueable (eventQueueMsg s.1 ⟨connectionClose, body⟩ s.2).2.1 = true
  rcases eventQueueMsg_cases s.1 ⟨connectionClose, body⟩ s.2 with ⟨-, heq⟩ | ⟨-, -, -, heq⟩ |
    ⟨hq, -, io', -, heq | ⟨-, r, hr, -, heq⟩⟩ <;> rw [heq] at hzero ⊢
  · cases hzero
  · cases hzero
  · exact ⟨⟨body, by simp [Io.noteQueued]⟩, (queueable_withMsg _ _).trans hq⟩
  · exact absurd hzero hr

/-! ## Runs -/

/-- **One event keeps it**, unless it is a Close that `wslay_event_queue_msg` accepts. -/
theorem ClosedOff.event {s : EventContext × Io} (hs : ClosedOff s) {e : Event}
    (he : e.Possible s)
    (hno : ∀ body, e = .call (.queueMsg ⟨connectionClose, body⟩) → ¬ AcceptsClose s body) :
    ClosedOff (e.after s) := by
  cases e with
  | call a =>
    refine hs.appCall ?_
    rintro body rfl hzero
    exact hno body rfl ((eventQueueMsg_close s.1 body s.2).1 hzero)
  | reply a =>
    refine hs.appCall ?_
    rintro body rfl
    cases he
  | aside t =>
    obtain ⟨hc, hqueued⟩ := queueable_congr he.1
    exact hs.congr hqueued hc.trans

/-- Once a Close has been accepted, nothing more is. -/
def NothingBehind (start : EventContext × Io) (evs : List Event) : Prop :=
  ∀ before, before <+: evs → (play start before).2.CloseAccepted → Refuses (play start before).1

/-- `wslay_event_queue_msg` is called with a Close only where it cannot accept it. -/
def NeverAccepts (start : EventContext × Io) (evs : List Event) : Prop :=
  ∀ before body, before ++ [.call (.queueMsg ⟨connectionClose, body⟩)] <+: evs →
    ¬ AcceptsClose (play start before) body

/-- **When nothing can be queued behind a Close**, in a run seen call by call, with the calls that
receive callbacks make. -/
theorem nothing_behind_close_iff (server : Bool) (callbacks : EventCallbacks) (noBuffering : Bool)
    (maxRecvMsgLength : Nat) {io : Io} (hio : io.queued = []) (ops : List Op) :
    (∃ evs, Unfolds (configured server callbacks noBuffering maxRecvMsgLength, io) ops evs) ∧
      ∀ evs, Unfolds (configured server callbacks noBuffering maxRecvMsgLength, io) ops evs →
        (∀ before, before <+: ops → ∃ evs', evs' <+: evs ∧
          play (configured server callbacks noBuffering maxRecvMsgLength, io) evs' =
            runOps (configured server callbacks noBuffering maxRecvMsgLength, io) before) ∧
        (NothingBehind (configured server callbacks noBuffering maxRecvMsgLength, io) evs ↔
          NeverAccepts (configured server callbacks noBuffering maxRecvMsgLength, io) evs) := by
  obtain ⟨start, hstart⟩ : ∃ start,
      (configured server callbacks noBuffering maxRecvMsgLength, io) = start := ⟨_, rfl⟩
  have hfresh : ClosedOff start := by
    rw [← hstart]
    rintro ⟨body, hbody⟩
    rw [hio] at hbody
    cases hbody
  rw [hstart]
  refine ⟨exists_unfolds start ops, fun evs hunfolds => ⟨fun _ => hunfolds.boundary, ?_, ?_⟩⟩
  · intro h before body hpre hok
    obtain ⟨haccepted, hopen⟩ := queueable_plainClose hok
    have hrefuses := h _ hpre
    rw [play_append] at hrefuses
    have hclosed := (refuses_iff _).1 (hrefuses haccepted)
    rw [show eventIsMsgQueueable (play (play start before)
      [.call (.queueMsg ⟨connectionClose, body⟩)]).1 = true from hopen] at hclosed
    cases hclosed
  · intro h before hpre haccepted
    refine (refuses_iff _).2 ((?_ : ClosedOff _) haccepted)
    clear haccepted
    -- event by event from the front of the run
    induction before using List.reverseRecOn with
    | nil => exact hfresh
    | append_singleton before e ih =>
      have hs := ih ((List.prefix_append _ _).trans hpre)
      obtain ⟨later, rfl⟩ := hpre
      have hwalk := hunfolds.walk
      rw [walk_append, walk_append] at hwalk
      rw [play_append]
      exact hs.event hwalk.1.2.1 fun body he => h before body (he ▸ List.prefix_append _ _)

/-- The peer closes, and the callback that is told of it answers with a Close of its own. -/
def answeredIo : Io :=
  { recvs := [.data [0x88, 0x02, 0x03, 0xe8]]
    apps := [[.queueMsg ⟨connectionClose, []⟩]] }

theorem nothing_behind_close_iff_answered :
    (∃ evs, Unfolds (configured false ⟨false, false, false, true⟩ false 100, answeredIo) [.recv]
      evs) ∧
    ∀ evs, Unfolds (configured false ⟨false, false, false, true⟩ false 100, answeredIo) [.recv]
        evs →
      (∀ before, before <+: [.recv] → ∃ evs', evs' <+: evs ∧
        play (configured false ⟨false, false, false, true⟩ false 100, answeredIo) evs' =
          runOps (configured false ⟨false, false, false, true⟩ false 100, answeredIo) before) ∧
      (NothingBehind (configured false ⟨false, false, false, true⟩ false 100, answeredIo) evs ↔
        NeverAccepts (configured false ⟨false, false, false, true⟩ false 100, answeredIo) evs) :=
  nothing_behind_close_iff false ⟨false, false, false, true⟩ false 100 rfl [.recv]

/-- A client that has handed a Close to `wslay_event_queue_msg`. -/
def plainClosed : EventContext × Io :=
  runOps (configured false ⟨false, false, false, false⟩ false 100, {})
    [.call (.queueMsg ⟨connectionClose, []⟩)]

/-- A Ping is queued behind the Close. -/
theorem plainClosed_open :
    plainClosed.2.queued = [.msg ⟨connectionClose, []⟩] ∧
      (appCall plainClosed.1 plainClosed.2 (.queueMsg ⟨ping, [1]⟩)).1 = 0 ∧
      (appCall plainClosed.1 plainClosed.2 (.queueMsg ⟨ping, [1]⟩)).2.1.sendCtrlQueue.length = 2 := by
  decide +kernel

end Wslay
