import Wslay.Event.Dispatch
import Wslay.Event.Draining
import Wslay.Event.Tape
import Wslay.Event.AfterClose

/-!
# How sending comes to its end

A context sends, receives and answers in any order of calls, and at some time a Close is
queued.  Writing ends with a Close that is complete on the wire and in no other way, and
the status code that is noted is the one in its body.

* `Op.Polite` — the calls that are made.
* `Parting` — **the invariant**.
* `Parting.step` — every call keeps it, and `wslay_event_send` succeeds.
* `writing_ends_with_close`, `queued_close_is_sent` — the results.
-/

namespace Wslay

open Loop (Step)

/-! ## The calls -/

/-- The calls that are made: opcodes have four bits, what is queued can be sent, and
writing is not shut down by hand. -/
def Op.Polite : Op → Prop
  | .call (.queueMsg arg) => arg.opcode.toNat < 16 ∧ arg.msg.length < 2 ^ 63
  | .call (.queueFragmentedMsg arg) => arg.opcode.toNat < 16 ∧ ∀ r ∈ arg.source, r.IsData
  | .call (.queueClose _ _) => True
  | .call .send => True
  | .call (.setError _) => False
  | .call .shutdownRead => True
  | .call .shutdownWrite => False
  | .recv => True

/-- The frame is to be of a message that has been queued. -/
def Io.HasQueued (io : Io) (o : Outline) : Prop :=
  ∃ arg, QueuedMsg.msg arg ∈ io.queued ∧ arg.opcode.toNat < 16 ∧
    (QueuedMsg.msg arg).omsg.outline = o

theorem Io.HasQueued.mono {io io' : Io} (h : io.queued <+: io'.queued) {o : Outline}
    (ho : io.HasQueued o) : io'.HasQueued o := by
  obtain ⟨arg, harg, hlow, rfl⟩ := ho
  exact ⟨arg, h.subset harg, hlow, rfl⟩

/-- What is allowed may be more. -/
theorem Dispatch.mono {P P' : Outline → Prop} {s : EventContext × Io} {sent : List Frame}
    {owed : List UInt8} (hd : Dispatch P s sent owed) (hP : ∀ o, P o → P' o) :
    Dispatch P' s sent owed := by
  refine { hd with ctrl := ?_, ctrlQueue := ?_ }
  · intro o ho
    exact hP o (hd.ctrl o ho)
  · intro m hm
    obtain ⟨hfine, hallowed⟩ := hd.ctrlQueue m hm
    exact ⟨hfine, hP _ hallowed⟩

/-! ## The invariant -/

/-- **The context is in order until its Close has been sent, and afterwards.** -/
structure Parting (cfg : RxConfig) (s : EventContext × Io) : Prop where
  dispatch : ∃ sent owed, Dispatch s.2.HasQueued s sent owed
  accounted : Accounted s
  receives : s.1.readEnabled = true → ∃ rx d look, Listens cfg s rx d look ∧ rx.Sound cfg
  quiet : s.2.Quiet
  apps : s.2.apps = []

section

variable {cfg : RxConfig} {s s' : EventContext × Io} {data ctrl : List EventOmsg}

theorem Parting.mem (h : Parting cfg s) : s.2.MemOk := by
  obtain ⟨sent, owed, hd⟩ := h.dispatch
  exact hd.mem

/-- Whatever the frames are, the queues are in order. -/
theorem Parting.onCourse (h : Parting cfg s) : OnCourse False (fun _ => True) s := by
  obtain ⟨sent, owed, hd⟩ := h.dispatch
  exact ⟨False.elim, sent, owed, hd.course, trivial⟩

theorem extends_any {closing : Prop} : Extends closing fun _ => True := fun _ _ _ _ => trivial

/-- **What is queued** is entered in the account of the sender. -/
theorem Parting.enqueues (h : Parting cfg s) (he : Enqueues s s' data ctrl)
    (hdata : ∀ m ∈ data, m.FitData ∧ m.Fine) (hctrl : ∀ m ∈ ctrl, m.Allowed s'.2.HasQueued)
    (hopen : data = [] ∨ s.1.writeEnabled = true) (hsends : s'.2.sends = s.2.sends)
    (hmasks : s'.2.masks = s.2.masks) (hqueued : s.2.queued <+: s'.2.queued)
    (hquiet : s'.2.Quiet) (hmem : s'.2.MemOk) :
    ∃ sent owed, Dispatch s'.2.HasQueued s' sent owed := by
  obtain ⟨sent, owed, hd⟩ := h.dispatch
  have hwilling : s'.2.Willing := by
    refine ⟨hquiet.error, ?_, ?_⟩
    · rw [hsends]
      exact hd.willing.sends
    · rw [hmasks]
      exact hd.willing.masks
  have hd' := hd.mono fun o ho => ho.mono hqueued
  exact ⟨sent, owed, hd'.enqueues he hdata hctrl hopen hwilling hmem⟩

/-- A call of the application leaves the receiver alone. -/
theorem Parting.aside (h : Parting cfg s) (a : AppCall) (heq : (appCall s.1 s.2 a).2 = s')
    (hquiet : s'.2.Quiet) (hd : ∃ sent owed, Dispatch s'.2.HasQueued s' sent owed) :
    Parting cfg s' := by
  have hsp : Spares s s' := by
    rw [← heq]
    exact appCall_spares s.1 s.2 a
  refine ⟨hd, ?_, ?_, hquiet, hsp.apps.trans h.apps⟩
  · rw [← heq]
    exact h.accounted.appCall a
  · intro hon
    obtain ⟨rx, d, look, hl, hsound⟩ := h.receives (hsp.enabled hon)
    exact ⟨rx, d, look, hl.spares hsp, hsound⟩

end

/-! ## Queueing -/

section

variable {cfg : RxConfig} {c c' : EventContext} {io io' : Io} {q : QueuedMsg}

theorem Io.Allocates.enqueues (ha : io.Allocates io') (c : EventContext) :
    Enqueues (c, io) (c, io') [] [] := by
  have he := Enqueues.refl (c, io)
  refine { he with queuedData := ?_, wire := ?_, apps := ?_ }
  · show io'.queuedData = io.queuedData ++ []
    rw [ha.eq, List.append_nil]
    rfl
  · show io'.wire = io.wire
    rw [ha.eq]
  · show io'.apps = io.apps
    rw [ha.eq]

theorem Io.Allocates.quiet (ha : io.Allocates io') (hq : io.Quiet) : io'.Quiet := by
  rw [ha.eq]
  exact ⟨hq.error, hq.recvs⟩

/-- **A message has been queued**, after some allocations. -/
theorem Parting.queued (h : Parting cfg (c, io)) (ha : io.Allocates io')
    {data ctrl : List EventOmsg} (he : Enqueues (c, io') (c', io'.noteQueued q) data ctrl)
    (hdata : ∀ m ∈ data, m.FitData ∧ m.Fine)
    (hctrl : ∀ m ∈ ctrl, m.FitCtrl ∧ m.Fine ∧ m.opcode.toNat < 16 ∧
      ∃ arg, q = .msg arg ∧ m = q.omsg)
    (hlive : c.writeEnabled = true) :
    (io'.noteQueued q).Quiet ∧ ∃ sent owed,
      Dispatch (io'.noteQueued q).HasQueued (c', io'.noteQueued q) sent owed := by
  have hquiet : (io'.noteQueued q).Quiet :=
    ⟨(ha.quiet h.quiet).error, (ha.quiet h.quiet).recvs⟩
  have hqueued : (io'.noteQueued q).queued = io.queued ++ [q] := by
    rw [ha.eq]
    rfl
  refine ⟨hquiet, h.enqueues ((ha.enqueues c).trans he) hdata ?_ (Or.inr hlive) ?_ ?_ ?_ hquiet ?_⟩
  · intro m hm
    obtain ⟨hfit, hfine, hlow, arg, rfl, rfl⟩ := hctrl m hm
    refine ⟨hfit, hfine, hlow, arg, ?_, hlow, rfl⟩
    rw [hqueued]
    exact List.mem_append_right _ (List.mem_singleton_self _)
  · show io'.sends = io.sends
    rw [ha.eq]
  · show io'.masks = io.masks
    rw [ha.eq]
  · show io.queued <+: (io'.noteQueued q).queued
    rw [hqueued]
    exact List.prefix_append _ _
  · exact ha.memOk h.mem

theorem writeEnabled_of_queueable {c : EventContext} (hq : eventIsMsgQueueable c = true) :
    c.writeEnabled = true := by
  unfold eventIsMsgQueueable at hq
  exact (Bool.and_eq_true_iff.1 hq).1

/-- A message that is sent in one frame. -/
theorem EventMsg.fine {arg : EventMsg} (hlen : arg.msg.length < 2 ^ 63) :
    (QueuedMsg.msg arg).omsg.Fine := by
  refine ⟨hlen, ?_⟩
  intro r hr
  cases hr

theorem Parting.queueMsg (h : Parting cfg (c, io)) {arg : EventMsg} (hlow : arg.opcode.toNat < 16)
    (hlen : arg.msg.length < 2 ^ 63) : Parting cfg (eventQueueMsg c arg io).2 := by
  rcases eventQueueMsg_cases c arg io with ⟨-, heq⟩ | ⟨-, -, -, heq⟩ |
    ⟨hq, hshort, io', ha, heq | ⟨hmem, -⟩⟩
  · rw [heq]
    exact h
  · rw [heq]
    exact h
  · have hlive := writeEnabled_of_queueable hq
    rw [heq]
    obtain ⟨hquiet, hd⟩ : (io'.noteQueued (.msg arg)).Quiet ∧ ∃ sent owed,
        Dispatch (io'.noteQueued (.msg arg)).HasQueued
          (c.withMsg arg, io'.noteQueued (.msg arg)) sent owed := by
      cases hctrl : isCtrlFrame arg.opcode with
      | true =>
        refine h.queued ha (enqueues_ctrl c io' hctrl) ?_ ?_ hlive
        · intro m hm
          cases hm
        · intro m hm
          rw [List.mem_singleton.1 hm]
          exact ⟨⟨rfl, rfl, hctrl, hshort hctrl⟩, EventMsg.fine hlen, hlow, arg, rfl, rfl⟩
      | false =>
        refine h.queued ha (enqueues_data c io' hctrl) ?_ ?_ hlive
        · intro m hm
          rw [List.mem_singleton.1 hm]
          exact ⟨⟨hctrl, Or.inl ⟨rfl, rfl⟩⟩, EventMsg.fine hlen⟩
        · intro m hm
          cases hm
    exact h.aside (.queueMsg arg) (congrArg Prod.snd heq) hquiet hd
  · exact absurd h.mem hmem

theorem Parting.queueFragmentedMsg (h : Parting cfg (c, io)) {arg : EventFragmentedMsg}
    (hsource : ∀ r ∈ arg.source, r.IsData) :
    Parting cfg (eventQueueFragmentedMsg c arg io).2 := by
  rcases eventQueueFragmentedMsg_cases c arg io with ⟨-, heq⟩ | ⟨-, -, heq⟩ |
    ⟨hq, hdata, io', ha, heq | ⟨hmem, -⟩⟩
  · rw [heq]
    exact h
  · rw [heq]
    exact h
  · have hlive := writeEnabled_of_queueable hq
    rw [heq]
    obtain ⟨hquiet, hd⟩ := h.queued ha (enqueues_fragmented c io' hdata) (by
      intro m hm
      rw [List.mem_singleton.1 hm]
      refine ⟨⟨hdata, Or.inr ⟨rfl, rfl⟩⟩, ?_, hsource⟩
      exact (by decide : ([] : List UInt8).length < 2 ^ 63)) (fun m hm => by cases hm) hlive
    exact h.aside (.queueFragmentedMsg arg) (congrArg Prod.snd heq) hquiet hd
  · exact absurd h.mem hmem

theorem Parting.queueClose (h : Parting cfg (c, io)) (code : UInt16) (reason : List UInt8) :
    Parting cfg (eventQueueClose c code reason io).2 := by
  rcases eventQueueClose_cases c code reason io with ⟨-, heq⟩ | ⟨-, -, heq⟩ |
    ⟨hq, hshort, io', ha, heq | ⟨hmem, -⟩⟩
  · rw [heq]
    exact h
  · rw [heq]
    exact h
  · have hlive := writeEnabled_of_queueable hq
    have hlen := length_closeBody code hshort
    rw [heq]
    obtain ⟨hquiet, hd⟩ := h.queued ha (enqueues_close c io' code reason)
      (fun m hm => by cases hm) (by
      intro m hm
      rw [List.mem_singleton.1 hm]
      refine ⟨⟨rfl, rfl, ?_, hlen⟩, EventMsg.fine (Nat.lt_of_le_of_lt hlen (by decide)), ?_,
        closeMsg code reason, rfl, rfl⟩
      · exact (by decide : isCtrlFrame connectionClose = true)
      · exact (by decide : connectionClose.toNat < 16)) hlive
    exact h.aside (.queueClose code reason) (congrArg Prod.snd heq) hquiet hd
  · exact absurd h.mem hmem

end

/-! ## Sending and receiving -/

section

variable {cfg : RxConfig} {s : EventContext × Io} {op : Op}

/-- **`wslay_event_send` succeeds.** -/
theorem Parting.send (h : Parting cfg s) :
    (eventSend s.1 s.2).1 = 0 ∧ Parting cfg (eventSend s.1 s.2).2 := by
  obtain ⟨sent, owed, hd⟩ := h.dispatch
  obtain ⟨hzero, -, begun, owed', hd'⟩ := hd.eventSend
  obtain ⟨hsame, hqueued, -⟩ := eventSend_recvSame s.1 s.2
  have hquiet : (eventSend s.1 s.2).2.2.Quiet := by
    refine ⟨hd'.willing.error, ?_⟩
    rw [hsame.recvs]
    exact h.quiet.recvs
  refine ⟨hzero, h.aside .send rfl hquiet ⟨sent ++ begun, owed', hd'.mono ?_⟩⟩
  intro o ho
  refine ho.mono ?_
  rw [hqueued]

theorem Parting.shutdownRead (h : Parting cfg s) :
    Parting cfg (appCall s.1 s.2 .shutdownRead).2 := by
  have he : Enqueues s (appCall s.1 s.2 .shutdownRead).2 [] [] :=
    { Enqueues.refl s with closing := Or.inl }
  refine h.aside .shutdownRead rfl h.quiet
    (h.enqueues he ?_ ?_ (Or.inl rfl) rfl rfl ?_ h.quiet h.mem)
  · intro m hm
    cases hm
  · intro m hm
    cases hm
  · exact List.prefix_rfl

/-- The world in which some replies have been queued. -/
theorem sendHalf_answerAll (s : EventContext × Io) (rs : List Reply) :
    (answerAll s rs).2.sends = s.2.sends ∧ (answerAll s rs).2.masks = s.2.masks := by
  induction rs generalizing s with
  | nil => exact ⟨rfl, rfl⟩
  | cons r rs ih => exact ih (answer s r)

/-- Nothing is queued when nothing can be. -/
theorem Follows.unqueueable {s' : EventContext × Io} {R : Report} (h : Follows s s' R)
    (hended : Ended s.2.queued s') : R.replies = [] := by
  obtain ⟨hqueued, -⟩ := h.queues
  rw [hended.2] at hqueued
  have hnil := List.append_right_eq_self.1 hqueued.symm
  exact List.map_eq_nil_iff.1 hnil

/-- **The automatic replies are such as may be queued.** -/
theorem Parting.replies (h : Parting cfg s) {R : Report}
    (hf : Follows s (eventRecv s.1 s.2).2 R) :
    ∀ m ∈ R.replies.map Reply.omsg, m.Allowed (eventRecv s.1 s.2).2.2.HasQueued := by
  have hcourse := (onCourse_kept extends_any).eventRecv h.onCourse
  obtain ⟨-, sent, owed, hc, -⟩ := hcourse
  obtain ⟨hqueued, hqueue⟩ := hf.queues
  have he := hf.enqueues
  intro m hm
  obtain ⟨r, hr, rfl⟩ := List.mem_map.1 hm
  have hin : r.omsg ∈ (eventRecv s.1 s.2).2.1.sendCtrlQueue := by
    rw [hqueue]
    exact List.mem_append_right _ hm
  have hopen : s.1.writeEnabled = true := by
    by_contra hshut
    have hq : eventIsMsgQueueable s.1 = false := by
      unfold eventIsMsgQueueable
      rw [Bool.eq_false_iff.2 hshut]
      rfl
    have hended : Ended s.2.queued (eventRecv s.1 s.2).2 :=
      (ended_kept s.2.queued).eventRecv ⟨hq, rfl⟩
    rw [hf.unqueueable hended] at hr
    cases hr
  obtain ⟨hand, -, -, hfit, -⟩ := hc.live (he.enabled.trans hopen)
  have hctrl := hfit.ctrl _ hin
  have hlow := hc.low _ hin
  refine ⟨hctrl, ⟨Nat.lt_of_le_of_lt hctrl.2.2.2 (by decide), ?_⟩, hlow, r.msg, ?_, hlow, rfl⟩
  · intro x hx
    cases hx
  · rw [hqueued]
    exact List.mem_append_right _ (List.mem_map_of_mem hr)

/-- What a call of `wslay_event_recv` reads while reading goes on. -/
theorem Parting.trace (h : Parting cfg s) (hon : s.1.readEnabled = true) :
    ∃ rx d look new items d' look', Trace cfg (eventIsMsgQueueable s.1) s rx d look
      (eventRecv s.1 s.2).2 new items d' look' := by
  obtain ⟨rx, d, look, hl, hsound⟩ := h.receives hon
  have hruns : Runs cfg (eventIsMsgQueueable s.1) s rx d look :=
    ⟨hl, hsound, hon, h.apps, h.mem, h.quiet, rfl⟩
  obtain ⟨new, items, d', look', ht, -⟩ := eventRecv_trace hruns
  exact ⟨rx, d, look, new, items, d', look', ht⟩

/-- **Receiving** queues the automatic replies, and disturbs nothing. -/
theorem Parting.recv (h : Parting cfg s) : Parting cfg (eventRecv s.1 s.2).2 := by
  by_cases hon : s.1.readEnabled = true
  · obtain ⟨rx, d, look, new, items, d', look', ht⟩ := h.trace hon
    have hf := ht.follows
    have hio := congrArg Prod.snd hf.send
    obtain ⟨hsends, hmasks⟩ :=
      sendHalf_answerAll s (rx.run (eventIsMsgQueueable s.1) cfg items).replies
    simp only [sendPart, Io.sendHalf, Prod.mk.injEq] at hio
    have hd : ∃ sent owed,
        Dispatch (eventRecv s.1 s.2).2.2.HasQueued (eventRecv s.1 s.2).2 sent owed := by
      refine h.enqueues hf.enqueues ?_ (h.replies hf) (Or.inl rfl) (hio.1.trans hsends)
        (hio.2.1.trans hmasks) ?_ (hf.quiet h.quiet) ?_
      · intro m hm
        cases hm
      · rw [hf.queues.1]
        exact List.prefix_append _ _
      · intro hfail
        exact h.mem (hf.mem.subset hfail)
    refine ⟨hd, accounted_kept.eventRecv h.accounted, ?_, hf.quiet h.quiet, hf.apps.trans h.apps⟩
    intro hon'
    have hlive : (rx.run (eventIsMsgQueueable s.1) cfg items).fate.isLive = true := by
      rw [hf.enabled] at hon'
      exact (Bool.and_eq_true_iff.1 hon').1
    cases hfate : (rx.run (eventIsMsgQueueable s.1) cfg items).fate with
    | live rx' =>
      obtain ⟨hl', hsound'⟩ := ht.listens rx' hfate
      exact ⟨rx', d', look', hl', hsound'⟩
    | off heard r =>
      rw [hfate] at hlive
      cases hlive
  · rw [eventRecv_off (Bool.eq_false_iff.2 hon)]
    exact h

/-- **Every call keeps the invariant.** -/
theorem Parting.step (h : Parting cfg s) (hop : op.Polite) : Parting cfg (step s op).2 := by
  cases op with
  | recv => exact h.recv
  | call a =>
    cases a with
    | queueMsg arg => exact h.queueMsg hop.1 hop.2
    | queueFragmentedMsg arg => exact h.queueFragmentedMsg hop.2
    | queueClose code reason => exact h.queueClose code reason
    | send => exact h.send.2
    | shutdownRead => exact h.shutdownRead
    | setError val => exact hop.elim
    | shutdownWrite => exact hop.elim

/-- **So does a run.** -/
theorem Parting.run (h : Parting cfg s) {ops : List Op} (hops : ∀ op ∈ ops, op.Polite) :
    Parting cfg (runOps s ops) :=
  runOps_inv (fun _ _ hop ht => ht.step hop) hops h

theorem configured_parting (server : Bool) (callbacks : EventCallbacks) (noBuffering : Bool)
    (limit : Nat) {io : Io} (hio : io.Fresh) (hcalm : io.Calm) (hwilling : io.Willing) :
    Parting (.of server callbacks noBuffering limit)
      (configured server callbacks noBuffering limit, io) := by
  have hruns := configured_runs server callbacks noBuffering limit hcalm
  refine ⟨⟨[], [], ?_⟩, accounted_configured _ _ _ _ hio, ?_, hcalm.quiet, hcalm.apps⟩
  · exact configured_dispatch _ server callbacks noBuffering limit hio hcalm.apps hwilling hcalm.mem
  · intro _
    exact ⟨_, _, _, hruns.listens, hruns.sound⟩

end

/-! ## The end of sending -/

/-- **The frames begun are `sent`, and `owed` of the last one is still to come.**  They
carry what has been queued, writing is over when a Close is complete and only then, and
that is what the flags and the status code say. -/
structure Leaves (s : EventContext × Io) (sent : List Frame) (owed : List UInt8) : Prop where
  wire : s.2.wire ++ owed = sent.flatMap Frame.encode
  legit : ∀ f ∈ sent, f.Legit s.1.server
  data : dataOutlines sent <+: plans s.2.queuedData []
  ctrl : ∀ o ∈ ctrlOutlines sent, s.2.HasQueued o
  only : ∀ f ∈ sent.dropLast, ¬ f.IsClose
  ends : s.1.writeEnabled = false ↔ LastIsClose sent ∧ owed = []
  noted : s.1.closeStatus.sent = !s.1.writeEnabled
  code : s.1.writeEnabled = false →
    ∃ f, sent.getLast? = some f ∧ f.IsClose ∧ s.1.statusCodeSent = codeOf f.payload

theorem Dispatch.leaves {s : EventContext × Io} {sent : List Frame} {owed : List UInt8}
    (hd : Dispatch s.2.HasQueued s sent owed) : Leaves s sent owed := by
  have hends : s.1.writeEnabled = false ↔ LastIsClose sent ∧ owed = [] := by
    constructor
    · intro hoff
      obtain ⟨howed, -, f, hf, hclose, -⟩ := hd.finished hoff
      exact ⟨⟨f, hf, hclose⟩, howed⟩
    · rintro ⟨hlast, howed⟩
      exact hd.course.shut (hd.course.done hlast howed)
  refine ⟨hd.course.wire, hd.course.legit, hd.front, hd.ctrl, hd.course.only, hends, ?_, ?_⟩
  · cases hon : s.1.writeEnabled with
    | true =>
      by_contra hsent
      have hoff := hd.course.shut (by simpa using hsent)
      rw [hon] at hoff
      cases hoff
    | false => exact (hd.finished hon).2.1
  · intro hoff
    exact (hd.finished hoff).2.2

/-- **Sending ends with a Close, and in no other way.**  The callbacks keep their
contracts, there is memory, the application only looks on in its callbacks, and it queues,
sends and receives in any order.  Then `wslay_event_send` always succeeds, the frames on
the wire carry what has been queued, nothing follows a Close, and writing is over just
when a Close is complete on the wire, which is when `close_sent` and the status code are
noted. -/
theorem writing_ends_with_close (server : Bool) (callbacks : EventCallbacks) (noBuffering : Bool)
    (limit : Nat) {io : Io} (hio : io.Fresh) (hcalm : io.Calm) (hwilling : io.Willing)
    {ops : List Op} (hops : ∀ op ∈ ops, op.Polite) :
    let s := runOps (configured server callbacks noBuffering limit, io) ops
    (∃ sent owed, Leaves s sent owed) ∧ (step s (.call .send)).1 = 0 := by
  intro s
  have hs : Parting (.of server callbacks noBuffering limit) s :=
    (configured_parting server callbacks noBuffering limit hio hcalm hwilling).run hops
  obtain ⟨sent, owed, hd⟩ := hs.dispatch
  exact ⟨⟨sent, owed, hd.leaves⟩, hs.send.1⟩

/-- A server is asked something, answers, and takes its leave. -/
def leavingIo : Io where
  recvs := [.data [0x89, 0x81, 0, 0, 0, 0, 5]]
  sends := .accept 3 :: List.replicate 9 (.accept 100)

def leavingCalls : List Op :=
  [.call (.queueMsg ⟨textFrame, [104, 105]⟩), .call .send, .recv, .call (.queueClose 1001 [98]),
    .call .send]

theorem leavingIo_calm : leavingIo.Calm := by
  refine ⟨rfl, ?_, ⟨Or.inl rfl, ?_⟩, rfl, rfl, rfl⟩
  · exact (by decide : false ∉ ([] : List Bool))
  · intro e he
    rcases List.mem_singleton.1 he with h
    cases h

theorem leavingIo_willing : leavingIo.Willing := by
  refine ⟨Or.inl rfl, ?_, (by decide : none ∉ ([] : List (Option Octets.Key)))⟩
  intro r hr
  rcases List.mem_cons.1 hr with rfl | hr
  · trivial
  · rw [(List.mem_replicate.1 hr).2]
    trivial

theorem leavingCalls_polite : ∀ op ∈ leavingCalls, op.Polite := by
  intro op hop
  simp only [leavingCalls, List.mem_cons, List.not_mem_nil, or_false] at hop
  rcases hop with rfl | rfl | rfl | rfl | rfl
  · exact ⟨by decide, by decide⟩
  all_goals trivial

theorem writing_ends_with_close_leaving :
    let s := runOps (configured true ⟨true, true, true, true⟩ false 100, leavingIo) leavingCalls
    (∃ sent owed, Leaves s sent owed) ∧ (step s (.call .send)).1 = 0 :=
  writing_ends_with_close true ⟨true, true, true, true⟩ false 100 ⟨rfl, rfl, rfl, rfl, rfl, rfl⟩
    leavingIo_calm leavingIo_willing leavingCalls_polite

/-- The text comes first, and the Close in place of the Pong. -/
example : (runOps (configured true ⟨true, true, true, true⟩ false 100, leavingIo)
    leavingCalls).2.wire = [0x81, 2, 104, 105, 0x88, 3, 0x03, 0xe9, 98] := by
  decide +kernel

/-! ## A Close that is queued -/

/-- **A Close has been queued**, and `queued` is all that has been. -/
structure Departing (cfg : RxConfig) (queued : List QueuedMsg) (s : EventContext × Io) :
    Prop where
  parting : Parting cfg s
  closing : OnCourse True (fun _ => True) s
  ended : Ended queued s

/-- Writing is over, or `send_callback` takes no more. -/
def Unsendable (s : EventContext × Io) : Prop := s.1.writeEnabled = false ∨ s.2.sends = []

theorem Op.Polite.low {a : AppCall} (h : Op.Polite (.call a)) : a.LowOpcode := by
  cases a with
  | queueMsg arg => exact h.1
  | queueFragmentedMsg arg => exact h.1
  | queueClose code reason => trivial
  | send => trivial
  | setError val => trivial
  | shutdownRead => trivial
  | shutdownWrite => trivial

/-- As long as the Close has not been sent there is something to be sent. -/
theorem OnCourse.unwanted {s : EventContext × Io} (h : OnCourse True (fun _ => True) s)
    (hwant : eventWantWrite s.1 = false) : s.1.writeEnabled = false := by
  obtain ⟨hqueued, sent, owed, hc, -⟩ := h
  by_contra hon
  have hlive : s.1.writeEnabled = true := by simpa using hon
  unfold eventWantWrite at hwant
  rw [hlive, Bool.true_and] at hwant
  simp only [Bool.or_eq_false_iff] at hwant
  obtain ⟨m, -, hin | homsg⟩ := hc.closeAhead hlive (hqueued trivial)
  · have hnil : s.1.sendCtrlQueue = [] := by simpa using hwant.1.2
    rw [hnil] at hin
    cases hin
  · rw [homsg] at hwant
    cases hwant.2

/-- **No `read_callback` holds up a Close.** -/
theorem OnCourse.moved {s : EventContext × Io} (h : OnCourse True (fun _ => True) s) :
    Moved s (eventSend s.1 s.2).2 := by
  obtain ⟨u, r, ⟨hqueued, sent, owed, hc, -⟩, hle, hleave⟩ :=
    eventSend_last h fun v hv => hv.sendPass extends_any
  cases hlive : u.1.writeEnabled with
  | false =>
    have hwant := wantWrite_off hlive
    rw [sendPass_unwanted hwant] at hleave
    cases hleave
    exact .done hwant
  | true =>
    obtain ⟨hand, hh, hsettled, hfit, -, -, hahead⟩ := hc.live hlive
    refine (sendPass_moved hh hfit ?_ hleave).of_le hle
    rcases hahead (hqueued trivial) with ⟨m, hm, -⟩ | hclose
    · exact Or.inl (List.ne_nil_of_mem hm)
    · obtain ⟨m, rest, rfl, -⟩ := hsettled.close hclose
      exact Or.inr id

section

variable {cfg : RxConfig} {queued : List QueuedMsg} {s : EventContext × Io} {op : Op}

theorem Departing.step (h : Departing cfg queued s) (hop : op.Polite) :
    Departing cfg queued (step s op).2 := by
  refine ⟨h.parting.step hop, ?_, ?_⟩
  · cases op with
    | call a => exact h.closing.appCall extends_any hop.low
    | recv => exact (onCourse_kept extends_any).eventRecv h.closing
  · cases op with
    | call a => exact (ended_kept queued).call trivial h.ended
    | recv => exact (ended_kept queued).eventRecv h.ended

/-- Other calls than `wslay_event_send` leave what there is to be sent as it is. -/
theorem Departing.idle (h : Departing cfg queued s) (hop : op.Polite) (hne : op ≠ .call .send) :
    (Wslay.step s op).2.2.sends = s.2.sends ∧
      (Wslay.step s op).2.1.workLeft = s.1.workLeft := by
  cases op with
  | recv =>
    show (eventRecv s.1 s.2).2.2.sends = s.2.sends ∧
      (eventRecv s.1 s.2).2.1.workLeft = s.1.workLeft
    by_cases hon : s.1.readEnabled = true
    · obtain ⟨rx, d, look, new, items, d', look', ht⟩ := h.parting.trace hon
      have hended : Ended s.2.queued (eventRecv s.1 s.2).2 :=
        (ended_kept s.2.queued).eventRecv ⟨h.ended.1, rfl⟩
      have hsend := ht.follows.send
      rw [ht.follows.unqueueable hended] at hsend
      have hc := congrArg Prod.fst hsend
      have hio := congrArg Prod.snd hsend
      simp only [sendPart, answerAll, List.foldl_nil, EventContext.sendHalf, Io.sendHalf,
        Prod.mk.injEq] at hc hio
      obtain ⟨-, -, -, -, -, -, homsg, hqueue, hctrl, -, -, hobuf, hmark, -, -⟩ := hc
      refine ⟨hio.1, ?_⟩
      unfold EventContext.workLeft
      rw [homsg, hqueue, hctrl, hobuf, hmark]
    · rw [eventRecv_off (Bool.eq_false_iff.2 hon)]
      exact ⟨rfl, rfl⟩
  | call a =>
    by_cases hqueues : a.Queues
    · have hsame : (Wslay.step s (.call a)).2 = s := (appCall_refused h.ended.1 hqueues s.2).2
      rw [hsame]
      exact ⟨rfl, rfl⟩
    · cases a with
      | queueMsg arg => exact absurd trivial hqueues
      | queueFragmentedMsg arg => exact absurd trivial hqueues
      | queueClose code reason => exact absurd trivial hqueues
      | send => exact absurd rfl hne
      | setError val => exact hop.elim
      | shutdownRead => exact ⟨rfl, rfl⟩
      | shutdownWrite => exact hop.elim

theorem Departing.unsendable (h : Departing cfg queued s) (hop : op.Polite) (hs : Unsendable s) :
    Unsendable (Wslay.step s op).2 := by
  rcases hs with hoff | hnil
  · have hsilent : Silent s.2.wire s.2.offers s := ⟨hoff, rfl, rfl⟩
    refine Or.inl ?_
    cases op with
    | call a => exact ((silent_kept s.2.wire s.2.offers).call trivial hsilent).1
    | recv => exact ((silent_kept s.2.wire s.2.offers).eventRecv hsilent).1
  · refine Or.inr ?_
    by_cases heq : op = .call .send
    · subst heq
      have hle := eventSend_sends s
      rw [hnil] at hle
      exact List.eq_nil_of_length_eq_zero (Nat.le_zero.1 hle)
    · exact (h.idle hop heq).1.trans hnil

/-- A call of `wslay_event_send` ends writing, or uses something up. -/
theorem Departing.advances (h : Departing cfg queued s) :
    Unsendable (Wslay.step s (.call .send)).2 ∨
      budget (Wslay.step s (.call .send)).2 < budget s := by
  have hlow : AppCall.LowOpcode .send := trivial
  have hnext := h.closing.appCall extends_any hlow
  cases h.closing.moved with
  | done hwant => exact Or.inl (Or.inl (hnext.unwanted hwant))
  | less hlt => exact Or.inr hlt
  | blocked hnil => exact Or.inl (Or.inr hnil)

/-- **In a run with enough calls of `wslay_event_send`** writing comes to its end, whatever
the other calls are. -/
theorem Departing.ends (h : Departing cfg queued s) {ops : List Op}
    (hops : ∀ op ∈ ops, op.Polite) (hmany : budget s < ops.count (.call .send)) :
    Departing cfg queued (runOps s ops) ∧ Unsendable (runOps s ops) := by
  have hkeep : ∀ (t : EventContext × Io) (op : Op), op.Polite → Departing cfg queued t →
      Departing cfg queued (Wslay.step t op).2 := fun t op hop ht => ht.step hop
  have hstay : ∀ (t : EventContext × Io) (op : Op), op.Polite → Departing cfg queued t →
      Unsendable t → Unsendable (Wslay.step t op).2 := fun t op hop ht hu => ht.unsendable hop hu
  have hmono : ∀ (t : EventContext × Io) (op : Op), op.Polite → Departing cfg queued t →
      Unsendable (Wslay.step t op).2 ∨ budget (Wslay.step t op).2 ≤ budget t := by
    intro t op hop ht
    by_cases heq : op = .call .send
    · subst heq
      exact ht.advances.imp id Nat.le_of_lt
    · obtain ⟨hsends, hwork⟩ := ht.idle hop heq
      refine Or.inr (Nat.le_of_eq ?_)
      unfold budget
      rw [hsends, hwork]
  refine ⟨runOps_inv hkeep hops h, ?_⟩
  exact Loop.foldl_reaches hkeep hstay hmono (fun t ht => ht.advances) hops h (Or.inr hmany)

end

/-! ## What has been sent in the end -/

/-- **A Close with this code and this reason is complete on the wire**, behind frames that
are none, and it has been noted. -/
structure HasLeft (code : UInt16) (reason : List UInt8) (s : EventContext × Io) : Prop where
  wire : ∃ sent f, s.2.wire = (sent ++ [f]).flatMap Frame.encode ∧ f.IsClose ∧
    f.payload = closeBody code reason ∧ ∀ g ∈ sent, ¬ g.IsClose
  off : s.1.writeEnabled = false
  sent : s.1.closeStatus.sent = true
  noted : s.1.statusCodeSent = if code = 0 then codeNoStatusRcvd else code.toNat

/-- The code that is noted for the Close that `wslay_event_queue_close` queues. -/
theorem codeOf_closeBody (code : UInt16) (reason : List UInt8) :
    codeOf (closeBody code reason) = if code = 0 then codeNoStatusRcvd else code.toNat := by
  by_cases hzero : code = 0
  · subst hzero
    rfl
  · have hlen := Octets.length_beBytes 2 code.toNat
    have hbody : closeBody code reason = Octets.beBytes 2 code.toNat ++ reason := by
      unfold closeBody
      rw [if_neg hzero]
    have htwo : 2 ≤ (closeBody code reason).length := by
      rw [hbody, List.length_append, hlen]
      exact Nat.le_add_right _ _
    have hcode : closeStatusCode (closeBody code reason) = code.toNat := by
      unfold closeStatusCode
      rw [if_pos htwo, hbody, List.take_left' hlen]
      exact Octets.beVal_beBytes _ _ code.toNat_lt
    have hne : code.toNat ≠ 0 := by
      intro h
      exact hzero (UInt16.toNat_inj.1 h)
    unfold codeOf
    rw [hcode, if_neg hne, if_neg hzero]

section

variable {cfg : RxConfig} {queued : List QueuedMsg} {s : EventContext × Io} {code : UInt16}
  {reason : List UInt8}

/-- With `wslay_event_queue_close` a context begins to depart. -/
theorem Parting.departs (h : Parting cfg s)
    (hzero : (Wslay.step s (.call (.queueClose code reason))).1 = 0) :
    Departing cfg (s.2.queued ++ [.msg (closeMsg code reason)])
      (Wslay.step s (.call (.queueClose code reason))).2 := by
  have hflag := queueClose_queued s hzero
  have hpolite : Op.Polite (.call (.queueClose code reason)) := trivial
  have hnext := h.step hpolite
  refine ⟨hnext, ⟨fun _ => hflag, hnext.onCourse.2⟩, ?_, ?_⟩
  · unfold eventIsMsgQueueable
    rw [hflag, Bool.not_true, Bool.and_false]
  · show (eventQueueClose s.1 code reason s.2).2.2.queued = _
    change (eventQueueClose s.1 code reason s.2).1 = 0 at hzero
    rcases eventQueueClose_cases s.1 code reason s.2 with ⟨-, heq⟩ | ⟨-, -, heq⟩ |
      ⟨-, -, io', ha, heq | ⟨hmem, -⟩⟩
    · rw [heq] at hzero
      cases hzero
    · rw [heq] at hzero
      cases hzero
    · rw [heq, ha.eq]
      rfl
    · exact absurd h.mem hmem

/-- **When writing is over, the Close that has been sent is the one that has been
queued**, if there was no other. -/
theorem Departing.hasLeft (h : Departing cfg (queued ++ [.msg (closeMsg code reason)]) s)
    (hfirst : ∀ body, QueuedMsg.msg ⟨connectionClose, body⟩ ∉ queued)
    (hoff : s.1.writeEnabled = false) : HasLeft code reason s := by
  obtain ⟨sent, owed, hd⟩ := h.parting.dispatch
  have hleaves := hd.leaves
  obtain ⟨-, howed⟩ := hleaves.ends.1 hoff
  obtain ⟨f, hlast, hclose, hcode⟩ := hleaves.code hoff
  have hsent : sent.dropLast ++ [f] = sent := List.dropLast_append_getLast? f hlast
  have hctrl : f.outline ∈ ctrlOutlines sent := by
    refine List.mem_filter.2 ⟨List.mem_map.2 ⟨f, List.mem_of_getLast? hlast, rfl⟩, ?_⟩
    show decide (8 ≤ f.opcode.val) = true
    rw [show f.opcode = wireOpcode connectionClose from hclose]
    rfl
  obtain ⟨arg, harg, hlow, houtline⟩ := hleaves.ctrl _ hctrl
  have hopcode : arg.opcode = connectionClose := by
    refine connectionClose_of_low hlow ?_
    exact (congrArg Outline.opcode houtline).trans hclose
  have hpayload : f.payload = arg.msg := (congrArg Outline.payload houtline).symm
  have hbody : f.payload = closeBody code reason := by
    rw [h.ended.2] at harg
    rcases List.mem_append.1 harg with hbefore | hit
    · obtain ⟨opcode, body⟩ := arg
      change opcode = connectionClose at hopcode
      subst hopcode
      exact absurd hbefore (hfirst body)
    · cases List.mem_singleton.1 hit
      exact hpayload
  have hwire := hleaves.wire
  rw [howed, List.append_nil] at hwire
  refine ⟨⟨sent.dropLast, f, ?_, hclose, hbody, hleaves.only⟩, hoff, ?_, ?_⟩
  · rw [hsent]
    exact hwire
  · rw [hleaves.noted, hoff]
    rfl
  · rw [hcode, hbody, codeOf_closeBody]

end

/-- **A Close that has been queued is sent.**  In any run of such calls let
`wslay_event_queue_close` succeed, with no Close queued before by `wslay_event_queue_msg`.
Then after any calls among which `wslay_event_send` is often enough, the Close is complete
on the wire, behind frames that are none, and the code that is noted is its code; unless
`send_callback` takes no more. -/
theorem queued_close_is_sent (server : Bool) (callbacks : EventCallbacks) (noBuffering : Bool)
    (limit : Nat) {io : Io} (hio : io.Fresh) (hcalm : io.Calm) (hwilling : io.Willing)
    {ops : List Op} (hops : ∀ op ∈ ops, op.Polite) {s s' : EventContext × Io} {code : UInt16}
    {reason : List UInt8}
    (hs : s = runOps (configured server callbacks noBuffering limit, io) ops)
    (hfirst : ¬ s.2.CloseAccepted) (hzero : step s (.call (.queueClose code reason)) = (0, s'))
    {more : List Op} (hmore : ∀ op ∈ more, op.Polite)
    (hmany : budget s' < more.count (.call .send)) :
    HasLeft code reason (runOps s' more) ∨ (runOps s' more).2.sends = [] := by
  have hparting : Parting (.of server callbacks noBuffering limit) s := by
    rw [hs]
    exact (configured_parting server callbacks noBuffering limit hio hcalm hwilling).run hops
  have hdeparts := hparting.departs (congrArg Prod.fst hzero)
  rw [hzero] at hdeparts
  obtain ⟨hafter, hend⟩ := hdeparts.ends hmore hmany
  rcases hend with hoff | hnil
  · refine Or.inl (hafter.hasLeft ?_ hoff)
    intro body hbody
    exact hfirst ⟨body, hbody⟩
  · exact Or.inr hnil

theorem single_octet_fits : ([104] : List UInt8).length ≤ 4096 := by decide

/-- A fragmented text of which nothing more comes. -/
def driedCalls : List Op :=
  [.call (.queueFragmentedMsg ⟨textFrame, [.data [104] false single_octet_fits]⟩), .call .send,
    .recv, .call .send]

def driedOut : EventContext × Io :=
  runOps (configured true ⟨true, true, true, true⟩ false 100, leavingIo) driedCalls

/-- A Close is queued, and the server goes on sending. -/
def lastCalls : List Op := .recv :: List.replicate 12 (.call .send)

theorem driedCalls_polite : ∀ op ∈ driedCalls, op.Polite := by
  intro op hop
  simp only [driedCalls, List.mem_cons, List.not_mem_nil, or_false] at hop
  rcases hop with rfl | rfl | rfl | rfl
  · refine ⟨by decide, ?_⟩
    intro r hr
    rw [List.mem_singleton.1 hr]
    trivial
  all_goals trivial

theorem lastCalls_polite : ∀ op ∈ lastCalls, op.Polite := by
  intro op hop
  rcases List.mem_cons.1 hop with rfl | hop
  · trivial
  · rw [(List.mem_replicate.1 hop).2]
    trivial

theorem queued_close_is_sent_driedOut :
    let s' := (step driedOut (.call (.queueClose 1001 [98]))).2
    HasLeft 1001 [98] (runOps s' lastCalls) ∨ (runOps s' lastCalls).2.sends = [] := by
  have hqueued : driedOut.2.queued =
      [.fragmented ⟨textFrame, [.data [104] false single_octet_fits]⟩, .msg ⟨pong, [5]⟩] := by
    decide +kernel
  have hfirst : ¬ driedOut.2.CloseAccepted := by
    rintro ⟨body, hbody⟩
    rw [hqueued] at hbody
    simp [pong, connectionClose] at hbody
  have hzero : (step driedOut (.call (.queueClose 1001 [98]))).1 = 0 := by decide +kernel
  exact queued_close_is_sent true ⟨true, true, true, true⟩ false 100 ⟨rfl, rfl, rfl, rfl, rfl, rfl⟩
    leavingIo_calm leavingIo_willing driedCalls_polite rfl hfirst (Prod.ext hzero rfl)
    lastCalls_polite (by decide +kernel)

/-- The unfinished text is followed by the Pong and the Close. -/
example : (runOps (step driedOut (.call (.queueClose 1001 [98]))).2 lastCalls).2.wire =
    [0x01, 1, 104, 0x8a, 1, 5, 0x88, 3, 0x03, 0xe9, 98] := by
  decide +kernel

end Wslay
