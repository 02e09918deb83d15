import Wslay.Event.Run
import Wslay.Event.SendLoop

/-!
# The queue counters

`queued_msg_count` and `queued_msg_length` follow the queues, but for one
thing: `wslay_event_send_ctrl_queue_pop` releases the control messages that
stand in front of a Close without subtracting them.

* `Counted` — the exact law: the counters are right but for what has been
  released so.
* `sendPass_discards` — when a pass of `wslay_event_send` releases something.
* `runOps_discards` — nothing else in a run does.
* `counters_exact_iff` — the counters are exact in a state reached if and only
  if nothing has been released on the way there.
-/

namespace Wslay

open Loop (Step)

/-! ## What the counters should be -/

/-- The messages that are queued or being sent. -/
def EventContext.queuedMsgs (c : EventContext) : List EventOmsg :=
  c.omsg.toList ++ c.sendQueue ++ c.sendCtrlQueue

/-- The `data_length` of a message that is not fragmented. -/
def EventOmsg.length (m : EventOmsg) : Nat :=
  match m.type with
  | .nonFragmented => m.data.length
  | .fragmented => 0

/-- The counters agree with the queues. -/
def CountersExact (c : EventContext) : Prop :=
  c.queuedMsgCount = c.sendQueue.length + c.sendCtrlQueue.length + c.omsg.toList.length ∧
    c.queuedMsgLength = (c.queuedMsgs.map EventOmsg.length).sum

/-- The counters agree with the queues and with what has been released since
`base` was all that had been. -/
structure Counted (base : List EventMsg) (s : EventContext × Io) : Prop where
  whole : ∀ m ∈ s.1.sendCtrlQueue, m.type = .nonFragmented
  law : ∃ released, s.2.discarded = base ++ released ∧
    s.1.queuedMsgCount = s.1.queuedMsgs.length + released.length ∧
    s.1.queuedMsgLength = (s.1.queuedMsgs.map EventOmsg.length).sum +
      (released.map fun m => m.msg.length).sum

/-! ## Sending -/

theorem popClose_split (ms : List EventOmsg) :
    ms = (popClose ms).2.2 ++ (popClose ms).1.toList ++ (popClose ms).2.1 := by
  induction ms with
  | nil => rfl
  | cons m ms ih =>
    unfold popClose
    split_ifs with h
    · rfl
    · simpa using ih

/-- Taking a message off the control queue moves it, and releases some. -/
theorem Counted.pop {base : List EventMsg} {c : EventContext} {io : Io}
    (hs : Counted base (c, io)) (homsg : c.omsg = none) :
    let r := eventSendCtrlQueuePop c io
    (∀ m, r.1 = some m → m.type = .nonFragmented) ∧
      Counted base ({ r.2.1 with omsg := r.1 }, r.2.2) := by
  obtain ⟨hwhole, released, hdisc, hcount, hlength⟩ := hs
  simp only at hwhole hdisc hcount hlength
  intro r
  by_cases hq : c.closeStatus.queued = true
  · have hr : r = ((popClose c.sendCtrlQueue).1,
        { c with sendCtrlQueue := (popClose c.sendCtrlQueue).2.1 },
        { io with discarded := io.discarded ++
          (popClose c.sendCtrlQueue).2.2.map fun m => ⟨m.opcode, m.data⟩ }) := by
      simp only [r, eventSendCtrlQueuePop, hq, if_true]
    have hsplit := popClose_split c.sendCtrlQueue
    obtain ⟨found, rest, freed, hpop⟩ : ∃ found rest freed,
        popClose c.sendCtrlQueue = (found, rest, freed) := ⟨_, _, _, rfl⟩
    rw [hpop] at hr hsplit
    simp only at hsplit
    rw [hsplit] at hwhole
    have hfreed : (freed.map fun m : EventOmsg => m.data.length) = freed.map EventOmsg.length := by
      refine List.map_congr_left fun m hm => ?_
      have := hwhole m (by simp [hm])
      rw [EventOmsg.length, this]
    rw [hr]
    refine ⟨fun m hm => hwhole m (by simp only at hm; simp [hm]), fun m hm => hwhole m (by
      simp only at hm; simp [hm]), released ++ freed.map fun m => ⟨m.opcode, m.data⟩, ?_, ?_, ?_⟩
    · simp only [hdisc, List.append_assoc]
    · simp only [EventContext.queuedMsgs, homsg, hsplit] at hcount ⊢
      simp only [List.length_append, List.length_map, Option.toList_none, List.length_nil] at hcount ⊢
      omega
    · simp only [EventContext.queuedMsgs, homsg, hsplit] at hlength ⊢
      simp only [List.map_append, List.sum_append, List.map_map, Option.toList_none, List.map_nil,
        List.sum_nil, Function.comp_def, hfreed] at hlength ⊢
      omega
  · have hr : r = (c.sendCtrlQueue.head?, { c with sendCtrlQueue := c.sendCtrlQueue.tail }, io) := by
      simp only [r, eventSendCtrlQueuePop, hq, Bool.false_eq_true, if_false]
    rw [hr]
    cases hctrl : c.sendCtrlQueue with
    | nil =>
      refine ⟨by simp, by simp, released, hdisc, ?_, ?_⟩
      · simpa [EventContext.queuedMsgs, homsg, hctrl] using hcount
      · simpa [EventContext.queuedMsgs, homsg, hctrl] using hlength
    | cons m ms =>
      rw [hctrl] at hwhole
      refine ⟨fun m' hm => hwhole m' (by simp at hm; simp [hm]), fun m' hm => hwhole m' (by
        simp at hm; simp [hm]), released, hdisc, ?_, ?_⟩
      · simp only [EventContext.queuedMsgs, homsg, hctrl] at hcount ⊢
        simp at hcount ⊢
        omega
      · simp only [EventContext.queuedMsgs, homsg, hctrl] at hlength ⊢
        simp at hlength ⊢
        omega

theorem eventSendCtrlQueuePop_omsg (c : EventContext) (o : Option EventOmsg) (io : Io) :
    eventSendCtrlQueuePop { c with omsg := o } io =
      ((eventSendCtrlQueuePop c io).1, { (eventSendCtrlQueuePop c io).2.1 with omsg := o },
        (eventSendCtrlQueuePop c io).2.2) := by
  unfold eventSendCtrlQueuePop
  simp only
  split_ifs <;> rfl

/-- What the law looks at. -/
theorem Counted.congr {base : List EventMsg} {s s' : EventContext × Io} (hs : Counted base s)
    (hctrl : s'.1.sendCtrlQueue = s.1.sendCtrlQueue) (hqueue : s'.1.sendQueue = s.1.sendQueue)
    (homsg : s'.1.omsg.toList.map EventOmsg.length = s.1.omsg.toList.map EventOmsg.length)
    (hcount : s'.1.queuedMsgCount = s.1.queuedMsgCount)
    (hlength : s'.1.queuedMsgLength = s.1.queuedMsgLength)
    (hdisc : s'.2.discarded = s.2.discarded) : Counted base s' := by
  obtain ⟨hwhole, released, h1, h2, h3⟩ := hs
  have hone : s'.1.omsg.toList.length = s.1.omsg.toList.length := by
    have := congrArg List.length homsg
    simpa using this
  refine ⟨by rw [hctrl]; exact hwhole, released, hdisc.trans h1, ?_, ?_⟩
  · rw [hcount, h2]
    simp only [EventContext.queuedMsgs, hctrl, hqueue, List.length_append, hone]
  · rw [hlength, h3]
    simp only [EventContext.queuedMsgs, hctrl, hqueue, List.map_append, homsg]

theorem Counted.popped {base : List EventMsg} {c : EventContext} {io : Io} {m : EventOmsg}
    (hs : Counted base ({ c with omsg := some m }, io)) :
    Counted base (eventOnNonFragmentedMsgPopped c m, io) :=
  hs.congr rfl rfl rfl rfl rfl rfl

theorem discarded_allocates {io io' : Io} (h : io.Allocates io') : io'.discarded = io.discarded := by
  rw [h.eq]

/-- Choosing a message moves it from a queue to `omsg`. -/
theorem Counted.sendPick {base : List EventMsg} {c : EventContext} {io : Io}
    (hs : Counted base (c, io)) : (sendPick c io).All (Counted base) := by
  unfold Wslay.sendPick
  cases homsg : c.omsg with
  | none =>
    simp only
    by_cases hctrl : c.sendCtrlQueue = []
    · rw [if_pos hctrl]
      cases hqueue : c.sendQueue with
      | nil => exact hs
      | cons m ms =>
        have hmove : Counted base ({ c with sendQueue := ms, omsg := some m }, io) := by
          obtain ⟨hwhole, released, h1, h2, h3⟩ := hs
          refine ⟨hwhole, released, h1, ?_, ?_⟩
          · simpa [EventContext.queuedMsgs, homsg, hqueue] using h2
          · simpa [EventContext.queuedMsgs, homsg, hqueue] using h3
        simp only
        split_ifs
        · exact hmove.popped
        · exact hmove
    · rw [if_neg hctrl]
      obtain ⟨-, hpop⟩ := hs.pop homsg
      obtain ⟨found, c₁, io₁, heq⟩ : ∃ found c₁ io₁, eventSendCtrlQueuePop c io = (found, c₁, io₁) :=
        ⟨_, _, _, rfl⟩
      rw [heq] at hpop ⊢
      cases found with
      | none => exact hpop
      | some m =>
        simp only
        split_ifs
        · exact hpop.popped
        · exact hpop
  | some m =>
    simp only
    split_ifs
    · have hmal := discarded_allocates io.malloc_allocates.1
      obtain ⟨ok, io₁, hm⟩ : ∃ ok io₁, io.malloc = (ok, io₁) := ⟨_, _, rfl⟩
      rw [hm] at hmal ⊢
      cases ok with
      | false => exact hs.congr rfl rfl (by rw [homsg]) rfl rfl hmal
      | true =>
        -- the preempted message goes back to the front of its queue
        have hback : Counted base
            ({ c with sendQueue := m :: c.sendQueue, omsg := none }, io₁) := by
          obtain ⟨hwhole, released, h1, h2, h3⟩ := hs
          refine ⟨hwhole, released, hmal.trans h1, ?_, ?_⟩
          · simpa [EventContext.queuedMsgs, homsg] using h2
          · simpa [EventContext.queuedMsgs, homsg] using h3
        obtain ⟨-, hpop⟩ := hback.pop rfl
        have heq := eventSendCtrlQueuePop_omsg
          { c with sendQueue := m :: c.sendQueue, omsg := some m } none io₁
        simp only at heq hpop
        rw [heq] at hpop
        simp only
        obtain ⟨found, c₁, io₂, heq₂⟩ : ∃ found c₁ io₂, eventSendCtrlQueuePop
            { c with sendQueue := m :: c.sendQueue, omsg := some m } io₁ = (found, c₁, io₂) :=
          ⟨_, _, _, rfl⟩
        rw [heq₂] at hpop ⊢
        cases found with
        | none => exact hpop
        | some m' => exact Counted.popped (c := c₁) hpop
    · exact hs

/-- The message in hand is taken off the counters when it is done. -/
theorem Counted.done {base : List EventMsg} {c : EventContext} {io : Io} {m : EventOmsg}
    (hs : Counted base (c, io)) (homsg : c.omsg = some m) :
    Counted base ({ c with queuedMsgCount := c.queuedMsgCount - 1,
                           queuedMsgLength := c.queuedMsgLength - m.length, omsg := none }, io) := by
  obtain ⟨hwhole, released, h1, h2, h3⟩ := hs
  refine ⟨hwhole, released, h1, ?_, ?_⟩
  · simp only [EventContext.queuedMsgs, homsg] at h2 ⊢
    simp at h2 ⊢
    omega
  · simp only [EventContext.queuedMsgs, homsg] at h3 ⊢
    simp at h3 ⊢
    omega

theorem discarded_frameSend (f : FrameContext) (iocb : Iocb) (io : Io) :
    (frameSend f iocb io).2.2.discarded = io.discarded := by
  have h := (frameRecvSame_frameSend f iocb io).2
  simp only [Io.recvHalf, Prod.mk.injEq] at h
  exact h.2.2.2.2.2.2

theorem Counted.sendFrameError {base : List EventMsg} {c : EventContext} {io : Io}
    (hs : Counted base (c, io)) (e : Err) : (sendFrameError e c io).All (Counted base) := by
  unfold Wslay.sendFrameError
  split_ifs
  · exact hs.congr rfl rfl rfl rfl rfl rfl
  · exact hs

theorem Counted.sendNonFragmented {base : List EventMsg} {c : EventContext} {io : Io}
    {m : EventOmsg} (hs : Counted base (c, io)) (homsg : c.omsg = some m)
    (htype : m.type = .nonFragmented) : (sendNonFragmented c m io).All (Counted base) := by
  have hdisc := discarded_frameSend c.frameCtx (nonFragmentedIocb c m) io
  unfold Wslay.sendNonFragmented
  obtain ⟨r, f, io₁, heq⟩ : ∃ r f io₁, frameSend c.frameCtx (nonFragmentedIocb c m) io =
      (r, f, io₁) := ⟨_, _, _, rfl⟩
  rw [heq] at hdisc ⊢
  cases r with
  | error e =>
    exact Counted.sendFrameError (c := { c with frameCtx := f })
      (hs.congr rfl rfl rfl rfl rfl hdisc) e
  | ok length =>
    simp only
    by_cases hend : c.opayloadoff + length = c.opayloadlen
    · rw [if_pos hend]
      have hsent : Counted base
          ({ c with frameCtx := f, opayloadoff := c.opayloadoff + length }, io₁) :=
        hs.congr rfl rfl rfl rfl rfl hdisc
      have hdone := hsent.done homsg
      rw [EventOmsg.length, htype] at hdone
      unfold finishNonFragmented
      simp only
      split_ifs <;> exact hdone.congr rfl rfl rfl rfl rfl rfl
    · rw [if_neg hend]
      exact hs.congr rfl rfl rfl rfl rfl hdisc

theorem Counted.sendFragment {base : List EventMsg} {c : EventContext} {io : Io}
    {m : EventOmsg} (hs : Counted base (c, io)) (homsg : c.omsg = some m)
    (htype : m.type = .fragmented) : (sendFragment c m io).All (Counted base) := by
  have hdisc := discarded_frameSend c.frameCtx (fragmentIocb c m) io
  unfold Wslay.sendFragment
  obtain ⟨r, f, io₁, heq⟩ : ∃ r f io₁, frameSend c.frameCtx (fragmentIocb c m) io =
      (r, f, io₁) := ⟨_, _, _, rfl⟩
  rw [heq] at hdisc ⊢
  cases r with
  | error e =>
    exact Counted.sendFrameError (c := { c with frameCtx := f })
      (hs.congr rfl rfl rfl rfl rfl hdisc) e
  | ok length =>
    have hsent : Counted base ({ c with frameCtx := f, obuf := [], obufmark := 0 }, io₁) :=
      hs.congr rfl rfl rfl rfl rfl hdisc
    simp only
    split_ifs
    · have hdone := hsent.done homsg
      rw [EventOmsg.length, htype] at hdone
      exact hdone.congr rfl rfl rfl rfl rfl rfl
    · refine hsent.congr rfl rfl ?_ rfl rfl rfl
      simp [homsg, EventOmsg.length]
    · exact hs.congr rfl rfl rfl rfl rfl hdisc

theorem Counted.sendFragmented {base : List EventMsg} {c : EventContext} {io : Io}
    {m : EventOmsg} (hs : Counted base (c, io)) (homsg : c.omsg = some m)
    (htype : m.type = .fragmented) : (sendFragmented c m io).All (Counted base) := by
  unfold Wslay.sendFragmented
  split_ifs
  · unfold readFragment
    cases hsource : m.source with
    | nil => exact hs
    | cons r rs =>
      have hread : ∀ fin, Counted base
          ({ c with omsg := some { m with source := rs, fin := fin } }, io) := by
        intro fin
        refine hs.congr rfl rfl ?_ rfl rfl rfl
        simp [homsg, EventOmsg.length]
      cases r with
      | fail e => exact (hread m.fin).congr rfl rfl rfl rfl rfl rfl
      | data bs eof fits =>
        simp only
        by_cases hnil : bs = []
        · rw [if_pos hnil]
          exact hread m.fin
        · rw [if_neg hnil, Step.andThen_again]
          exact Counted.sendFragment ((hread _).congr rfl rfl rfl rfl rfl rfl) rfl htype
  · exact hs.sendFragment homsg htype

/-- One pass of `wslay_event_send` keeps the law. -/
theorem Counted.sendPass {base : List EventMsg} {s : EventContext × Io} (hs : Counted base s) :
    (sendPass s).All (Counted base) := by
  unfold Wslay.sendPass
  split_ifs
  · refine (Counted.sendPick hs).andThen (fun _ h => h) fun t ht => ?_
    unfold sendOmsg
    cases homsg : t.1.omsg with
    | none => exact ht
    | some m =>
      simp only
      cases htype : m.type with
      | nonFragmented =>
        rw [if_pos rfl]
        exact Counted.sendNonFragmented ht homsg htype
      | fragmented =>
        rw [if_neg (by simp)]
        exact Counted.sendFragmented ht homsg htype
  · exact hs

theorem Counted.eventSend {base : List EventMsg} {c : EventContext} {io : Io}
    (hs : Counted base (c, io)) : Counted base (eventSend c io).2 := by
  unfold Wslay.eventSend
  cases hrun : Loop.run Wslay.sendPass (sendFuel c) (c, io) with
  | none => exact hs
  | some x => exact Loop.run_inv (fun t ht => Counted.sendPass ht) hs hrun

/-! ## Queueing -/

theorem Counted.allocates {base : List EventMsg} {c : EventContext} {io io' : Io}
    (hs : Counted base (c, io)) (h : io.Allocates io') : Counted base (c, io') :=
  hs.congr rfl rfl rfl rfl rfl (discarded_allocates h)

theorem Counted.withMsg {base : List EventMsg} {c : EventContext} {io : Io}
    (hs : Counted base (c, io)) (arg : EventMsg) : Counted base (c.withMsg arg, io) := by
  obtain ⟨hwhole, released, h1, h2, h3⟩ := hs
  simp only at h1 h2 h3 hwhole
  unfold EventContext.withMsg
  by_cases hc : isCtrlFrame arg.opcode = true
  · simp only [hc, if_true]
    refine ⟨?_, released, h1, ?_, ?_⟩
    · intro m hm
      rcases List.mem_append.1 hm with h | h
      · exact hwhole m h
      · rw [List.mem_singleton.1 h]
    · simp [EventContext.queuedMsgs] at h2 ⊢
      omega
    · simp [EventContext.queuedMsgs, EventOmsg.length] at h3 ⊢
      omega
  · simp only [hc, Bool.false_eq_true, if_false]
    refine ⟨hwhole, released, h1, ?_, ?_⟩
    · simp [EventContext.queuedMsgs] at h2 ⊢
      omega
    · simp [EventContext.queuedMsgs, EventOmsg.length] at h3 ⊢
      omega

theorem Counted.withFragmentedMsg {base : List EventMsg} {c : EventContext} {io : Io}
    (hs : Counted base (c, io)) (arg : EventFragmentedMsg) :
    Counted base (c.withFragmentedMsg arg, io) := by
  obtain ⟨hwhole, released, h1, h2, h3⟩ := hs
  simp only at h1 h2 h3
  refine ⟨hwhole, released, h1, ?_, ?_⟩
  · simp [EventContext.withFragmentedMsg, EventContext.queuedMsgs] at h2 ⊢
    omega
  · simp [EventContext.withFragmentedMsg, EventContext.queuedMsgs, EventOmsg.length] at h3 ⊢
    omega

/-- Every call of the application keeps the law. -/
theorem Counted.appCall {base : List EventMsg} {c : EventContext} {io : Io}
    (hs : Counted base (c, io)) (a : AppCall) : Counted base (appCall c io a).2 := by
  cases a with
  | queueMsg arg =>
    change Counted base (eventQueueMsg c arg io).2
    rcases eventQueueMsg_cases c arg io with ⟨-, heq⟩ | ⟨-, -, -, heq⟩ |
      ⟨-, -, io', ha, heq | ⟨-, r, -, -, heq⟩⟩ <;> rw [heq]
    · exact hs
    · exact hs
    · exact ((hs.allocates ha).withMsg arg).congr rfl rfl rfl rfl rfl rfl
    · exact hs.allocates ha
  | queueFragmentedMsg arg =>
    change Counted base (eventQueueFragmentedMsg c arg io).2
    rcases eventQueueFragmentedMsg_cases c arg io with ⟨-, heq⟩ | ⟨-, -, heq⟩ |
      ⟨-, -, io', ha, heq | ⟨-, heq⟩⟩ <;> rw [heq]
    · exact hs
    · exact hs
    · exact ((hs.allocates ha).withFragmentedMsg arg).congr rfl rfl rfl rfl rfl rfl
    · exact hs.allocates ha
  | queueClose code reason =>
    change Counted base (eventQueueClose c code reason io).2
    rcases eventQueueClose_cases c code reason io with ⟨-, heq⟩ | ⟨-, -, heq⟩ |
      ⟨-, -, io', ha, heq | ⟨-, r, -, -, heq⟩⟩ <;> rw [heq]
    · exact hs
    · exact hs
    · exact ((hs.allocates ha).withMsg _).congr rfl rfl rfl rfl rfl rfl
    · exact hs.allocates ha
  | send => exact hs.eventSend
  | setError val => exact hs.congr rfl rfl rfl rfl rfl rfl
  | shutdownRead => exact hs.congr rfl rfl rfl rfl rfl rfl
  | shutdownWrite => exact hs.congr rfl rfl rfl rfl rfl rfl

/-! ## Runs -/

/-- The law survives every call. -/
theorem counted_kept (base : List EventMsg) : Kept (fun _ => True) (Counted base) where
  same := by
    intro s s' hss hs
    have hc := hss.context
    have hio := hss.io
    simp only [EventContext.sendHalf, Prod.mk.injEq] at hc
    simp only [Io.sendHalf, Prod.mk.injEq] at hio
    obtain ⟨-, -, -, -, -, -, homsg, hqueue, hctrl, hcount, hlength, -⟩ := hc
    exact hs.congr hctrl hqueue (by rw [homsg]) hcount hlength hio.2.2.2.2.2
  call := fun _ hs => hs.appCall _
  apps := fun _ _ _ _ _ => trivial
  pong := fun _ => trivial
  close := fun _ _ => trivial

/-- A pass of `wslay_event_send` from here takes a message off the control queue
while a Close is queued behind the message at its front. -/
def DropsCtrl (s : EventContext × Io) : Prop :=
  eventWantWrite s.1 = true ∧ s.1.closeStatus.queued = true ∧
    (∃ m, s.1.sendCtrlQueue.head? = some m ∧ m.opcode ≠ connectionClose) ∧
    (s.1.omsg = none ∨ ∃ m, s.1.omsg = some m ∧ isCtrlFrame m.opcode = false ∧
      s.1.frameCtx.ostate = .prepHeader ∧ s.2.malloc.1 = true)

theorem eventSendCtrlQueuePop_discards (c : EventContext) (io : Io) :
    (eventSendCtrlQueuePop c io).2.2.discarded = io.discarded ↔
      ¬ (c.closeStatus.queued = true ∧
        ∃ m, c.sendCtrlQueue.head? = some m ∧ m.opcode ≠ connectionClose) := by
  unfold eventSendCtrlQueuePop
  by_cases hq : c.closeStatus.queued = true
  · simp only [hq, if_true]
    cases hctrl : c.sendCtrlQueue with
    | nil => simp [popClose]
    | cons m ms =>
      by_cases hclose : m.opcode = connectionClose
      · simp [popClose, hclose]
      · simp [popClose, hclose]
  · simp [hq]

/-- Sending a message releases none. -/
theorem sendOmsg_discarded (s : EventContext × Io) :
    (sendOmsg s).state.2.discarded = s.2.discarded := by
  have h := (sendOmsg_recvHalf s).2
  simp only [Io.recvHalf, Prod.mk.injEq] at h
  exact h.2.2.2.2.2.2

/-- **When a pass of `wslay_event_send` releases messages.** -/
theorem sendPass_discards (s : EventContext × Io) :
    (sendPass s).state.2.discarded = s.2.discarded ↔ ¬ DropsCtrl s := by
  obtain ⟨c, io⟩ := s
  unfold sendPass DropsCtrl
  by_cases hwant : eventWantWrite c = true
  swap
  · simp [hwant]
  simp only [hwant, if_true, true_and]
  have hthen : ((sendPick c io).andThen sendOmsg).state.2.discarded =
      (sendPick c io).state.2.discarded := by
    cases hp : sendPick c io with
    | again t => exact sendOmsg_discarded t
    | leave r t => rfl
  rw [hthen]
  unfold sendPick
  cases homsg : c.omsg with
  | none =>
    simp only
    by_cases hctrl : c.sendCtrlQueue = []
    · rw [if_pos hctrl]
      cases c.sendQueue with
      | nil => simp [hctrl]
      | cons m ms =>
        simp only
        split_ifs <;> simp [hctrl]
    · rw [if_neg hctrl]
      have hpop := eventSendCtrlQueuePop_discards c io
      obtain ⟨found, c₁, io₁, heq⟩ : ∃ found c₁ io₁, eventSendCtrlQueuePop c io = (found, c₁, io₁) :=
        ⟨_, _, _, rfl⟩
      rw [heq] at hpop ⊢
      simp only at hpop
      cases found with
      | none => simpa using hpop
      | some m =>
        simp only
        split_ifs <;> simpa using hpop
  | some m =>
    simp only
    by_cases hcond : (!isCtrlFrame m.opcode && decide (c.frameCtx.ostate = .prepHeader) &&
        decide (c.sendCtrlQueue ≠ [])) = true
    · rw [if_pos hcond]
      simp only [Bool.and_eq_true, Bool.not_eq_true', decide_eq_true_eq] at hcond
      obtain ⟨⟨hdata, hstate⟩, -⟩ := hcond
      have hmal := discarded_allocates io.malloc_allocates.1
      obtain ⟨ok, io₁, hm⟩ : ∃ ok io₁, io.malloc = (ok, io₁) := ⟨_, _, rfl⟩
      rw [hm] at hmal ⊢
      cases ok with
      | false =>
        simp only at hmal
        simp [hmal]
      | true =>
        have hpop := eventSendCtrlQueuePop_discards
          { c with sendQueue := m :: c.sendQueue, omsg := some m } io₁
        simp only
        obtain ⟨found, c₁, io₂, heq⟩ : ∃ found c₁ io₂, eventSendCtrlQueuePop
            { c with sendQueue := m :: c.sendQueue, omsg := some m } io₁ = (found, c₁, io₂) :=
          ⟨_, _, _, rfl⟩
        simp only at hmal
        rw [heq, hmal] at hpop
        simp only at hpop
        rw [heq]
        cases found <;> simp [hpop, hdata, hstate, eventOnNonFragmentedMsgPopped]
    · rw [if_neg hcond]
      simp only [Bool.and_eq_true, Bool.not_eq_true', decide_eq_true_eq] at hcond
      constructor
      · rintro - ⟨-, ⟨m', hhead, -⟩, hnone | ⟨m'', hm'', hdata, hstate, -⟩⟩
        · cases hnone
        · cases hm''
          refine hcond ⟨⟨hdata, hstate⟩, fun hnil => ?_⟩
          rw [hnil] at hhead
          cases hhead
      · exact fun _ => rfl

/-- Nothing else releases messages, as long as `wslay_event_send` is not called
from inside a receive callback. -/
theorem discarded_kept (base : List EventMsg) :
    Kept (· ≠ .send) fun s => s.2.apps = [] ∧ s.2.discarded = base where
  same := by
    rintro s s' hss ⟨happs, hdisc⟩
    have hio := hss.io
    simp only [Io.sendHalf, Prod.mk.injEq] at hio
    refine ⟨List.eq_nil_iff_forall_not_mem.2 fun l hl => ?_, hio.2.2.2.2.2.trans hdisc⟩
    have := hss.apps l hl
    rw [happs] at this
    cases this
  call := by
    rintro c io a ha ⟨happs, hdisc⟩
    have hmem : ∀ io', io.Allocates io' → io'.apps = [] ∧ io'.discarded = base := by
      intro io' h
      rw [h.eq]
      exact ⟨happs, hdisc⟩
    cases a with
    | queueMsg arg =>
      change (eventQueueMsg c arg io).2.2.apps = [] ∧ (eventQueueMsg c arg io).2.2.discarded = base
      rcases eventQueueMsg_cases c arg io with ⟨-, heq⟩ | ⟨-, -, -, heq⟩ |
        ⟨-, -, io', ha, heq | ⟨-, r, -, -, heq⟩⟩ <;> rw [heq]
      · exact ⟨happs, hdisc⟩
      · exact ⟨happs, hdisc⟩
      · exact hmem io' ha
      · exact hmem io' ha
    | queueFragmentedMsg arg =>
      change (eventQueueFragmentedMsg c arg io).2.2.apps = [] ∧
        (eventQueueFragmentedMsg c arg io).2.2.discarded = base
      rcases eventQueueFragmentedMsg_cases c arg io with ⟨-, heq⟩ | ⟨-, -, heq⟩ |
        ⟨-, -, io', ha, heq | ⟨-, heq⟩⟩ <;> rw [heq]
      · exact ⟨happs, hdisc⟩
      · exact ⟨happs, hdisc⟩
      · exact hmem io' ha
      · exact hmem io' ha
    | queueClose code reason =>
      change (eventQueueClose c code reason io).2.2.apps = [] ∧
        (eventQueueClose c code reason io).2.2.discarded = base
      rcases eventQueueClose_cases c code reason io with ⟨-, heq⟩ | ⟨-, -, heq⟩ |
        ⟨-, -, io', ha, heq | ⟨-, r, -, -, heq⟩⟩ <;> rw [heq]
      · exact ⟨happs, hdisc⟩
      · exact ⟨happs, hdisc⟩
      · exact hmem io' ha
      · exact hmem io' ha
    | send => exact absurd rfl ha
    | setError val => exact ⟨happs, hdisc⟩
    | shutdownRead => exact ⟨happs, hdisc⟩
    | shutdownWrite => exact ⟨happs, hdisc⟩
  apps := by
    rintro s ⟨happs, -⟩ calls hcalls
    rw [happs] at hcalls
    cases hcalls
  pong := fun _ => by simp
  close := fun _ _ => by simp

/-- One call of `wslay_event_send` releases nothing if and only if none of its
passes does. -/
theorem eventSend_discards (c : EventContext) (io : Io) :
    (eventSend c io).2.2.discarded = io.discarded ↔
      ∀ t, Loop.Reaches sendPass (c, io) t → ¬ DropsCtrl t := by
  have hlen : ∀ {as bs : List EventMsg}, as <+: bs → (bs = as ↔ bs.length = as.length) :=
    fun hp => ⟨fun h => by rw [h], fun h => (hp.eq_of_length h.symm).symm⟩
  obtain ⟨x, hx⟩ := Option.isSome_iff_exists.1 (eventSend_isSome c io)
  have hsend : eventSend c io = x := by rw [eventSend, hx]; rfl
  have hgrows := (eventSend_recvSame c io).2.2
  rw [hlen hgrows, hsend]
  refine (Loop.run_const_iff (μ := fun t => t.2.discarded.length)
    (fun t => (sendPass_recvSame t).2.2.length_le) hx).trans ?_
  refine forall_congr' fun t => imp_congr_right fun _ => ?_
  rw [← hlen (sendPass_recvSame t).2.2]
  exact sendPass_discards t

/-- In a run, messages are released in the passes of `wslay_event_send` and
nowhere else. -/
theorem runOps_discards {s : EventContext × Io} (happs : s.2.apps = []) (ops : List Op) :
    s.2.discarded <+: (runOps s ops).2.discarded ∧
      ((runOps s ops).2.discarded = s.2.discarded ↔ ∀ t, SendsFrom s ops t → ¬ DropsCtrl t) := by
  induction ops generalizing s with
  | nil => exact ⟨List.prefix_rfl, ⟨fun _ t ht => absurd ht (sendsFrom_nil s t), fun _ => rfl⟩⟩
  | cons op ops ih =>
    have hrun : runOps s (op :: ops) = runOps (step s op).2 ops := rfl
    have hfirst : (step s op).2.2.apps = [] ∧ s.2.discarded <+: (step s op).2.2.discarded ∧
        ((step s op).2.2.discarded = s.2.discarded ↔
          (op = .call .send → ∀ t, Loop.Reaches sendPass s t → ¬ DropsCtrl t)) := by
      by_cases hsend : op = .call .send
      · subst hsend
        obtain ⟨hsame, -, hgrows⟩ := eventSend_recvSame s.1 s.2
        refine ⟨hsame.apps.trans happs, hgrows, ?_⟩
        exact (eventSend_discards s.1 s.2).trans ⟨fun h _ => h, fun h => h rfl⟩
      · have hkept : (step s op).2.2.apps = [] ∧ (step s op).2.2.discarded = s.2.discarded := by
          cases op with
          | call a =>
            exact (discarded_kept s.2.discarded).call (fun h => hsend (by rw [h])) ⟨happs, rfl⟩
          | recv => exact (discarded_kept s.2.discarded).eventRecv ⟨happs, rfl⟩
        exact ⟨hkept.1, by rw [hkept.2], ⟨fun _ h => absurd h hsend, fun _ => hkept.2⟩⟩
    obtain ⟨happs', hgrows, hone⟩ := hfirst
    obtain ⟨hgrows', hrest⟩ := ih happs'
    rw [hrun]
    refine ⟨hgrows.trans hgrows', ?_⟩
    constructor
    · intro h t ht
      have hmid : (step s op).2.2.discarded = s.2.discarded :=
        (hgrows.eq_of_length (Nat.le_antisymm hgrows.length_le (h ▸ hgrows'.length_le))).symm
      rcases (sendsFrom_cons s t op ops).1 ht with ⟨hop, ht⟩ | ht
      · exact hone.1 hmid hop t ht
      · exact hrest.1 (h.trans hmid.symm) t ht
    · intro h
      have hmid := hone.2 fun hop t ht => h t ((sendsFrom_cons s t op ops).2 (Or.inl ⟨hop, ht⟩))
      exact (hrest.2 fun t ht => h t ((sendsFrom_cons s t op ops).2 (Or.inr ht))).trans hmid

instance (c : EventContext) : Decidable (CountersExact c) := by
  unfold CountersExact
  infer_instance

/-- **When the queue counters are exact.**  In a state that a run reaches, they
are if and only if no control message has been released unsent on the way
there.  When `wslay_event_send` is not called from inside the receive callbacks,
this is so if and only if no pass of `wslay_event_send` in the run took a message
off the control queue while a Close was queued behind the one at its front. -/
theorem counters_exact_iff (server : Bool) (callbacks : EventCallbacks) (noBuffering : Bool)
    (maxRecvMsgLength : Nat) (io : Io) (ops : List Op) :
    (CountersExact (runOps (configured server callbacks noBuffering maxRecvMsgLength, io) ops).1 ↔
        (runOps (configured server callbacks noBuffering maxRecvMsgLength, io) ops).2.discarded =
          io.discarded) ∧
      (io.apps = [] →
        (CountersExact (runOps (configured server callbacks noBuffering maxRecvMsgLength, io) ops).1 ↔
          ∀ t, SendsFrom (configured server callbacks noBuffering maxRecvMsgLength, io) ops t →
            ¬ DropsCtrl t)) := by
  obtain ⟨start, hstart⟩ : ∃ start,
      (configured server callbacks noBuffering maxRecvMsgLength, io) = start := ⟨_, rfl⟩
  have hio : start.2 = io := by rw [← hstart]
  have hcounted : Counted io.discarded start := by
    rw [← hstart]
    exact ⟨by simp [configured, eventConfigSetMaxRecvMsgLength, eventConfigSetNoBuffering,
      freshContext], [], by simp, rfl, rfl⟩
  rw [hstart]
  have hexact : CountersExact (runOps start ops).1 ↔
      (runOps start ops).2.discarded = io.discarded := by
    obtain ⟨-, released, hdisc, hcount, hlength⟩ : Counted io.discarded (runOps start ops) :=
      (counted_kept io.discarded).runOps hcounted fun _ _ => trivial
    obtain ⟨s, hs⟩ : ∃ s, runOps start ops = s := ⟨_, rfl⟩
    rw [hs] at hdisc hcount hlength ⊢
    have hlen : s.1.queuedMsgs.length =
        s.1.sendQueue.length + s.1.sendCtrlQueue.length + s.1.omsg.toList.length := by
      simp only [EventContext.queuedMsgs, List.length_append]
      omega
    rw [hlen] at hcount
    rw [hdisc, List.append_right_eq_self]
    constructor
    · rintro ⟨hc, -⟩
      exact List.length_eq_zero_iff.1 (by omega)
    · rintro rfl
      exact ⟨by simpa using hcount, by simpa using hlength⟩
  refine ⟨hexact, fun happs => hexact.trans ?_⟩
  rw [← hio]
  exact (runOps_discards (hio ▸ happs) ops).2

/-- Nothing is released when a Ping is all there is to send. -/
theorem counters_exact_iff_ping :
    ∀ t, SendsFrom (configured true ⟨false, false, false, false⟩ false 100,
        { sends := List.replicate 2 (.accept 100) })
      [.call (.queueMsg ⟨ping, [1]⟩), .call .send] t → ¬ DropsCtrl t :=
  ((counters_exact_iff true ⟨false, false, false, false⟩ false 100
    { sends := List.replicate 2 (.accept 100) }
    [.call (.queueMsg ⟨ping, [1]⟩), .call .send]).2 rfl).1 (by decide +kernel)

/-- A Ping, and a Close behind it. -/
def pingThenClose : EventContext × Io :=
  runOps (configured true ⟨false, false, false, false⟩ false 100, { sends := List.replicate 2 (.accept 100) })
    [.call (.queueMsg ⟨ping, [1]⟩), .call (.queueClose 1000 []), .call .send]

/-- When the Close has been sent, a message that nobody holds is still counted. -/
theorem pingThenClose_miscounted :
    ¬ CountersExact pingThenClose.1 ∧ pingThenClose.1.queuedMsgCount = 1 ∧
      pingThenClose.1.queuedMsgs = [] := by
  decide +kernel

end Wslay
