import Wslay.Event.Run
import Wslay.Event.SendLoop

/-!
# The account of what is sent

At every moment of a run the frames begun so far, the rest of the last of them
and the frames that the queued messages still need account exactly for what has
been put on the wire and for what has been queued (`Account`).  Every call of
the event layer keeps the account, `wslay_event_recv` included.

* `accounted_kept` — the account survives every call.
* `wire_legal` — without a Close, the octets on the wire are a front of a legal
  stream of frames that carries the queued messages once and in order.
-/

namespace Wslay

open Loop (Step)

/-! ## What has been queued -/

/-- The queue entry for a message. -/
def QueuedMsg.omsg : QueuedMsg → EventOmsg
  | .msg arg => ⟨1, arg.opcode, .nonFragmented, arg.msg, []⟩
  | .fragmented arg => ⟨0, arg.opcode, .fragmented, [], arg.source⟩

/-- The data messages that have been queued, in order. -/
def Io.queuedData (io : Io) : List EventOmsg :=
  (io.queued.map QueuedMsg.omsg).filter fun m => !isCtrlFrame m.opcode

/-- The control messages that have been queued, in order. -/
def Io.queuedCtrl (io : Io) : List EventOmsg :=
  (io.queued.map QueuedMsg.omsg).filter fun m => isCtrlFrame m.opcode

/-- Nothing has happened yet. -/
structure Io.Fresh (io : Io) : Prop where
  received : io.received = []
  wire : io.wire = []
  offers : io.offers = []
  calls : io.calls = []
  queued : io.queued = []
  discarded : io.discarded = []

/-- The account: the frames begun are `sent`, of the last one `owed` is still to
be put on the wire, and the frames still to be begun are those of `dataLeft`,
before what is queued later, and `ctrlLeft`. -/
structure Account (s : EventContext × Io) (sent : List Frame) (owed : List UInt8)
    (dataLeft : List Outline → List Outline) (ctrlLeft : List Outline) : Prop where
  legit : ∀ f ∈ sent, f.Legit s.1.server
  wire : s.2.wire ++ owed = sent.flatMap Frame.encode
  data : ∀ later, dataOutlines sent ++ dataLeft later = plans s.2.queuedData later
  ctrl : s.1.closeStatus.queued = false →
    ctrlOutlines sent ++ ctrlLeft = s.2.queuedCtrl.map EventOmsg.outline
  live : s.1.writeEnabled = true → ∃ h, Holds s.1 h ∧ h.Settled ∧ QueuesFit s.1 ∧ owed = h.owed ∧
    (∀ later, dataLeft later = h.data (plans s.1.sendQueue later)) ∧
    ctrlLeft = h.ctrl ++ s.1.sendCtrlQueue.map EventOmsg.outline

/-- There is an account. -/
def Accounted (s : EventContext × Io) : Prop := ∃ sent owed data ctrl, Account s sent owed data ctrl

theorem dataOutlines_append (fs gs : List Frame) :
    dataOutlines (fs ++ gs) = dataOutlines fs ++ dataOutlines gs := by
  simp [dataOutlines]

theorem ctrlOutlines_append (fs gs : List Frame) :
    ctrlOutlines (fs ++ gs) = ctrlOutlines fs ++ ctrlOutlines gs := by
  simp [ctrlOutlines]

/-! ## One pass -/

/-- A sender that is shut down keeps its account. -/
theorem Account.dead {s s' : EventContext × Io} {sent : List Frame} {owed : List UInt8}
    {data : List Outline → List Outline} {ctrl : List Outline} (ha : Account s sent owed data ctrl)
    (hserver : s'.1.server = s.1.server) (hwire : s'.2.wire = s.2.wire)
    (hqueued : s'.2.queued = s.2.queued)
    (hopen : s'.1.closeStatus.queued = false → s.1.closeStatus.queued = false)
    (hwrite : s'.1.writeEnabled = false) : Account s' sent owed data ctrl where
  legit := by rw [hserver]; exact ha.legit
  wire := by rw [hwire]; exact ha.wire
  data := by rw [Io.queuedData, hqueued]; exact ha.data
  ctrl := fun h => by rw [Io.queuedCtrl, hqueued]; exact ha.ctrl (hopen h)
  live := fun h => by rw [hwrite] at h; cases h

/-- **A pass of `wslay_event_send` keeps the account**, and adds to it the frames
that it begins. -/
theorem Account.sendPass {s : EventContext × Io} {sent : List Frame} {owed : List UInt8}
    {data : List Outline → List Outline} {ctrl : List Outline}
    (ha : Account s sent owed data ctrl) : Accounted (sendPass s).state := by
  obtain ⟨c, io⟩ := s
  by_cases hlive : c.writeEnabled = true
  · obtain ⟨h, hh, hsettled, hfit, rfl, hdata, rfl⟩ := ha.live hlive
    have hqueued := (sendPass_recvSame (c, io)).2.1
    rcases sendPass_spec hh hfit hlive io with ⟨c₁, io₁, h₁, begun, h', hc, hs⟩ | ⟨r, t, heq, hstop⟩
    · obtain ⟨x, hx⟩ : ∃ x, Wslay.sendPass (c, io) = x := ⟨_, rfl⟩
      rw [hx] at hs hqueued ⊢
      have hafter := hs.after
      refine ⟨sent ++ begun, h'.owed, fun later => h'.data (plans x.state.1.sendQueue later),
        h'.ctrl ++ x.state.1.sendCtrlQueue.map EventOmsg.outline, ?_, ?_, ?_, ?_, ?_⟩
      · rw [hafter.server, hc.server]
        intro f hf
        rcases List.mem_append.1 hf with hf | hf
        · exact ha.legit f hf
        · exact hc.server ▸ hs.legit f hf
      · rw [hs.wire, hc.wire, hc.owed, ha.wire, List.flatMap_append]
      · intro later
        rw [dataOutlines_append, List.append_assoc, ← hs.data, hafter.sendQueue, hc.data, ← hdata,
          Io.queuedData, hqueued]
        exact ha.data later
      · intro hopen
        rw [hafter.queued, hc.status] at hopen
        rw [ctrlOutlines_append, hafter.sendCtrlQueue, List.append_assoc, ← List.append_assoc _ h'.ctrl,
          ← hs.ctrl, hc.ctrl hopen, Io.queuedCtrl, hqueued]
        exact ha.ctrl hopen
      · intro hlive'
        obtain ⟨-, hh', hsettled', hrole'⟩ := hafter.alive hlive'
        refine ⟨h', hh', hsettled', ⟨?_, ?_, ?_⟩, rfl, fun _ => rfl, rfl⟩
        · rw [hafter.sendCtrlQueue]
          exact hc.fit.ctrl
        · rw [hafter.sendQueue]
          exact hc.fit.data
        · rw [hafter.server]
          exact hrole'
    · rw [heq] at hqueued ⊢
      cases hstop with
      | idle => exact ⟨sent, _, _, _, ha⟩
      | noClose io' hpre hclosing hno hal =>
        obtain ⟨hstate, hobuf, hmark⟩ := hh.atBoundary hpre
        obtain ⟨hback, howed, hnoctrl, hplan⟩ := hh.back hpre
        refine ⟨sent, [], fun later => plans (h.back ++ c.sendQueue) later, [], ha.legit, ?_, ?_, ?_,
          fun _ => ⟨.empty, .empty rfl hstate hobuf hmark, trivial, ⟨by simp, ?_, hfit.role⟩, rfl,
            fun _ => rfl, rfl⟩⟩
        · have hwire := ha.wire
          rw [howed] at hwire
          simp only [Step.state_leave]
          rw [(release_allocates hal c.sendCtrlQueue).1]
          exact hwire
        · intro later
          rw [Io.queuedData, hqueued, plans_append, ← hplan, ← hdata]
          exact ha.data later
        · intro hopen
          simp only [Step.state_leave] at hopen
          rw [hclosing] at hopen
          cases hopen
        · intro m hm
          rcases List.mem_append.1 hm with hm | hm
          · exact (hback m hm).1
          · exact hfit.data m hm
      | noMem io' hal =>
        exact ⟨sent, _, _, _, ha.dead rfl (by rw [Step.state_leave, hal.eq]) hqueued id rfl⟩
  · have hstay : Wslay.sendPass (c, io) = .leave 0 (c, io) := by
      unfold Wslay.sendPass eventWantWrite
      simp [hlive]
    rw [hstay]
    exact ⟨sent, owed, data, ctrl, ha⟩

/-! ## The other calls -/

theorem EncView.congr {f g : FrameContext} (h : g.sendHalf = f.sendHalf) {e : Enc}
    (hv : EncView f e) : EncView g e := by
  simp only [FrameContext.sendHalf, Prod.mk.injEq] at h
  obtain ⟨h1, h2, h3, h4, -, -, h7⟩ := h
  have hrest : g.oheaderRest = f.oheaderRest := by
    rw [FrameContext.oheaderRest, FrameContext.oheaderRest, h1, h2]
  cases hv with
  | idle hs => exact .idle (h7.trans hs)
  | header len hrest' hs hr hne hl ho =>
    exact .header len hrest' (h7.trans hs) (hrest.trans hr) hne (h3.trans hl) (h4.trans ho)
  | payload len off hs hl ho hlt =>
    exact .payload len off (h7.trans hs) (h3.trans hl) (h4.trans ho) hlt

theorem effKey_congr {f g : FrameContext} (h : g.sendHalf = f.sendHalf) : g.effKey = f.effKey := by
  simp only [FrameContext.sendHalf, Prod.mk.injEq] at h
  rw [FrameContext.effKey, FrameContext.effKey, h.2.2.2.2.1, h.2.2.2.2.2.1]

/-- What the hand of a context depends on. -/
theorem Holds.congr {c c' : EventContext} {h : Hand} (hh : Holds c h)
    (hframe : c'.frameCtx.sendHalf = c.frameCtx.sendHalf) (homsg : c'.omsg = c.omsg)
    (hobuf : c'.obuf = c.obuf) (hmark : c'.obufmark = c.obufmark)
    (hlen : c'.opayloadlen = c.opayloadlen) (hoff : c'.opayloadoff = c.opayloadoff) :
    Holds c' h := by
  have hkey := effKey_congr hframe
  have hstate : c'.frameCtx.ostate = c.frameCtx.ostate := by
    simp only [FrameContext.sendHalf, Prod.mk.injEq] at hframe
    exact hframe.2.2.2.2.2.2
  cases hh with
  | empty h1 h2 h3 h4 =>
    exact .empty (homsg.trans h1) (hstate.trans h2) (hobuf.trans h3) (hmark.trans h4)
  | start m h1 h2 h3 h4 h5 h6 h7 =>
    exact .start m (homsg.trans h1) h2 (hstate.trans h3) (hlen.trans h4) (hoff.trans h5)
      (hobuf.trans h6) (hmark.trans h7)
  | between m h1 h2 h3 h4 h5 h6 h7 =>
    exact .between m (homsg.trans h1) h2 h3 h4 (hstate.trans h5) (hobuf.trans h6) (hmark.trans h7)
  | whole m hrest h1 h2 h3 h4 h5 h6 =>
    rw [← hkey, ← hoff]
    rw [← hoff] at h3
    exact .whole m hrest (homsg.trans h1) h2 (h3.congr hframe) (hlen.trans h4) (hobuf.trans h5)
      (hmark.trans h6)
  | fragment m hrest h1 h2 h3 h4 h5 h6 h7 =>
    rw [← hkey, ← hmark, ← hobuf]
    rw [← hmark, ← hobuf] at h5 h6
    rw [← hobuf] at h7
    exact .fragment m hrest (homsg.trans h1) h2 h3 h4 (h5.congr hframe) h6 (hlen.trans h7)

/-- A change of the world that the account does not look at. -/
theorem Account.io {c : EventContext} {io io' : Io} {sent : List Frame} {owed : List UInt8}
    {data : List Outline → List Outline} {ctrl : List Outline}
    (ha : Account (c, io) sent owed data ctrl) (hwire : io'.wire = io.wire)
    (hqueued : io'.queued = io.queued) : Account (c, io') sent owed data ctrl where
  legit := ha.legit
  wire := by rw [hwire]; exact ha.wire
  data := by rw [Io.queuedData, hqueued]; exact ha.data
  ctrl := by rw [Io.queuedCtrl, hqueued]; exact ha.ctrl
  live := ha.live

/-- A control message that is queued is entered on both sides of the account. -/
theorem Account.enqueueCtrl {c : EventContext} {io : Io} {sent : List Frame} {owed : List UInt8}
    {data : List Outline → List Outline} {ctrl : List Outline}
    (ha : Account (c, io) sent owed data ctrl) (hlive : c.writeEnabled = true) {q : QueuedMsg}
    (hq : q.omsg.FitCtrl) (count length : Nat) :
    Accounted ({ c with sendCtrlQueue := c.sendCtrlQueue ++ [q.omsg],
                        queuedMsgCount := count, queuedMsgLength := length }, io.noteQueued q) := by
  obtain ⟨h, hh, hsettled, hfit, rfl, hdata, rfl⟩ := ha.live hlive
  have hctrl : (io.noteQueued q).queuedCtrl = io.queuedCtrl ++ [q.omsg] := by
    simp [Io.noteQueued, Io.queuedCtrl, hq.2.2.1]
  have hsame : (io.noteQueued q).queuedData = io.queuedData := by
    simp [Io.noteQueued, Io.queuedData, hq.2.2.1]
  refine ⟨sent, h.owed, data, h.ctrl ++ (c.sendCtrlQueue ++ [q.omsg]).map EventOmsg.outline,
    ha.legit, ha.wire, ?_, ?_, fun _ => ⟨h, hh.congr rfl rfl rfl rfl rfl rfl, hsettled,
      ⟨?_, hfit.data, hfit.role⟩, rfl, hdata, rfl⟩⟩
  · rw [hsame]
    exact ha.data
  · intro hopen
    rw [hctrl, List.map_append, List.map_append, ← ha.ctrl hopen]
    simp only [List.append_assoc]
  · intro m hm
    rcases List.mem_append.1 hm with hm | hm
    · exact hfit.ctrl m hm
    · rw [List.mem_singleton.1 hm]
      exact hq

/-- A data message that is queued is entered on both sides of the account. -/
theorem Account.enqueueData {c : EventContext} {io : Io} {sent : List Frame} {owed : List UInt8}
    {data : List Outline → List Outline} {ctrl : List Outline}
    (ha : Account (c, io) sent owed data ctrl) (hlive : c.writeEnabled = true) {q : QueuedMsg}
    (hq : q.omsg.FitData) (count length : Nat) :
    Accounted ({ c with sendQueue := c.sendQueue ++ [q.omsg],
                        queuedMsgCount := count, queuedMsgLength := length }, io.noteQueued q) := by
  obtain ⟨h, hh, hsettled, hfit, rfl, hdata, rfl⟩ := ha.live hlive
  have hctrl : (io.noteQueued q).queuedCtrl = io.queuedCtrl := by
    simp [Io.noteQueued, Io.queuedCtrl, hq.1]
  have hmore : (io.noteQueued q).queuedData = io.queuedData ++ [q.omsg] := by
    simp [Io.noteQueued, Io.queuedData, hq.1]
  refine ⟨sent, h.owed, fun later => h.data (plans (c.sendQueue ++ [q.omsg]) later), _,
    ha.legit, ha.wire, ?_, ?_, fun _ => ⟨h, hh.congr rfl rfl rfl rfl rfl rfl, hsettled,
      ⟨hfit.ctrl, ?_, hfit.role⟩, rfl, fun _ => rfl, rfl⟩⟩
  · intro later
    rw [hmore, plans_append, plans_append, ← hdata]
    exact ha.data _
  · rw [hctrl]
    exact ha.ctrl
  · intro m hm
    rcases List.mem_append.1 hm with hm | hm
    · exact hfit.data m hm
    · rw [List.mem_singleton.1 hm]
      exact hq

theorem Accounted.withMsg {c : EventContext} {io : Io} (ha : Accounted (c, io))
    (hlive : c.writeEnabled = true) (arg : EventMsg)
    (hshort : isCtrlFrame arg.opcode = true → arg.msg.length ≤ 125) :
    Accounted (c.withMsg arg, io.noteQueued (.msg arg)) := by
  obtain ⟨sent, owed, data, ctrl, ha⟩ := ha
  unfold EventContext.withMsg
  by_cases hc : isCtrlFrame arg.opcode = true
  · simp only [if_pos hc]
    exact ha.enqueueCtrl hlive (q := .msg arg) ⟨rfl, rfl, hc, hshort hc⟩ _ _
  · simp only [if_neg hc]
    exact ha.enqueueData hlive (q := .msg arg) ⟨Bool.eq_false_iff.2 hc, Or.inl ⟨rfl, rfl⟩⟩ _ _

/-- Every call of the application keeps the account. -/
theorem Accounted.appCall {c : EventContext} {io : Io} (hs : Accounted (c, io)) (a : AppCall) :
    Accounted (appCall c io a).2 := by
  have hallocates : ∀ io', io.Allocates io' → Accounted (c, io') := by
    intro io' h
    obtain ⟨sent, owed, data, ctrl, ha⟩ := hs
    exact ⟨sent, owed, data, ctrl, ha.io (by rw [h.eq]) (by rw [h.eq])⟩
  have hlive : eventIsMsgQueueable c = true → c.writeEnabled = true := by
    simp only [eventIsMsgQueueable, Bool.and_eq_true]
    exact And.left
  cases a with
  | queueMsg arg =>
    change Accounted (eventQueueMsg c arg io).2
    rcases eventQueueMsg_cases c arg io with ⟨-, heq⟩ | ⟨-, -, -, heq⟩ |
      ⟨hq, hshort, io', ha, heq | ⟨-, r, -, -, heq⟩⟩ <;> rw [heq]
    · exact hs
    · exact hs
    · exact (hallocates io' ha).withMsg (hlive hq) arg hshort
    · exact hallocates io' ha
  | queueFragmentedMsg arg =>
    change Accounted (eventQueueFragmentedMsg c arg io).2
    rcases eventQueueFragmentedMsg_cases c arg io with ⟨-, heq⟩ | ⟨-, -, heq⟩ |
      ⟨hq, hdata, io', ha, heq | ⟨-, heq⟩⟩ <;> rw [heq]
    · exact hs
    · exact hs
    · obtain ⟨sent, owed, data, ctrl, ha⟩ := hallocates io' ha
      exact ha.enqueueData (hlive hq) (q := .fragmented arg) ⟨hdata, Or.inr ⟨rfl, rfl⟩⟩ _ _
    · exact hallocates io' ha
  | queueClose code reason =>
    change Accounted (eventQueueClose c code reason io).2
    rcases eventQueueClose_cases c code reason io with ⟨-, heq⟩ | ⟨-, -, heq⟩ |
      ⟨hq, hshort, io', ha, heq | ⟨-, r, -, -, heq⟩⟩ <;> rw [heq]
    · exact hs
    · exact hs
    · have hshort' : isCtrlFrame connectionClose = true → (closeBody code reason).length ≤ 125 :=
        fun _ => length_closeBody code hshort
      obtain ⟨sent, owed, data, ctrl, ha⟩ := (hallocates io' ha).withMsg (hlive hq)
        ⟨connectionClose, closeBody code reason⟩ hshort'
      refine ⟨sent, owed, data, ctrl, ha.legit, ha.wire, ha.data, fun h => ?_, fun h => ?_⟩
      · cases h
      · obtain ⟨h', hh, hsettled, hfit, hrest⟩ := ha.live h
        exact ⟨h', hh.congr rfl rfl rfl rfl rfl rfl, hsettled, ⟨hfit.ctrl, hfit.data, hfit.role⟩,
          hrest⟩
    · exact hallocates io' ha
  | send =>
    change Accounted (eventSend c io).2
    unfold eventSend
    cases hrun : Loop.run Wslay.sendPass (sendFuel c) (c, io) with
    | none => exact hs
    | some x =>
      refine Loop.run_inv (fun t ht => ?_) hs hrun
      obtain ⟨sent, owed, data, ctrl, ha⟩ := ht
      rw [Step.all_iff]
      exact ha.sendPass
  | setError val =>
    obtain ⟨sent, owed, data, ctrl, ha⟩ := hs
    exact ⟨sent, owed, data, ctrl, ha.io rfl rfl⟩
  | shutdownRead =>
    obtain ⟨sent, owed, data, ctrl, ha⟩ := hs
    refine ⟨sent, owed, data, ctrl, ha.legit, ha.wire, ha.data, ha.ctrl, fun h => ?_⟩
    obtain ⟨h', hh, hsettled, hfit, hrest⟩ := ha.live h
    exact ⟨h', hh.congr rfl rfl rfl rfl rfl rfl, hsettled, ⟨hfit.ctrl, hfit.data, hfit.role⟩, hrest⟩
  | shutdownWrite =>
    obtain ⟨sent, owed, data, ctrl, ha⟩ := hs
    exact ⟨sent, owed, data, ctrl, ha.dead rfl rfl rfl id rfl⟩

/-- **Every call of the event layer keeps the account**, whatever the callbacks
do, and whatever the application calls from inside them. -/
theorem accounted_kept : Kept (fun _ => True) Accounted where
  same := by
    intro s s' hss ⟨sent, owed, data, ctrl, ha⟩
    have hc := hss.context
    have hio := hss.io
    simp only [EventContext.sendHalf, Prod.mk.injEq] at hc
    simp only [Io.sendHalf, Prod.mk.injEq] at hio
    obtain ⟨hserver, hclosing, -, hwrite, -, hframe, homsg, hqueue, hctrl, -, -, hobuf, hmark, hlen,
      hoff⟩ := hc
    obtain ⟨-, -, hwire, -, hqueued, -⟩ := hio
    refine ⟨sent, owed, data, ctrl, by rw [hserver]; exact ha.legit, by rw [hwire]; exact ha.wire,
      by rw [Io.queuedData, hqueued]; exact ha.data,
      by rw [hclosing, Io.queuedCtrl, hqueued]; exact ha.ctrl, fun h => ?_⟩
    obtain ⟨h', hh, hsettled, hfit, hrest⟩ := ha.live (hwrite ▸ h)
    refine ⟨h', hh.congr hframe homsg hobuf hmark hlen hoff, hsettled, ⟨?_, ?_, ?_⟩, ?_⟩
    · rw [hctrl]
      exact hfit.ctrl
    · rw [hqueue]
      exact hfit.data
    · rw [hserver, effKey_congr hframe]
      exact hfit.role
    · rw [hqueue, hctrl]
      exact hrest
  call := fun _ hs => hs.appCall _
  apps := fun _ _ _ _ _ => trivial
  pong := fun _ => trivial
  close := fun _ _ => trivial

/-- The account at the beginning of a run. -/
theorem accounted_configured (server : Bool) (callbacks : EventCallbacks) (noBuffering : Bool)
    (maxRecvMsgLength : Nat) {io : Io} (hio : io.Fresh) :
    Accounted (configured server callbacks noBuffering maxRecvMsgLength, io) := by
  refine ⟨[], [], id, [], by simp, by simp [hio.wire], fun later => ?_, fun _ => ?_, fun _ => ?_⟩
  · simp [Io.queuedData, hio.queued, plans, dataOutlines]
  · simp [Io.queuedCtrl, hio.queued, ctrlOutlines]
  · exact ⟨.empty, .empty rfl rfl rfl rfl, trivial, ⟨by
      simp [configured, eventConfigSetMaxRecvMsgLength, eventConfigSetNoBuffering, freshContext], by
      simp [configured, eventConfigSetMaxRecvMsgLength, eventConfigSetNoBuffering, freshContext],
      fun _ => rfl⟩, rfl, fun _ => rfl, rfl⟩

/-! ## Runs without a Close -/

/-- The calls that keep the control queue in order: all but `wslay_event_queue_close`. -/
def AppCall.QueuesNoClose : AppCall → Prop
  | .queueClose .. => False
  | _ => True

/-- While no Close is queued the application's calls leave the flag clear. -/
theorem queued_appCall {c : EventContext} {a : AppCall} (ha : a.QueuesNoClose) (io : Io) :
    (appCall c io a).2.1.closeStatus.queued = c.closeStatus.queued ∧
      (appCall c io a).2.1.server = c.server := by
  cases a with
  | queueMsg arg =>
    change (eventQueueMsg c arg io).2.1.closeStatus.queued = _ ∧
      (eventQueueMsg c arg io).2.1.server = _
    have hwith : (c.withMsg arg).closeStatus = c.closeStatus ∧ (c.withMsg arg).server = c.server := by
      unfold EventContext.withMsg
      simp only
      split_ifs <;> exact ⟨rfl, rfl⟩
    rcases eventQueueMsg_cases c arg io with ⟨-, heq⟩ | ⟨-, -, -, heq⟩ |
      ⟨-, -, io', -, heq | ⟨-, r, -, -, heq⟩⟩ <;> rw [heq]
    · exact ⟨rfl, rfl⟩
    · exact ⟨rfl, rfl⟩
    · exact ⟨congrArg CloseStatus.queued hwith.1, hwith.2⟩
    · exact ⟨rfl, rfl⟩
  | queueFragmentedMsg arg =>
    change (eventQueueFragmentedMsg c arg io).2.1.closeStatus.queued = _ ∧
      (eventQueueFragmentedMsg c arg io).2.1.server = _
    rcases eventQueueFragmentedMsg_cases c arg io with ⟨-, heq⟩ | ⟨-, -, heq⟩ |
      ⟨-, -, io', -, heq | ⟨-, heq⟩⟩ <;> rw [heq] <;> exact ⟨rfl, rfl⟩
  | queueClose => exact ha.elim
  | send =>
    have h := (eventSend_recvSame c io).1.context
    simp only [EventContext.recvHalf, Prod.mk.injEq] at h
    exact ⟨h.2.1, h.1⟩
  | setError => exact ⟨rfl, rfl⟩
  | shutdownRead => exact ⟨rfl, rfl⟩
  | shutdownWrite => exact ⟨rfl, rfl⟩

/-- A pass from here is about to begin a data frame, if there is one to begin. -/
def BeginsData (t : EventContext × Io) : Prop :=
  eventWantWrite t.1 = true ∧ ∃ c io m, sendPick t.1 t.2 = .again (c, io) ∧ c.omsg = some m ∧
    isCtrlFrame m.opcode = false ∧ c.frameCtx.ostate = .prepHeader

/-- A data frame is begun only when no control message is waiting. -/
theorem Accounted.beginsData {t : EventContext × Io} (ht : Accounted t) (hb : BeginsData t) :
    t.1.sendCtrlQueue = [] := by
  obtain ⟨hwant, c, io, m, hpick, homsg, hdata, hstate⟩ := hb
  obtain ⟨sent, owed, data, ctrl, ha⟩ := ht
  have hlive : t.1.writeEnabled = true := by
    simp only [eventWantWrite, Bool.and_eq_true] at hwant
    exact hwant.1
  obtain ⟨h, hh, -, hfit, -⟩ := ha.live hlive
  have hp := sendPick_spec hh hfit t.2
  rw [hpick] at hp
  obtain ⟨h₁, hc⟩ := hp.chosen hh hfit
  exact (hc.first ((hc.holds.preemptible homsg).1.1 ⟨hdata, hstate⟩)).1

/-- The wire carries the queued messages: what is on it is a front of the frames
`sent`, which are legal, and whose outlines are in order those of the messages
queued; and when nothing is left to send nothing has been left out. -/
structure CarriesQueued (server : Bool) (s : EventContext × Io) (sent : List Frame) : Prop where
  legit : ∀ f ∈ sent, f.Legit server
  wire : s.2.wire <+: sent.flatMap Frame.encode
  data : dataOutlines sent <+: plans s.2.queuedData []
  ctrl : ctrlOutlines sent <+: s.2.queuedCtrl.map EventOmsg.outline
  all : s.1.writeEnabled = true → eventWantWrite s.1 = false →
    s.2.wire = sent.flatMap Frame.encode ∧ dataOutlines sent = plans s.2.queuedData [] ∧
      ctrlOutlines sent = s.2.queuedCtrl.map EventOmsg.outline

theorem Account.carriesQueued {s : EventContext × Io} {sent : List Frame} {owed : List UInt8}
    {data : List Outline → List Outline} {ctrl : List Outline} (ha : Account s sent owed data ctrl)
    (hopen : s.1.closeStatus.queued = false) : CarriesQueued s.1.server s sent where
  legit := ha.legit
  wire := ⟨owed, ha.wire⟩
  data := ⟨data [], ha.data []⟩
  ctrl := ⟨ctrl, ha.ctrl hopen⟩
  all := by
    intro hlive hwant
    obtain ⟨h, hh, -, -, rfl, hdata, rfl⟩ := ha.live hlive
    have hctrl := ha.ctrl hopen
    have hwire := ha.wire
    have hlater := ha.data []
    rw [hdata] at hlater
    simp only [eventWantWrite, hlive, Bool.true_and, Bool.or_eq_false_iff, Bool.not_eq_false',
      List.isEmpty_iff, Option.isSome_eq_false_iff, Option.isNone_iff_eq_none] at hwant
    obtain ⟨⟨hqueue, hctrl'⟩, homsg⟩ := hwant
    rw [hh.omsg_eq_none.1 homsg] at hwire hctrl hlater
    rw [hqueue] at hlater
    rw [hctrl'] at hctrl
    exact ⟨by simpa [Hand.owed] using hwire, by simpa [Hand.data, plans] using hlater,
      by simpa [Hand.ctrl] using hctrl⟩

/-- **What is sent is a legal stream that carries the queued messages once and in
order**, after any calls of the application but `wslay_event_queue_close`; and a
data frame is begun only when the control queue is empty. -/
theorem wire_legal (server : Bool) (callbacks : EventCallbacks) (noBuffering : Bool)
    (maxRecvMsgLength : Nat) {io : Io} (hio : io.Fresh) {calls : List AppCall}
    (hcalls : ∀ a ∈ calls, a.QueuesNoClose) :
    (∃ sent, CarriesQueued server
        (runOps (configured server callbacks noBuffering maxRecvMsgLength, io) (calls.map .call))
        sent) ∧
      ∀ t, SendsFrom (configured server callbacks noBuffering maxRecvMsgLength, io)
        (calls.map .call) t → BeginsData t → t.1.sendCtrlQueue = [] := by
  obtain ⟨start, hstart⟩ : ∃ start,
      (configured server callbacks noBuffering maxRecvMsgLength, io) = start := ⟨_, rfl⟩
  have hfresh : Accounted start := hstart ▸ accounted_configured server callbacks noBuffering
    maxRecvMsgLength hio
  have hflags : start.1.closeStatus.queued = false ∧ start.1.server = server := by
    rw [← hstart]
    exact ⟨rfl, rfl⟩
  rw [hstart]
  constructor
  · have hopen : (runOps start (calls.map .call)).1.closeStatus.queued = false ∧
        (runOps start (calls.map .call)).1.server = server := by
      have hstep : ∀ s op, (∃ a : AppCall, op = .call a ∧ a.QueuesNoClose) →
          (s.1.closeStatus.queued = false ∧ s.1.server = server) →
          (step s op).2.1.closeStatus.queued = false ∧ (step s op).2.1.server = server := by
        rintro s _ ⟨a, rfl, ha⟩ ⟨hq, hs⟩
        obtain ⟨h1, h2⟩ := queued_appCall (c := s.1) ha s.2
        exact ⟨h1.trans hq, h2.trans hs⟩
      refine runOps_inv (P := fun s => s.1.closeStatus.queued = false ∧ s.1.server = server) hstep
        (fun op hop => ?_) hflags
      obtain ⟨a, ha, rfl⟩ := List.mem_map.1 hop
      exact ⟨a, rfl, hcalls a ha⟩
    obtain ⟨sent, owed, data, ctrl, ha⟩ : Accounted (runOps start (calls.map .call)) :=
      accounted_kept.runOps hfresh fun _ _ => trivial
    refine ⟨sent, ?_⟩
    have := ha.carriesQueued hopen.1
    rwa [hopen.2] at this
  · rintro t ⟨before, -, ht⟩ hb
    refine Accounted.beginsData (ht.inv ?_ (accounted_kept.runOps hfresh fun _ _ => trivial)) hb
    rintro s s' ⟨sent, owed, data, ctrl, ha⟩ heq
    have := ha.sendPass
    rwa [heq] at this

/-- A fragmented text, of which a Ping interrupts the sending. -/
def interruptedCalls : List AppCall :=
  [.queueFragmentedMsg ⟨textFrame, [.data [1, 2] false (by decide), .data [3] true (by decide)]⟩,
    .send, .queueMsg ⟨binaryFrame, [4]⟩, .queueMsg ⟨ping, [5]⟩, .send]

/-- A callback that takes one octet, and afterwards everything. -/
def interruptedIo : Io := { sends := .accept 1 :: List.replicate 8 (.accept 100) }

theorem wire_legal_interrupted :
    (∃ sent, CarriesQueued true
        (runOps (configured true ⟨false, false, false, false⟩ false 100, interruptedIo)
          (interruptedCalls.map .call)) sent) ∧
      ∀ t, SendsFrom (configured true ⟨false, false, false, false⟩ false 100, interruptedIo)
        (interruptedCalls.map .call) t → BeginsData t → t.1.sendCtrlQueue = [] :=
  wire_legal true ⟨false, false, false, false⟩ false 100 ⟨rfl, rfl, rfl, rfl, rfl, rfl⟩
    (by simp [interruptedCalls, AppCall.QueuesNoClose])

/-- The Ping is sent between the two fragments. -/
example : (runOps (configured true ⟨false, false, false, false⟩ false 100, interruptedIo)
    (interruptedCalls.map .call)).2.wire =
      [0x01, 2, 1, 2, 0x89, 1, 5, 0x80, 1, 3, 0x82, 1, 4] := by
  decide +kernel

end Wslay
