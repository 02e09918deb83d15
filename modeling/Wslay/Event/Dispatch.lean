import Wslay.Event.Closing
import Wslay.Event.Healthy

/-!
# The account of a sender that may close

What `Healthy` says of a sender ends when a Close is queued.  Here is what remains true
until the Close has been sent, and afterwards: writing is over only when a Close is
complete on the wire, and `status_code_sent` is the code in its body.

* `Dispatch` — **the invariant**.
* `Dispatch.sendPass` — one pass of `wslay_event_send` keeps it.
* `Dispatch.eventSend` — so does a call, which succeeds.
* `Dispatch.enqueues`, `Follows.enqueues` — so do queueing and automatic replies.
-/

namespace Wslay

open Loop (Step)

/-! ## What is in hand -/

/-- The hand is known from the context. -/
theorem Holds.unique {c : EventContext} {h h' : Hand} (hh : Holds c h) (hh' : Holds c h')
    (hs : h.Settled) (hs' : h'.Settled) : h = h' := by
  have hrest : ∀ {len off : Nat} {x y : List UInt8}, EncView c.frameCtx (.busy len x off) →
      EncView c.frameCtx (.busy len y off) → x = y := by
    intro len off x y hx hy
    cases hx with
    | header _ _ hstate hrest =>
      cases hy with
      | header _ _ _ hrest' => exact hrest.symm.trans hrest'
      | payload _ _ hstate' => exact absurd (hstate.symm.trans hstate') (by decide)
    | payload _ _ hstate =>
      cases hy with
      | header _ _ hstate' => exact absurd (hstate.symm.trans hstate') (by decide)
      | payload => rfl
  cases hh with
  | empty hnone =>
    exact (hh'.omsg_eq_none.1 hnone).symm
  | start m => exact hs.elim
  | between m hsome htype _ _ hstate =>
    cases hh' with
    | empty hnone => rw [hsome] at hnone; cases hnone
    | start => exact hs'.elim
    | between m' hsome' =>
      rw [hsome] at hsome'
      cases hsome'
      rfl
    | whole m' _ hsome' hfit =>
      rw [hsome] at hsome'
      cases hsome'
      exact absurd (htype.symm.trans hfit.1) (by decide)
    | fragment m' _ _ _ _ _ hv => exact absurd hstate hv.ostate_ne
  | whole m hr hsome hfit hv =>
    cases hh' with
    | empty hnone => rw [hsome] at hnone; cases hnone
    | start => exact hs'.elim
    | between m' hsome' htype =>
      rw [hsome] at hsome'
      cases hsome'
      exact absurd (htype.symm.trans hfit.1) (by decide)
    | whole m' hr' hsome' _ hv' =>
      rw [hsome] at hsome'
      cases hsome'
      rw [hrest hv hv']
    | fragment m' _ hsome' htype =>
      rw [hsome] at hsome'
      cases hsome'
      exact absurd (htype.symm.trans hfit.1) (by decide)
  | fragment m hr hsome htype _ _ hv =>
    cases hh' with
    | empty hnone => rw [hsome] at hnone; cases hnone
    | start => exact hs'.elim
    | between m' _ _ _ _ hstate => exact absurd hstate hv.ostate_ne
    | whole m' _ hsome' hfit =>
      rw [hsome] at hsome'
      cases hsome'
      exact absurd (htype.symm.trans hfit.1) (by decide)
    | fragment m' hr' hsome' _ _ _ hv' =>
      rw [hsome] at hsome'
      cases hsome'
      rw [hrest hv hv']

/-! ## Sending a Close -/

/-- The status code that is recorded for a Close with this body. -/
def codeOf (body : List UInt8) : Nat :=
  if closeStatusCode body = 0 then codeNoStatusRcvd else closeStatusCode body

/-- What a pass does with a message that is sent in one frame: it completes the message,
or it stops, and may fail. -/
theorem sendNonFragmented_cases (c : EventContext) (m : EventOmsg) (io : Io) :
    (∃ f off io', sendNonFragmented c m io =
      .again (finishNonFragmented { c with frameCtx := f, opayloadoff := off } m, io')) ∨
    ∃ r f off w io', sendNonFragmented c m io =
        .leave r ({ c with frameCtx := f, opayloadoff := off, writeEnabled := w }, io') ∧
      (w = c.writeEnabled ∨ r = Err.callbackFailure.code) := by
  unfold sendNonFragmented
  obtain ⟨x, f, io₁, hcall⟩ : ∃ x f io₁, frameSend c.frameCtx (nonFragmentedIocb c m) io =
      (x, f, io₁) := ⟨_, _, _, rfl⟩
  rw [hcall]
  cases x with
  | error e =>
    right
    simp only [sendFrameError]
    split_ifs
    · exact ⟨_, f, c.opayloadoff, false, io₁, rfl, Or.inr rfl⟩
    · exact ⟨_, f, c.opayloadoff, c.writeEnabled, io₁, rfl, Or.inl rfl⟩
  | ok n =>
    simp only
    split_ifs
    · exact Or.inl ⟨f, c.opayloadoff + n, io₁, rfl⟩
    · exact Or.inr ⟨_, f, c.opayloadoff + n, c.writeEnabled, io₁, rfl, Or.inl rfl⟩

/-- A Close that is complete. -/
theorem finishNonFragmented_close (c : EventContext) {m : EventOmsg}
    (hm : m.opcode = connectionClose) :
    (finishNonFragmented c m).omsg = none ∧ (finishNonFragmented c m).closeStatus.sent = true ∧
      (finishNonFragmented c m).statusCodeSent = codeOf m.data := by
  unfold finishNonFragmented
  rw [if_pos hm]
  exact ⟨rfl, rfl, rfl⟩

/-- A Close in hand is a message that is sent in one frame. -/
theorem Holds.close {c : EventContext} {h : Hand} (hh : Holds c h) (hc : h.IsClose) :
    ∃ m, c.omsg = some m ∧ m.opcode = connectionClose ∧ m.type = .nonFragmented ∧
      (h = .start m ∨ ∃ rest, h = .whole m rest) := by
  cases hh with
  | empty => exact hc.elim
  | start m hsome hfit => exact ⟨m, hsome, hc, hfit.1, Or.inl rfl⟩
  | between => exact hc.elim
  | whole m _ hsome hfit => exact ⟨m, hsome, hc, hfit.1, Or.inr ⟨_, rfl⟩⟩
  | fragment => exact hc.elim

/-! ## The invariant -/

/-- **The frames begun are `sent`, and `owed` of the last one is still to be put on the
wire.**  They make a front of the data messages that have been queued, their control
frames are such as `P` allows, and sending has ended with a Close if it has ended. -/
structure Dispatch (P : Outline → Prop) (s : EventContext × Io) (sent : List Frame)
    (owed : List UInt8) : Prop where
  course : Course s sent owed
  front : dataOutlines sent <+: plans s.2.queuedData []
  ctrl : ∀ o ∈ ctrlOutlines sent, P o
  queue : ∀ m ∈ s.1.sendQueue, m.Fine
  ctrlQueue : ∀ m ∈ s.1.sendCtrlQueue, m.Fine ∧ P m.outline
  live : s.1.writeEnabled = true → ∃ h, Holds s.1 h ∧ h.Settled ∧ h.Fine ∧
    (∀ later, dataOutlines sent ++ h.data (plans s.1.sendQueue later) =
      plans s.2.queuedData later) ∧
    ∀ m rest, h = .whole m rest → m.opcode = connectionClose →
      ∃ f, sent.getLast? = some f ∧ f.payload = m.data
  finished : s.1.writeEnabled = false → owed = [] ∧ s.1.closeStatus.sent = true ∧
    ∃ f, sent.getLast? = some f ∧ f.IsClose ∧ s.1.statusCodeSent = codeOf f.payload
  willing : s.2.Willing
  mem : s.2.MemOk

section

variable {P : Outline → Prop} {s : EventContext × Io} {sent : List Frame} {owed : List UInt8}

/-- The only outline of one frame. -/
theorem ctrlOutlines_single {f : Frame} {o : Outline} (h : ctrlOutlines [f] = [o]) :
    f.outline = o := by
  unfold ctrlOutlines at h
  rw [List.map_singleton, List.filter_singleton] at h
  cases hctrl : f.outline.isCtrl with
  | true =>
    rw [hctrl] at h
    exact List.singleton_inj.1 h
  | false =>
    rw [hctrl] at h
    cases h

/-- **The frame of the Close in hand** is the last one, whether a pass has begun it or it
was there before. -/
theorem Sends.close_last {c c₁ : EventContext} {io io₁ : Io} {h h₁ h' : Hand}
    {x : Step (EventContext × Io) Int} {begun : List Frame} (hh : Holds c h)
    (hch : Chosen c io h c₁ io₁ h₁) (hs : Sends c₁ io₁ h₁ x begun h') (hctrl' : h'.ctrl = [])
    (hlink : ∀ m rest, h = .whole m rest → m.opcode = connectionClose →
      ∃ f, sent.getLast? = some f ∧ f.payload = m.data)
    (hlast : LastIsClose sent ↔ h.IsClose) {m : EventOmsg} (homsg : c₁.omsg = some m)
    (hclose : h₁.IsClose) :
    ∃ f, (sent ++ begun).getLast? = some f ∧ f.IsClose ∧ f.payload = m.data := by
  obtain ⟨m', hsome, hopcode, -, hform⟩ := hch.holds.close hclose
  rw [homsg] at hsome
  cases hsome
  rcases hform with rfl | ⟨rest, rfl⟩
  · have hctrl := hs.ctrl
    rw [Hand.start_close hopcode, hctrl', List.append_nil] at hctrl
    rcases hs.begins with rfl | ⟨f, rfl, -, hopens⟩
    · cases hctrl
    · have houtline := ctrlOutlines_single hctrl.symm
      exact ⟨f, List.getLast?_concat, hopens hopcode, congrArg Outline.payload houtline⟩
  · have hsame : h = .whole m rest := by
      rcases hch.origin with heq | ⟨m', heq, -⟩
      · exact heq.symm
      · unfold Hand.ofMsg at heq
        split_ifs at heq
    have howes := hh.owes
    rw [hsame] at howes
    rcases hs.begins with rfl | ⟨f, -, howed, -⟩
    · rw [List.append_nil]
      obtain ⟨f, hf, hpayload⟩ := hlink m rest hsame hopcode
      obtain ⟨g, hg, hgclose⟩ := hlast.2 (hsame ▸ hopcode)
      rw [hf] at hg
      cases hg
      exact ⟨f, hf, hgclose, hpayload⟩
    · exact absurd howed howes

/-- What is chosen can be sent. -/
theorem Chosen.fine {c c₁ : EventContext} {io io₁ : Io} {h h₁ : Hand}
    (hch : Chosen c io h c₁ io₁ h₁) (hfine : h.Fine) (hq : ∀ m ∈ c.sendQueue, m.Fine)
    (hcq : ∀ m ∈ c.sendCtrlQueue, m.Fine) : h₁.Fine ∧ ∀ m ∈ c₁.sendQueue, m.Fine := by
  refine ⟨?_, ?_⟩
  · rcases hch.origin with rfl | ⟨m, rfl, hmem⟩
    · exact hfine
    · intro m' hm'
      rw [ofMsg_msg] at hm'
      cases hm'
      exact hmem.elim (hq m) (hcq m)
  · intro m hm
    exact (hch.queue m hm).elim (hq m) (hfine m)

/-- A pass that has a Close in hand does with it what `sendNonFragmented` does. -/
theorem sendOmsg_close {c : EventContext} {h : Hand} (hh : Holds c h) (hclose : h.IsClose)
    (io : Io) : ∃ m, c.omsg = some m ∧ m.opcode = connectionClose ∧
      sendOmsg (c, io) = sendNonFragmented c m io := by
  obtain ⟨m, homsg, hopcode, htype, -⟩ := hh.close hclose
  refine ⟨m, homsg, hopcode, ?_⟩
  unfold sendOmsg
  simp only [homsg]
  exact if_pos htype

/-- **A pass after which writing is over has completed a Close.** -/
theorem Sends.finished {c : EventContext} {io : Io} {h h' : Hand} {begun : List Frame}
    (hs : Sends c io h (sendOmsg (c, io)) begun h') (hh : Holds c h) (hok : io.Willing ∧ h.Fine)
    (hlive : c.writeEnabled = true) (hunsent : c.closeStatus.sent = false)
    (hover : (sendOmsg (c, io)).state.1.writeEnabled = false) :
    h.IsClose ∧ h' = .empty ∧ (sendOmsg (c, io)).state.1.closeStatus.sent = true ∧
      ∃ m, c.omsg = some m ∧ (sendOmsg (c, io)).state.1.statusCodeSent = codeOf m.data := by
  obtain ⟨-, hzero, hwrite⟩ := hs.after.good hok
  have hclose : h.IsClose := by
    by_contra hother
    rw [hwrite hother, hlive] at hover
    cases hover
  obtain ⟨m, homsg, hopcode, heq⟩ := sendOmsg_close hh hclose io
  have hends := hs.after.isClose hclose
  rw [heq] at hover hzero hends ⊢
  rcases sendNonFragmented_cases c m io with ⟨f, off, io', hagain⟩ | ⟨r, f, off, w, io', hleave, hw⟩
  · obtain ⟨-, hsent, hcode⟩ := finishNonFragmented_close
      { c with frameCtx := f, opayloadoff := off } hopcode
    rw [hagain] at hends ⊢
    rcases hends with ⟨-, hsame⟩ | ⟨hempty, -, -⟩
    · rw [Step.state_again] at hsame
      rw [hsame, hunsent] at hsent
      cases hsent
    · exact ⟨hclose, hempty, hsent, m, homsg, hcode⟩
  · exfalso
    rcases hw with hw | hr
    · rw [hleave, Step.state_leave] at hover
      rw [show w = false from hover, hlive] at hw
      cases hw
    · have h0 := hzero r _ hleave
      rw [hr] at h0
      cases h0

/-- While a Close is being sent, it stays in hand. -/
theorem Sends.stays {c : EventContext} {io : Io} {h h' : Hand} {begun : List Frame}
    (hs : Sends c io h (sendOmsg (c, io)) begun h') (hh : Holds c h) {m : EventOmsg}
    (homsg : (sendOmsg (c, io)).state.1.omsg = some m) (hclose : h'.IsClose) :
    h.IsClose ∧ c.omsg = some m := by
  have hbefore : h.IsClose := by
    by_contra hother
    exact (hs.after.notClose hother).1 hclose
  obtain ⟨m', homsg', hopcode, heq⟩ := sendOmsg_close hh hbefore io
  refine ⟨hbefore, ?_⟩
  rw [heq] at homsg
  rcases sendNonFragmented_cases c m' io with ⟨f, off, io', hagain⟩ | ⟨r, f, off, w, io', hleave, -⟩
  · rw [hagain, Step.state_again] at homsg
    rw [(finishNonFragmented_close { c with frameCtx := f, opayloadoff := off } hopcode).1] at homsg
    cases homsg
  · rw [hleave, Step.state_leave] at homsg
    exact homsg

/-- What is sent after a choice has been made keeps the invariant. -/
theorem Dispatch.sends {c c₁ : EventContext} {io io₁ : Io} {h h₁ h' : Hand} {begun : List Frame}
    (hd : Dispatch P (c, io) sent h.owed) (hlive : c.writeEnabled = true) (hh : Holds c h)
    (hfine : h.Fine)
    (hdata : ∀ later, dataOutlines sent ++ h.data (plans c.sendQueue later) =
      plans io.queuedData later)
    (hlink : ∀ m rest, h = .whole m rest → m.opcode = connectionClose →
      ∃ f, sent.getLast? = some f ∧ f.payload = m.data)
    (hlast : LastIsClose sent ↔ h.IsClose) (hch : Chosen c io h c₁ io₁ h₁)
    (hs : Sends c₁ io₁ h₁ (sendOmsg (c₁, io₁)) begun h')
    (hctrl : ∀ o ∈ h₁.ctrl, P o)
    (hcourse : Course (sendOmsg (c₁, io₁)).state (sent ++ begun) h'.owed)
    (hqueued : (sendOmsg (c₁, io₁)).state.2.queued = io.queued)
    (hmem : (sendOmsg (c₁, io₁)).state.2.MemOk) :
    Dispatch P (sendOmsg (c₁, io₁)).state (sent ++ begun) h'.owed := by
  obtain ⟨hfine₁, hq₁⟩ := hch.fine hfine hd.queue fun m hm => (hd.ctrlQueue m hm).1
  have hafter := hs.after
  obtain ⟨hwilling, -, -⟩ := hafter.good ⟨hch.willing hd.willing, hfine₁⟩
  have hunsent : c₁.closeStatus.sent = false := by
    rw [hch.status]
    by_contra hsent
    have hshut := hd.course.shut (Bool.not_eq_false _ ▸ hsent)
    rw [show c.writeEnabled = false from hshut] at hlive
    cases hlive
  have hall : ∀ later, dataOutlines (sent ++ begun) ++
      h'.data (plans (sendOmsg (c₁, io₁)).state.1.sendQueue later) =
        plans (sendOmsg (c₁, io₁)).state.2.queuedData later := by
    intro later
    rw [dataOutlines_append, List.append_assoc, ← hs.data, hafter.sendQueue, hch.data,
      Io.queuedData,
      hqueued]
    exact hdata later
  refine
    { course := hcourse, front := ⟨_, hall []⟩, ctrl := ?_, queue := ?_, ctrlQueue := ?_
      live := ?_, finished := ?_, willing := hwilling, mem := hmem }
  · intro o ho
    rw [ctrlOutlines_append] at ho
    rcases List.mem_append.1 ho with ho | ho
    · exact hd.ctrl o ho
    · apply hctrl
      rw [hs.ctrl]
      exact List.mem_append_left _ ho
  · rw [hafter.sendQueue]
    exact hq₁
  · rw [hafter.sendCtrlQueue]
    exact fun m hm => hd.ctrlQueue m (hch.ctrlQueue m hm)
  · intro hlive'
    obtain ⟨-, hh', hsettled', -⟩ := hafter.alive hlive'
    refine ⟨h', hh', hsettled', hs.fine hfine₁, hall, ?_⟩
    intro m rest hwhole hopcode
    subst hwhole
    have homsg : (sendOmsg (c₁, io₁)).state.1.omsg = some m := by
      cases hh' with
      | whole _ _ hsome => exact hsome
    obtain ⟨hclose, homsg₁⟩ := hs.stays hch.holds homsg hopcode
    obtain ⟨f, hf, -, hpayload⟩ := hs.close_last hh hch rfl hlink hlast homsg₁ hclose
    exact ⟨f, hf, hpayload⟩
  · intro hover
    obtain ⟨hclose, rfl, hsent, m, homsg, hcode⟩ := hs.finished hch.holds
      ⟨hch.willing hd.willing, hfine₁⟩ (hch.write.trans hlive) hunsent hover
    obtain ⟨f, hf, hfclose, hpayload⟩ := hs.close_last hh hch rfl hlink hlast homsg hclose
    exact ⟨rfl, hsent, f, hf, hfclose, by rw [hcode, hpayload]⟩

/-- What is taken in hand is allowed, if it is a control message not begun. -/
theorem Chosen.allowed {c c₁ : EventContext} {io io₁ : Io} {h h₁ : Hand}
    (hch : Chosen c io h c₁ io₁ h₁) (hsettled : h.Settled) (hfit : QueuesFit c)
    (hcq : ∀ m ∈ c.sendCtrlQueue, P m.outline) : ∀ o ∈ h₁.ctrl, P o := by
  intro o ho
  rcases hch.origin with rfl | ⟨m, rfl, hmem⟩
  · cases h₁ with
    | start => exact hsettled.elim
    | empty => cases ho
    | between => cases ho
    | whole => cases ho
    | fragment => cases ho
  · rcases hmem with hmem | hmem
    · rw [(ofMsg_data (hfit.data m hmem) []).2] at ho
      cases ho
    · rw [(ofMsg_ctrl (hfit.ctrl m hmem) []).2.2] at ho
      rw [List.mem_singleton.1 ho]
      exact hcq m hmem

/-- **One pass of `wslay_event_send`** keeps the invariant, takes nothing back, and when
it is the last one the call succeeds. -/
theorem Dispatch.sendPass (hd : Dispatch P s sent owed) :
    (∃ begun owed', Dispatch P (sendPass s).state (sent ++ begun) owed') ∧
      s.2.wire <+: (sendPass s).state.2.wire ∧ ∀ r t, sendPass s = .leave r t → r = 0 := by
  obtain ⟨c, io⟩ := s
  by_cases hwant : eventWantWrite c = true
  · have hlive : c.writeEnabled = true := by
      unfold eventWantWrite at hwant
      exact (Bool.and_eq_true _ _ ▸ hwant).1
    obtain ⟨h, hh, hsettled, hfine, hdata, hlink⟩ := hd.live hlive
    obtain ⟨h₀, hh₀, hsettled₀, hfit, howed, hlast, hahead⟩ := hd.course.live hlive
    obtain rfl := hh.unique hh₀ hsettled hsettled₀
    subst howed
    have hpass : Wslay.sendPass (c, io) = (sendPick c io).andThen sendOmsg := by
      unfold Wslay.sendPass
      rw [if_pos hwant]
    have hsame := (sendPass_recvSame (c, io)).1
    have hqueued := (sendPass_recvSame (c, io)).2.1
    have hmem : (Wslay.sendPass (c, io)).state.2.MemOk := fun hf => hd.mem (hsame.mem.subset hf)
    have hpicks := sendPick_spec hh hfit io
    cases hpick : sendPick c io with
    | leave r t =>
      rw [hpick] at hpicks hpass
      rw [Step.andThen_leave] at hpass
      rw [hpass]
      cases hpicks with
      | idle =>
        refine ⟨⟨[], h.owed, by rw [List.append_nil]; exact hd⟩, List.prefix_rfl, ?_⟩
        intro r t heq
        cases heq
        rfl
      | noClose io' hpre hclosing hno =>
        exfalso
        rcases hahead hclosing with ⟨m, hm, hclose⟩ | hcl
        · exact hno m hm hclose
        · obtain ⟨m, rest, rfl, -⟩ := hsettled.close hcl
          exact hpre
      | noMem io' _ hno => exact absurd hd.mem hno
    | again t =>
      obtain ⟨c₁, io₁⟩ := t
      rw [hpick] at hpicks
      obtain ⟨h₁, hch⟩ := hpicks.chosen hh hfit
      obtain ⟨begun, h', hs⟩ := sendOmsg_spec hch.holds hch.fit.role io₁
      rw [hpick, Step.andThen_again] at hpass
      rw [hpass] at hsame hqueued hmem ⊢
      obtain ⟨hfine₁, -⟩ := hch.fine hfine hd.queue fun m hm => (hd.ctrlQueue m hm).1
      obtain ⟨-, hzero, -⟩ := hs.after.good ⟨hch.willing hd.willing, hfine₁⟩
      obtain ⟨hcourse, -⟩ := hd.course.sends hsettled hh.owes hfit hlast hahead hch hs hsame.apps
      have hallowed := hch.allowed hsettled hfit fun m hm => (hd.ctrlQueue m hm).2
      have hgrows : io.wire <+: (sendOmsg (c₁, io₁)).state.2.wire := by
        rw [← hch.wire]
        exact hs.grows
      exact ⟨⟨begun, h'.owed, hd.sends hlive hh hfine hdata hlink hlast hch hs hallowed hcourse
        hqueued hmem⟩, hgrows, hzero⟩
  · have hpass : Wslay.sendPass (c, io) = .leave 0 (c, io) := by
      unfold Wslay.sendPass
      rw [if_neg hwant]
    rw [hpass]
    refine ⟨⟨[], owed, by rw [List.append_nil]; exact hd⟩, List.prefix_rfl, ?_⟩
    intro r t heq
    cases heq
    rfl

/-- **A call of `wslay_event_send`** keeps the invariant, takes nothing back and
succeeds. -/
theorem Dispatch.eventSend (hd : Dispatch P s sent owed) :
    (eventSend s.1 s.2).1 = 0 ∧ s.2.wire <+: (eventSend s.1 s.2).2.2.wire ∧
      ∃ begun owed', Dispatch P (eventSend s.1 s.2).2 (sent ++ begun) owed' := by
  have hsome := eventSend_isSome s.1 s.2
  unfold Wslay.eventSend
  obtain ⟨⟨r, s'⟩, hrun⟩ := Option.isSome_iff_exists.1 hsome
  rw [hrun]
  refine Loop.run_exit
    (P := fun t => s.2.wire <+: t.2.wire ∧ ∃ begun owed', Dispatch P t (sent ++ begun) owed')
    (Q := fun r t => r = 0 ∧ s.2.wire <+: t.2.wire ∧
      ∃ begun owed', Dispatch P t (sent ++ begun) owed')
    ?_ ?_ ⟨List.prefix_rfl, [], owed, by rw [List.append_nil]; exact hd⟩ hrun
  · rintro t u ⟨hwire, begun, owed', ht⟩ heq
    obtain ⟨⟨begun', owed'', hu⟩, hgrows, -⟩ := ht.sendPass
    rw [heq] at hu hgrows
    rw [List.append_assoc] at hu
    exact ⟨hwire.trans hgrows, _, _, hu⟩
  · rintro t r u ⟨hwire, begun, owed', ht⟩ heq
    obtain ⟨⟨begun', owed'', hu⟩, hgrows, hzero⟩ := ht.sendPass
    rw [heq] at hu hgrows
    rw [List.append_assoc] at hu
    exact ⟨hzero r u heq, hwire.trans hgrows, _, _, hu⟩

end

/-! ## Queueing -/

/-- From `s` to `s'` the sender has got the messages `data` and `ctrl` in its queues, and
otherwise it is as it was. -/
structure Enqueues (s s' : EventContext × Io) (data ctrl : List EventOmsg) : Prop where
  frame : s'.1.frameCtx.sendHalf = s.1.frameCtx.sendHalf
  omsg : s'.1.omsg = s.1.omsg
  obuf : s'.1.obuf = s.1.obuf
  obufmark : s'.1.obufmark = s.1.obufmark
  opayloadlen : s'.1.opayloadlen = s.1.opayloadlen
  opayloadoff : s'.1.opayloadoff = s.1.opayloadoff
  server : s'.1.server = s.1.server
  enabled : s'.1.writeEnabled = s.1.writeEnabled
  sent : s'.1.closeStatus.sent = s.1.closeStatus.sent
  code : s'.1.statusCodeSent = s.1.statusCodeSent
  queue : s'.1.sendQueue = s.1.sendQueue ++ data
  ctrlQueue : s'.1.sendCtrlQueue = s.1.sendCtrlQueue ++ ctrl
  queuedData : s'.2.queuedData = s.2.queuedData ++ data
  closing : s'.1.closeStatus.queued = true →
    s.1.closeStatus.queued = true ∨ ∃ m ∈ ctrl, m.opcode = connectionClose
  wire : s'.2.wire = s.2.wire
  apps : s'.2.apps = s.2.apps

theorem Enqueues.refl (s : EventContext × Io) : Enqueues s s [] [] := by
  constructor
  case closing => exact Or.inl
  all_goals simp

theorem Enqueues.trans {s s' s'' : EventContext × Io} {data data' ctrl ctrl' : List EventOmsg}
    (h : Enqueues s s' data ctrl) (h' : Enqueues s' s'' data' ctrl') :
    Enqueues s s'' (data ++ data') (ctrl ++ ctrl') where
  frame := h'.frame.trans h.frame
  omsg := h'.omsg.trans h.omsg
  obuf := h'.obuf.trans h.obuf
  obufmark := h'.obufmark.trans h.obufmark
  opayloadlen := h'.opayloadlen.trans h.opayloadlen
  opayloadoff := h'.opayloadoff.trans h.opayloadoff
  server := h'.server.trans h.server
  enabled := h'.enabled.trans h.enabled
  sent := h'.sent.trans h.sent
  code := h'.code.trans h.code
  queue := by rw [h'.queue, h.queue, List.append_assoc]
  ctrlQueue := by rw [h'.ctrlQueue, h.ctrlQueue, List.append_assoc]
  queuedData := by rw [h'.queuedData, h.queuedData, List.append_assoc]
  closing := by
    intro hq
    rcases h'.closing hq with hq | ⟨m, hm, hclose⟩
    · rcases h.closing hq with hq | ⟨m, hm, hclose⟩
      · exact Or.inl hq
      · exact Or.inr ⟨m, List.mem_append_left _ hm, hclose⟩
    · exact Or.inr ⟨m, List.mem_append_right _ hm, hclose⟩
  wire := h'.wire.trans h.wire
  apps := h'.apps.trans h.apps

/-- A control message that `P` allows, and that can be sent. -/
structure EventOmsg.Allowed (P : Outline → Prop) (m : EventOmsg) : Prop where
  fit : m.FitCtrl
  fine : m.Fine
  low : m.opcode.toNat < 16
  outline : P m.outline

section

variable {P : Outline → Prop} {s s' : EventContext × Io} {sent : List Frame} {owed : List UInt8}
  {data ctrl : List EventOmsg}

/-- What is queued does not put the Close out of course. -/
theorem Course.enqueues (hc : Course s sent owed) (he : Enqueues s s' data ctrl)
    (hdata : ∀ m ∈ data, m.FitData) (hctrl : ∀ m ∈ ctrl, m.FitCtrl ∧ m.opcode.toNat < 16) :
    Course s' sent owed where
  legit := by
    rw [he.server]
    exact hc.legit
  low := by
    rw [he.ctrlQueue]
    intro m hm
    exact (List.mem_append.1 hm).elim (hc.low m) fun h => (hctrl m h).2
  apps := by rw [he.apps]; exact hc.apps
  wire := by rw [he.wire]; exact hc.wire
  complete := by rw [he.wire]; exact hc.complete
  only := hc.only
  done := by rw [he.sent]; exact hc.done
  shut := by rw [he.sent, he.enabled]; exact hc.shut
  live := by
    intro hlive
    obtain ⟨h, hh, hsettled, hfit, howed, hlast, hahead⟩ := hc.live (he.enabled ▸ hlive)
    refine ⟨h, hh.congr he.frame he.omsg he.obuf he.obufmark he.opayloadlen he.opayloadoff,
      hsettled, ⟨?_, ?_, ?_⟩, howed, hlast, fun hq => ?_⟩
    · rw [he.ctrlQueue]
      intro m hm
      exact (List.mem_append.1 hm).elim (hfit.ctrl m) fun h => (hctrl m h).1
    · rw [he.queue]
      intro m hm
      exact (List.mem_append.1 hm).elim (hfit.data m) (hdata m)
    · rw [he.server, effKey_congr he.frame]
      exact hfit.role
    · rw [he.ctrlQueue]
      rcases he.closing hq with hq | ⟨m, hm, hclose⟩
      · refine (hahead hq).imp ?_ id
        rintro ⟨m, hm, hclose⟩
        exact ⟨m, List.mem_append_left _ hm, hclose⟩
      · exact Or.inl ⟨m, List.mem_append_right _ hm, hclose⟩

/-- **Queueing keeps the invariant**, as long as data messages are queued only while
writing is enabled. -/
theorem Dispatch.enqueues (hd : Dispatch P s sent owed) (he : Enqueues s s' data ctrl)
    (hdata : ∀ m ∈ data, m.FitData ∧ m.Fine) (hctrl : ∀ m ∈ ctrl, m.Allowed P)
    (hopen : data = [] ∨ s.1.writeEnabled = true) (hwilling : s'.2.Willing)
    (hmem : s'.2.MemOk) : Dispatch P s' sent owed := by
  have hlonger : s.1.writeEnabled = true → ∃ h, Holds s.1 h ∧ h.Settled ∧ h.Fine ∧
      (∀ later, dataOutlines sent ++ h.data (plans s'.1.sendQueue later) =
        plans s'.2.queuedData later) ∧
      ∀ m rest, h = .whole m rest → m.opcode = connectionClose →
        ∃ f, sent.getLast? = some f ∧ f.payload = m.data := by
    intro hlive
    obtain ⟨h, hh, hsettled, hfine, hplan, hlink⟩ := hd.live hlive
    refine ⟨h, hh, hsettled, hfine, ?_, hlink⟩
    intro later
    rw [he.queue, he.queuedData, plans_append, plans_append]
    exact hplan _
  refine
    { course := hd.course.enqueues he (fun m hm => (hdata m hm).1)
        fun m hm => ⟨(hctrl m hm).fit, (hctrl m hm).low⟩
      front := ?_, ctrl := hd.ctrl, queue := ?_, ctrlQueue := ?_, live := ?_, finished := ?_
      willing := hwilling, mem := hmem }
  · rcases hopen with hnil | hlive
    · rw [he.queuedData, hnil, List.append_nil]
      exact hd.front
    · obtain ⟨h, -, -, -, hplan, -⟩ := hlonger hlive
      exact ⟨_, hplan []⟩
  · rw [he.queue]
    intro m hm
    exact (List.mem_append.1 hm).elim (hd.queue m) fun h => (hdata m h).2
  · rw [he.ctrlQueue]
    intro m hm
    exact (List.mem_append.1 hm).elim (hd.ctrlQueue m) fun h =>
      ⟨(hctrl m h).fine, (hctrl m h).outline⟩
  · intro hlive
    obtain ⟨h, hh, hrest⟩ := hlonger (he.enabled ▸ hlive)
    exact ⟨h, hh.congr he.frame he.omsg he.obuf he.obufmark he.opayloadlen he.opayloadoff, hrest⟩
  · intro hover
    obtain ⟨howed, hsent, f, hf, hclose, hcode⟩ := hd.finished (he.enabled ▸ hover)
    exact ⟨howed, he.sent.trans hsent, f, hf, hclose, he.code.trans hcode⟩

/-- A control message is queued. -/
theorem enqueues_ctrl (c : EventContext) (io : Io) {arg : EventMsg}
    (h : isCtrlFrame arg.opcode = true) : Enqueues (c, io) (c.withMsg arg, io.noteQueued (.msg arg))
      [] [(QueuedMsg.msg arg).omsg] := by
  have hdef : c.withMsg arg = { c with
      sendCtrlQueue := c.sendCtrlQueue ++ [(QueuedMsg.msg arg).omsg]
      queuedMsgCount := c.queuedMsgCount + 1
      queuedMsgLength := c.queuedMsgLength + arg.msg.length } := by
    unfold EventContext.withMsg
    simp only [if_pos h]
    rfl
  rw [hdef]
  constructor
  case queuedData => simp [Io.noteQueued, Io.queuedData, QueuedMsg.omsg, h]
  case closing => exact Or.inl
  all_goals first | rfl | exact (List.append_nil _).symm

/-- A data message is queued. -/
theorem enqueues_data (c : EventContext) (io : Io) {arg : EventMsg}
    (h : isCtrlFrame arg.opcode = false) :
    Enqueues (c, io) (c.withMsg arg, io.noteQueued (.msg arg)) [(QueuedMsg.msg arg).omsg] [] := by
  have hdef : c.withMsg arg = { c with
      sendQueue := c.sendQueue ++ [(QueuedMsg.msg arg).omsg]
      queuedMsgCount := c.queuedMsgCount + 1
      queuedMsgLength := c.queuedMsgLength + arg.msg.length } := by
    unfold EventContext.withMsg
    simp only [h]
    rfl
  rw [hdef]
  constructor
  case queuedData => simp [Io.noteQueued, Io.queuedData, QueuedMsg.omsg, h]
  case closing => exact Or.inl
  all_goals first | rfl | exact (List.append_nil _).symm

/-- A fragmented message is queued. -/
theorem enqueues_fragmented (c : EventContext) (io : Io) {arg : EventFragmentedMsg}
    (h : isCtrlFrame arg.opcode = false) :
    Enqueues (c, io) (c.withFragmentedMsg arg, io.noteQueued (.fragmented arg))
      [(QueuedMsg.fragmented arg).omsg] [] := by
  constructor
  case queuedData => simp [Io.noteQueued, Io.queuedData, QueuedMsg.omsg, h]
  case closing => exact Or.inl
  all_goals first | rfl | exact (List.append_nil _).symm

/-- The Close that `wslay_event_queue_close` queues. -/
def closeMsg (code : UInt16) (reason : List UInt8) : EventMsg :=
  ⟨connectionClose, closeBody code reason⟩

/-- A Close is queued. -/
theorem enqueues_close (c : EventContext) (io : Io) (code : UInt16) (reason : List UInt8) :
    Enqueues (c, io) (c.withClose code reason, io.noteQueued (.msg (closeMsg code reason)))
      [] [(QueuedMsg.msg (closeMsg code reason)).omsg] := by
  have hctrl : isCtrlFrame (closeMsg code reason).opcode = true :=
    (by decide : isCtrlFrame connectionClose = true)
  have he := enqueues_ctrl c io hctrl
  refine { he with closing := fun _ => Or.inr ⟨_, List.mem_singleton_self _, rfl⟩ }

/-- Automatic replies are queued. -/
theorem enqueues_answerAll (s : EventContext × Io) (rs : List Reply) :
    Enqueues s (answerAll s rs) [] (rs.map Reply.omsg) := by
  induction rs generalizing s with
  | nil => exact .refl s
  | cons r rs ih =>
    have hfirst : Enqueues s (answer s r) [] [r.omsg] := by
      cases r with
      | pong msg =>
        have hpong : isCtrlFrame (⟨Wslay.pong, msg⟩ : EventMsg).opcode = true :=
          (by decide : isCtrlFrame Wslay.pong = true)
        exact enqueues_ctrl s.1 s.2 hpong
      | close code reason => exact enqueues_close s.1 s.2 _ _
    exact hfirst.trans (ih (answer s r))

/-- What a call of `wslay_event_recv` queues are its replies. -/
theorem Follows.enqueues {R : Report} (h : Follows s s' R) :
    Enqueues s s' [] (R.replies.map Reply.omsg) := by
  have he := enqueues_answerAll s R.replies
  have hsend := h.send
  simp only [sendPart, EventContext.sendHalf, Io.sendHalf, Prod.mk.injEq] at hsend
  obtain ⟨⟨h1, h2, h3, h4, h5, h6, h7, h8, h9, -, -, h12, h13, h14, h15⟩, -, -, h18, -, h20, -⟩ :=
    hsend
  exact
    { frame := h6.trans he.frame, omsg := h7.trans he.omsg, obuf := h12.trans he.obuf
      obufmark := h13.trans he.obufmark, opayloadlen := h14.trans he.opayloadlen
      opayloadoff := h15.trans he.opayloadoff, server := h1.trans he.server
      enabled := h4.trans he.enabled, sent := h3.trans he.sent, code := h5.trans he.code
      queue := h8.trans he.queue, ctrlQueue := h9.trans he.ctrlQueue
      queuedData := by
        have hd := he.queuedData
        unfold Io.queuedData at hd ⊢
        rw [h20]
        exact hd
      closing := fun hq => he.closing (h2 ▸ hq)
      wire := h18.trans he.wire, apps := h.apps }

end

/-! ## The beginning -/

theorem configured_dispatch (P : Outline → Prop) (server : Bool) (callbacks : EventCallbacks)
    (noBuffering : Bool) (limit : Nat) {io : Io} (hio : io.Fresh) (happs : io.apps = [])
    (hwilling : io.Willing) (hmem : io.MemOk) :
    Dispatch P (configured server callbacks noBuffering limit, io) [] [] := by
  have hcourse := course_configured server callbacks noBuffering limit hio (by
    rw [happs]
    intro calls hcalls
    cases hcalls)
  obtain ⟨h, hh, hsettled, -, -, -, -⟩ := hcourse.live rfl
  have hempty : h = .empty := hh.omsg_eq_none.1 rfl
  subst hempty
  refine
    { course := hcourse, front := List.nil_prefix
      ctrl := fun o ho => (by cases ho), queue := fun m hm => (by cases hm)
      ctrlQueue := fun m hm => (by cases hm)
      live := fun _ => ⟨.empty, hh, trivial, fun m hm => (by cases hm), ?_,
        fun m rest h => (by cases h)⟩
      finished := fun h => (by cases h), willing := hwilling, mem := hmem }
  intro later
  show plans [] later = plans io.queuedData later
  unfold Io.queuedData
  rw [hio.queued]
  rfl

end Wslay
