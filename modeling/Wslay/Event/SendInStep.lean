import Wslay.Event.Failures

/-!
# The scheduler and the frame encoder stay in step

The message in hand, the output buffer and the frame encoder each keep an offset
of their own.  The scheduler asks the encoder whether a message may be preempted.

* `SendInStep` — how the offsets are related between two calls.
* `obufFits_kept` — the output buffer holds no more than it has room for.
* `scheduler_in_step` — the offsets are so related in every run, and what follows
  from it for preemption and for the wire.
-/

namespace Wslay

open Loop (Step)

/-- `sizeof ( ctx->obuf )`. -/
def obufSize : Nat := 4096

/-- **The scheduler and the encoder are in step.** -/
structure SendInStep (c : EventContext) : Prop where
  /-- With no message in hand no frame is in progress. -/
  idle : c.omsg = none → c.frameCtx.ostate = .prepHeader
  /-- A message that is sent in one frame has one in progress. -/
  whole : ∀ m, c.omsg = some m → m.type = .nonFragmented →
    (c.frameCtx.ostate = .sendHeader ∨ c.frameCtx.ostate = .sendPayload) ∧
      c.frameCtx.opayloadlen = c.opayloadlen ∧ c.frameCtx.opayloadoff = c.opayloadoff ∧
      m.data.length = c.opayloadlen
  /-- The output buffer of a fragmented message is used up exactly when no fragment
  is in progress. -/
  fragments : ∀ m, c.omsg = some m → m.type = .fragmented →
    c.obufmark ≤ c.obuf.length ∧ c.obuf.length ≤ obufSize ∧
      (c.obufmark = c.obuf.length ↔ c.frameCtx.ostate = .prepHeader) ∧
      (c.frameCtx.ostate = .prepHeader → m.fin = 0) ∧
      (c.frameCtx.ostate ≠ .prepHeader →
        c.obufmark = c.frameCtx.opayloadoff ∧ c.obuf.length = c.frameCtx.opayloadlen)

/-! ## The output buffer -/

/-- The output buffer holds no more than it has room for. -/
def ObufFits (s : EventContext × Io) : Prop := s.1.obuf.length ≤ obufSize

theorem obuf_eventSendCtrlQueuePop (c : EventContext) (io : Io) :
    (eventSendCtrlQueuePop c io).2.1.obuf = c.obuf := by
  unfold eventSendCtrlQueuePop
  split_ifs <;> rfl

theorem obuf_sendPick (c : EventContext) (io : Io) : (sendPick c io).state.1.obuf = c.obuf := by
  unfold sendPick
  cases homsg : c.omsg with
  | none =>
    simp only
    split_ifs
    · cases c.sendQueue with
      | nil => rfl
      | cons m ms =>
        simp only
        split_ifs <;> rfl
    · have hpop := obuf_eventSendCtrlQueuePop c io
      obtain ⟨m, c', io', heq⟩ : ∃ m c' io', eventSendCtrlQueuePop c io = (m, c', io') :=
        ⟨_, _, _, rfl⟩
      rw [heq] at hpop ⊢
      cases m with
      | none => exact hpop
      | some m =>
        simp only
        split_ifs <;> exact hpop
  | some m =>
    simp only
    split_ifs
    · rcases io.malloc with ⟨_ | _, io₁⟩
      · rfl
      · simp only
        have hpop := obuf_eventSendCtrlQueuePop
          { c with sendQueue := m :: c.sendQueue, omsg := some m } io₁
        obtain ⟨m', c', io', heq⟩ : ∃ m' c' io', eventSendCtrlQueuePop
            { c with sendQueue := m :: c.sendQueue, omsg := some m } io₁ = (m', c', io') :=
          ⟨_, _, _, rfl⟩
        rw [heq] at hpop ⊢
        cases m' <;> exact hpop
    · rfl

theorem ObufFits.sendFragment {c : EventContext} {io : Io} (h : ObufFits (c, io)) (m : EventOmsg) :
    (sendFragment c m io).All ObufFits := by
  unfold Wslay.sendFragment
  obtain ⟨r, f, io', heq⟩ : ∃ r f io', frameSend c.frameCtx (fragmentIocb c m) io = (r, f, io') :=
    ⟨_, _, _, rfl⟩
  rw [heq]
  cases r with
  | error e =>
    simp only [sendFrameError]
    split_ifs <;> exact h
  | ok length =>
    simp only
    split_ifs
    · exact Nat.zero_le _
    · exact Nat.zero_le _
    · exact h

theorem ObufFits.sendOmsg {s : EventContext × Io} (h : ObufFits s) : (sendOmsg s).All ObufFits := by
  unfold Wslay.sendOmsg
  cases homsg : s.1.omsg with
  | none => exact h
  | some m =>
    simp only
    split_ifs
    · unfold sendNonFragmented
      obtain ⟨r, f, io', heq⟩ : ∃ r f io', frameSend s.1.frameCtx (nonFragmentedIocb s.1 m) s.2 =
          (r, f, io') := ⟨_, _, _, rfl⟩
      rw [heq]
      cases r with
      | error e =>
        simp only [sendFrameError]
        split_ifs <;> exact h
      | ok length =>
        simp only [finishNonFragmented]
        split_ifs <;> exact h
    · unfold sendFragmented
      split_ifs
      · unfold readFragment
        cases m.source with
        | nil => exact h
        | cons r rs =>
          cases r with
          | fail e => exact h
          | data bs eof hbs =>
            by_cases hnil : bs = []
            · simp only [if_pos hnil]
              exact h
            · simp only [if_neg hnil, Step.andThen_again]
              have hread : ObufFits ({ s.1 with
                  omsg := some { m with source := rs, fin := if eof then 1 else m.fin },
                  obuf := bs, opayloadlen := bs.length, opayloadoff := 0 }, s.2) := hbs
              exact hread.sendFragment _
      · exact ObufFits.sendFragment h m

theorem ObufFits.sendPass {s : EventContext × Io} (h : ObufFits s) : (sendPass s).All ObufFits := by
  unfold Wslay.sendPass
  split_ifs
  · have hpick := obuf_sendPick s.1 s.2
    obtain ⟨x, hx⟩ : ∃ x, sendPick s.1 s.2 = x := ⟨_, rfl⟩
    rw [hx] at hpick ⊢
    have hall : ObufFits x.state := by
      rw [ObufFits, hpick]
      exact h
    cases x with
    | leave r t => exact hall
    | again t => exact ObufFits.sendOmsg hall
  · exact h

theorem obufFits_kept : Kept (fun _ => True) ObufFits where
  same := by
    intro s s' hss hs
    have hc := hss.context
    simp only [EventContext.sendHalf, Prod.mk.injEq] at hc
    obtain ⟨-, -, -, -, -, -, -, -, -, -, -, hobuf, -⟩ := hc
    rw [ObufFits, hobuf]
    exact hs
  call := by
    intro c io a _ hs
    have hmsg : ∀ arg, (c.withMsg arg).obuf = c.obuf := by
      intro arg
      unfold EventContext.withMsg
      simp only
      split_ifs <;> rfl
    cases a with
    | queueMsg arg =>
      show ObufFits (eventQueueMsg c arg io).2
      rcases eventQueueMsg_cases c arg io with ⟨-, heq⟩ | ⟨-, -, -, heq⟩ |
        ⟨-, -, io', -, heq | ⟨-, r, -, -, heq⟩⟩ <;> rw [heq]
      · exact hs
      · exact hs
      · show (c.withMsg arg).obuf.length ≤ obufSize
        rw [hmsg]
        exact hs
      · exact hs
    | queueFragmentedMsg arg =>
      show ObufFits (eventQueueFragmentedMsg c arg io).2
      rcases eventQueueFragmentedMsg_cases c arg io with ⟨-, heq⟩ | ⟨-, -, heq⟩ |
        ⟨-, -, io', -, heq | ⟨-, heq⟩⟩ <;> rw [heq] <;> exact hs
    | queueClose code reason =>
      show ObufFits (eventQueueClose c code reason io).2
      rcases eventQueueClose_cases c code reason io with ⟨-, heq⟩ | ⟨-, -, heq⟩ |
        ⟨-, -, io', -, heq | ⟨-, r, -, -, heq⟩⟩ <;> rw [heq]
      · exact hs
      · exact hs
      · show (c.withMsg ⟨connectionClose, closeBody code reason⟩).obuf.length ≤ obufSize
        rw [hmsg]
        exact hs
      · exact hs
    | send =>
      show ObufFits (eventSend c io).2
      unfold eventSend
      cases hrun : Loop.run Wslay.sendPass (sendFuel c) (c, io) with
      | none => exact hs
      | some x => exact Loop.run_inv (fun t ht => ObufFits.sendPass ht) hs hrun
    | setError val => exact hs
    | shutdownRead => exact hs
    | shutdownWrite => exact hs
  apps := fun _ _ _ _ _ => trivial
  pong := fun _ => trivial
  close := fun _ _ => trivial

/-! ## The offsets -/

/-- An encoder that is busy knows the length of the frame and the offset in it. -/
theorem EncView.busy_fields {f : FrameContext} {len off : Nat} {hrest : List UInt8}
    (hv : EncView f (.busy len hrest off)) :
    (f.ostate = .sendHeader ∨ f.ostate = .sendPayload) ∧ f.opayloadlen = len ∧
      f.opayloadoff = off := by
  cases hv with
  | header _ _ hs _ _ hl ho => exact ⟨Or.inl hs, hl, ho⟩
  | payload _ _ hs hl ho _ => exact ⟨Or.inr hs, hl, ho⟩

theorem Holds.inStep {c : EventContext} {h : Hand} (hh : Holds c h) (hs : h.Settled)
    (hobuf : c.obuf.length ≤ obufSize) : SendInStep c := by
  cases hh with
  | empty homsg hstate =>
    refine ⟨fun _ => hstate, fun m hm => ?_, fun m hm => ?_⟩ <;>
    · rw [homsg] at hm
      cases hm
  | start => exact hs.elim
  | between m homsg htype hfin _ hstate hnil hmark =>
    refine ⟨fun _ => hstate, fun m' hm htype' => ?_, fun m' hm _ => ?_⟩
    · rw [homsg] at hm
      cases hm
      rw [htype] at htype'
      cases htype'
    · rw [homsg] at hm
      cases hm
      have hempty : c.obufmark = c.obuf.length := by
        rw [hmark, hnil]
        rfl
      exact ⟨hempty.le, hobuf, ⟨fun _ => hstate, fun _ => hempty⟩, fun _ => hfin,
        fun hne => absurd hstate hne⟩
  | whole m hrest homsg hfit hv hlen =>
    obtain ⟨hstate, hl, ho⟩ := hv.busy_fields
    refine ⟨fun hno => ?_, fun m' hm _ => ?_, fun m' hm htype => ?_⟩
    · rw [homsg] at hno
      cases hno
    · rw [homsg] at hm
      cases hm
      exact ⟨hstate, hl.trans hlen.symm, ho, hlen.symm⟩
    · rw [homsg] at hm
      cases hm
      rw [hfit.1] at htype
      cases htype
  | fragment m hrest homsg htype _ _ hv hlt _ =>
    obtain ⟨-, hl, ho⟩ := hv.busy_fields
    have hbusy := hv.ostate_ne
    refine ⟨fun hno => ?_, fun m' hm htype' => ?_, fun m' hm _ => ?_⟩
    · rw [homsg] at hno
      cases hno
    · rw [homsg] at hm
      cases hm
      rw [htype] at htype'
      cases htype'
    · rw [homsg] at hm
      cases hm
      exact ⟨hlt.le, hobuf, ⟨fun heq => absurd heq hlt.ne, fun hp => absurd hp hbusy⟩,
        fun hp => absurd hp hbusy, fun _ => ⟨ho.symm, hl.symm⟩⟩

/-- A message that is put back on its queue. -/
structure PutBack (c : EventContext) (m : EventOmsg) : Prop where
  omsg : c.omsg = some m
  type : m.type = .fragmented
  fin : m.fin = 0
  state : c.frameCtx.ostate = .prepHeader
  empty : c.obufmark = c.obuf.length

/-- Choosing a message puts one back only between two of its fragments. -/
theorem Holds.putBack {c : EventContext} {h : Hand} (hh : Holds c h) (hs : h.Settled)
    (hfit : QueuesFit c) {io : Io} {m : EventOmsg}
    (hback : (sendPick c io).state.1.sendQueue = m :: c.sendQueue) : PutBack c m := by
  have hlonger : ∀ ms : List EventOmsg, ms ≠ m :: ms := by
    intro ms heq
    have := congrArg List.length heq
    simp at this
  -- what goes back is what is in hand
  have hhand : h.back ++ c.sendQueue = m :: c.sendQueue → h.back = [m] := fun heq =>
    List.append_cancel_right (heq.trans (List.singleton_append ..).symm)
  have hgoal : h.back = [m] → PutBack c m := by
    intro hb
    cases hh with
    | empty => cases hb
    | start => exact hs.elim
    | between m' homsg htype hfin _ hstate hnil hmark =>
      cases hb
      exact ⟨homsg, htype, hfin, hstate, by rw [hmark, hnil]; rfl⟩
    | whole => cases hb
    | fragment => cases hb
  have hp := sendPick_spec hh hfit io
  obtain ⟨x, hx⟩ : ∃ x, sendPick c io = x := ⟨_, rfl⟩
  rw [hx] at hp hback
  cases hp with
  | idle => exact absurd hback (hlonger _)
  | keep => exact absurd hback (hlonger _)
  | data m' ms _ _ hqueue =>
    have hlen := congrArg List.length hback
    rw [Step.state_again, (pick_fields _ _).2.2.2.1, hqueue] at hlen
    simp only [List.length_cons] at hlen
    omega
  | ctrl dropped m' rest io' _ _ _ =>
    rw [Step.state_again, (pick_fields _ _).2.2.2.1] at hback
    exact hgoal (hhand hback)
  | noClose => exact hgoal (hhand hback)
  | noMem => exact absurd hback (hlonger _)

/-! ## Runs -/

theorem Accounted.inStep {s : EventContext × Io} (ha : Accounted s) (hobuf : ObufFits s)
    (hlive : s.1.writeEnabled = true) : SendInStep s.1 := by
  obtain ⟨sent, owed, data, ctrl, ha⟩ := ha
  obtain ⟨h, hh, hsettled, -⟩ := ha.live hlive
  exact hh.inStep hsettled hobuf

/-- **The scheduler and the frame encoder stay in step**, wherever the application
can make a call while writing is enabled.  So a pass of `wslay_event_send` that puts
a message back on its queue puts back a fragmented one, between two fragments; and
what is on the wire, with what is still owed of the frame in progress, is the
frames begun, whose payloads and those still to come are the ones queued. -/
theorem scheduler_in_step (server : Bool) (callbacks : EventCallbacks) (noBuffering : Bool)
    (maxRecvMsgLength : Nat) {io : Io} (hio : io.Fresh) {s : EventContext × Io}
    (hs : Visits (configured server callbacks noBuffering maxRecvMsgLength, io) s)
    (hlive : s.1.writeEnabled = true) :
    SendInStep s.1 ∧
      (∀ t m, Loop.Reaches sendPass s t → eventWantWrite t.1 = true →
        (sendPick t.1 t.2).state.1.sendQueue = m :: t.1.sendQueue → PutBack t.1 m) ∧
      ∃ sent owed data ctrl, Account s sent owed data ctrl := by
  have ha : Accounted s := hs.inv accounted_kept
    (accounted_configured server callbacks noBuffering maxRecvMsgLength hio)
  have hobuf : ObufFits s := hs.inv obufFits_kept (Nat.zero_le _)
  refine ⟨ha.inStep hobuf hlive, fun t m ht hwant hback => ?_, ha⟩
  obtain ⟨sent, owed, data, ctrl, hacc⟩ := accounted_reaches ha ht
  simp only [eventWantWrite, Bool.and_eq_true] at hwant
  obtain ⟨h, hh, hsettled, hfit, -⟩ := hacc.live hwant.1
  exact hh.putBack hsettled hfit hback

/-- A fragment of which two octets are sent, with a Ping behind it. -/
def pingBehindFragment : EventContext × Io :=
  runOps (configured true ⟨false, false, false, false⟩ false 100,
      { sends := [.accept 2, .accept 2, .accept 1] })
    [.call (.queueFragmentedMsg ⟨textFrame, [.data [97] false (by decide),
      .data [98, 99] true (by decide)]⟩), .call .send, .call (.queueMsg ⟨ping, [1]⟩)]

theorem scheduler_in_step_pingBehindFragment :
    pingBehindFragment.1.writeEnabled = true ∧ SendInStep pingBehindFragment.1 := by
  have hlive : pingBehindFragment.1.writeEnabled = true := by decide +kernel
  have hio : ({ sends := [.accept 2, .accept 2, .accept 1] } : Io).Fresh :=
    ⟨rfl, rfl, rfl, rfl, rfl, rfl⟩
  exact ⟨hlive, (scheduler_in_step true ⟨false, false, false, false⟩ false 100 hio
    (.call _ (.call _ (.call _ .start))) hlive).1⟩

end Wslay
