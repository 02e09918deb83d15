import Wslay.Event.Following
import Wslay.Event.Ledger

/-!
# Sending that meets no trouble

While the callbacks keep their contracts, there is memory, and no Close has been
queued, `wslay_event_send` has nothing to complain about and nothing to end.

* `EventOmsg.Plain` — a message that is not a Close and that can be sent.
* `Healthy` — the invariant.
* `Healthy.sendPass` — one pass keeps it.
* `Healthy.eventSend` — **`wslay_event_send` succeeds, and writing stays enabled**.
* `Healthy.queueMsg`, `Healthy.queueFragmentedMsg` — so does queueing what can be sent.
* `Healthy.answered` — automatic replies do not disturb it.
-/

namespace Wslay

open Loop (Step)

/-- Nothing stands in the way of sending the message, and it is not a Close. -/
structure EventOmsg.Plain (m : EventOmsg) : Prop where
  fine : m.Fine
  other : m.opcode ≠ connectionClose

/-- **The sender is in order**: what it has in hand and what is queued can be sent,
and nothing has been shut down. -/
structure Healthy (s : EventContext × Io) : Prop where
  hand : ∃ h, Holds s.1 h ∧ h.Settled ∧ h.Fine ∧ ¬ h.IsClose
  fit : QueuesFit s.1
  queue : ∀ m ∈ s.1.sendQueue, m.Plain
  ctrlQueue : ∀ m ∈ s.1.sendCtrlQueue, m.Plain
  unclosed : s.1.closeStatus.queued = false
  enabled : s.1.writeEnabled = true
  willing : s.2.Willing
  mem : s.2.MemOk

theorem Healthy.queueable {s : EventContext × Io} (hs : Healthy s) :
    eventIsMsgQueueable s.1 = true := by
  rw [eventIsMsgQueueable, hs.enabled, hs.unclosed]
  rfl

/-! ## One pass -/

/-- A data message is no Close. -/
theorem EventOmsg.FitData.other {m : EventOmsg} (hm : m.FitData) : m.opcode ≠ connectionClose := by
  intro hc
  have hdata := hm.1
  rw [hc] at hdata
  exact absurd hdata (by decide)

/-- What is chosen has been in hand or in a queue. -/
theorem Chosen.plain {c c₁ : EventContext} {io io₁ : Io} {h h₁ : Hand}
    (hch : Chosen c io h c₁ io₁ h₁) (hfine : h.Fine) (hopen : ¬ h.IsClose)
    (hq : ∀ m ∈ c.sendQueue, m.Plain) (hcq : ∀ m ∈ c.sendCtrlQueue, m.Plain) :
    h₁.Fine ∧ ¬ h₁.IsClose ∧ (∀ m ∈ c₁.sendQueue, m.Plain) ∧ ∀ m ∈ c₁.sendCtrlQueue, m.Plain := by
  have hhand : h₁.Fine ∧ ¬ h₁.IsClose := by
    rcases hch.origin with rfl | ⟨m, rfl, hmem⟩
    · exact ⟨hfine, hopen⟩
    · have hm : m.Plain := hmem.elim (hq m) (hcq m)
      refine ⟨?_, ?_⟩
      · intro m' hm'
        rw [ofMsg_msg] at hm'
        cases hm'
        exact hm.fine
      · intro hc
        unfold Hand.ofMsg at hc
        split_ifs at hc
        · exact hm.other hc
        · exact hc
  refine ⟨hhand.1, hhand.2, ?_, ?_⟩
  · intro m hm
    rcases hch.queue m hm with hmem | hmem
    · exact hq m hmem
    · exact ⟨hfine m hmem, (hch.fit.data m hm).other⟩
  · intro m hm
    exact hcq m (hch.ctrlQueue m hm)

/-- **One pass** leaves the sender in good order and takes nothing back, and when it is
the last one the call succeeds. -/
theorem Healthy.sendPass {s : EventContext × Io} (hs : Healthy s) :
    Healthy (sendPass s).state ∧ s.2.wire <+: (sendPass s).state.2.wire ∧
      ∀ r t, sendPass s = .leave r t → r = 0 := by
  obtain ⟨h, hh, hsettled, hfine, hopen⟩ := hs.hand
  have hsame := (sendPass_recvSame s).1
  have hmem : (Wslay.sendPass s).state.2.MemOk := fun hf => hs.mem (hsame.mem.subset hf)
  rcases sendPass_spec hh hs.fit hs.enabled s.2 with
    ⟨c₁, io₁, h₁, begun, h', hch, hsends⟩ | ⟨r, t, hleave, hstop⟩
  · obtain ⟨hfine₁, hopen₁, hq, hcq⟩ := hch.plain hfine hopen hs.queue hs.ctrlQueue
    have hafter := hsends.after
    obtain ⟨hwilling, hzero, hwrite⟩ := hafter.good ⟨hch.willing hs.willing, hfine₁⟩
    have henabled : (Wslay.sendPass s).state.1.writeEnabled = true := by
      rw [hwrite hopen₁, hch.write, hs.enabled]
    obtain ⟨-, hholds, hsettled', hrole⟩ := hafter.alive henabled
    have hgrows : s.2.wire <+: (Wslay.sendPass s).state.2.wire := by
      rw [← hch.wire]
      exact hsends.grows
    refine ⟨?_, hgrows, hzero⟩
    refine ⟨⟨h', hholds, hsettled', hsends.fine hfine₁, (hafter.notClose hopen₁).1⟩, ?_, ?_, ?_, ?_,
      henabled, hwilling, hmem⟩
    · refine ⟨?_, ?_, ?_⟩
      · rw [hafter.sendCtrlQueue]
        exact hch.fit.ctrl
      · rw [hafter.sendQueue]
        exact hch.fit.data
      · rw [hafter.server]
        exact hrole
    · rw [hafter.sendQueue]
      exact hq
    · rw [hafter.sendCtrlQueue]
      exact hcq
    · rw [hafter.queued, hch.status, hs.unclosed]
  · cases hstop with
    | idle =>
      rw [hleave]
      refine ⟨hs, List.prefix_rfl, ?_⟩
      intro r t heq
      cases heq
      rfl
    | noClose io' _ hqueued =>
      rw [hs.unclosed] at hqueued
      cases hqueued
    | noMem io' _ hno => exact absurd hs.mem hno

/-! ## One call -/

/-- **`wslay_event_send` succeeds, and writing stays enabled.** -/
theorem Healthy.eventSend {s : EventContext × Io} (hs : Healthy s) :
    (eventSend s.1 s.2).1 = 0 ∧ Healthy (eventSend s.1 s.2).2 ∧
      s.2.wire <+: (eventSend s.1 s.2).2.2.wire := by
  have hsome := eventSend_isSome s.1 s.2
  unfold Wslay.eventSend
  obtain ⟨⟨r, s'⟩, hrun⟩ := Option.isSome_iff_exists.1 hsome
  rw [hrun]
  have hagain : ∀ t u, Healthy t ∧ s.2.wire <+: t.2.wire → Wslay.sendPass t = .again u →
      Healthy u ∧ s.2.wire <+: u.2.wire := by
    rintro t u ⟨ht, hwire⟩ heq
    obtain ⟨hp, hgrows, -⟩ := ht.sendPass
    rw [heq] at hp hgrows
    exact ⟨hp, hwire.trans hgrows⟩
  have hleave : ∀ t r u, Healthy t ∧ s.2.wire <+: t.2.wire → Wslay.sendPass t = .leave r u →
      r = 0 ∧ Healthy u ∧ s.2.wire <+: u.2.wire := by
    rintro t r u ⟨ht, hwire⟩ heq
    obtain ⟨hp, hgrows, hzero⟩ := ht.sendPass
    rw [heq] at hp hgrows
    exact ⟨hzero r u heq, hp, hwire.trans hgrows⟩
  exact Loop.run_exit hagain hleave ⟨hs, List.prefix_rfl⟩ hrun

/-! ## Queueing -/

/-- What the sender has in hand, and its flags. -/
def EventContext.handPart (c : EventContext) :=
  (c.frameCtx.sendHalf, c.omsg, c.obuf, c.obufmark, c.opayloadlen, c.opayloadoff, c.server,
    c.closeStatus.queued, c.writeEnabled)

/-- The hand is as it was, and what has come into the queues can be sent. -/
theorem Healthy.change {s s' : EventContext × Io} (hs : Healthy s)
    (hpart : s'.1.handPart = s.1.handPart)
    (hqueue : ∀ m ∈ s'.1.sendQueue, m ∈ s.1.sendQueue ∨ m.FitData ∧ m.Plain)
    (hctrl : ∀ m ∈ s'.1.sendCtrlQueue, m ∈ s.1.sendCtrlQueue ∨ m.FitCtrl ∧ m.Plain)
    (hwilling : s'.2.Willing) (hmem : s'.2.MemOk) : Healthy s' := by
  simp only [EventContext.handPart, Prod.mk.injEq] at hpart
  obtain ⟨hframe, homsg, hobuf, hmark, hlen, hoff, hserver, hqueued, hwrite⟩ := hpart
  obtain ⟨h, hh, hrest⟩ := hs.hand
  refine ⟨⟨h, hh.congr hframe homsg hobuf hmark hlen hoff, hrest⟩, ⟨?_, ?_, ?_⟩, ?_, ?_,
    hqueued.trans hs.unclosed, hwrite.trans hs.enabled, hwilling, hmem⟩
  · intro m hm
    exact (hctrl m hm).elim (hs.fit.ctrl m) And.left
  · intro m hm
    exact (hqueue m hm).elim (hs.fit.data m) And.left
  · intro h
    rw [effKey_congr hframe]
    exact hs.fit.role (hserver.symm.trans h)
  · intro m hm
    exact (hqueue m hm).elim (hs.queue m) And.right
  · intro m hm
    exact (hctrl m hm).elim (hs.ctrlQueue m) And.right

theorem Healthy.io {s : EventContext × Io} (hs : Healthy s) {io' : Io}
    (hwilling : io'.Willing) (hmem : io'.MemOk) : Healthy (s.1, io') :=
  hs.change rfl (fun _ h => Or.inl h) (fun _ h => Or.inl h) hwilling hmem

theorem Io.Allocates.willing {io io' : Io} (h : io.Allocates io') (hw : io.Willing) : io'.Willing := by
  rw [h.eq]
  exact ⟨hw.error, hw.sends, hw.masks⟩

/-- A message that can be sent is queued. -/
theorem Healthy.withMsg {c : EventContext} {io : Io} (hs : Healthy (c, io)) {arg : EventMsg}
    (hshort : isCtrlFrame arg.opcode = true → arg.msg.length ≤ 125)
    (hplain : (QueuedMsg.msg arg).omsg.Plain) :
    Healthy (c.withMsg arg, io.noteQueued (.msg arg)) := by
  have hw : (io.noteQueued (.msg arg)).Willing :=
    ⟨hs.willing.error, hs.willing.sends, hs.willing.masks⟩
  unfold EventContext.withMsg
  by_cases hc : isCtrlFrame arg.opcode = true
  · simp only [if_pos hc]
    refine hs.change rfl (fun m hm => Or.inl hm) ?_ hw hs.mem
    intro m hm
    rcases List.mem_append.1 hm with hm | hm
    · exact Or.inl hm
    · rw [List.mem_singleton.1 hm]
      exact Or.inr ⟨⟨rfl, rfl, hc, hshort hc⟩, hplain⟩
  · simp only [if_neg hc]
    refine hs.change rfl ?_ (fun m hm => Or.inl hm) hw hs.mem
    intro m hm
    rcases List.mem_append.1 hm with hm | hm
    · exact Or.inl hm
    · rw [List.mem_singleton.1 hm]
      exact Or.inr ⟨⟨Bool.eq_false_iff.2 hc, Or.inl ⟨rfl, rfl⟩⟩, hplain⟩

/-- **`wslay_event_queue_msg` takes what can be sent.** -/
theorem Healthy.queueMsg {c : EventContext} {io : Io} (hs : Healthy (c, io)) {arg : EventMsg}
    (hshort : isCtrlFrame arg.opcode = true → arg.msg.length ≤ 125)
    (hplain : (QueuedMsg.msg arg).omsg.Plain) :
    ∃ io', io.Allocates io' ∧
      eventQueueMsg c arg io = (0, c.withMsg arg, io'.noteQueued (.msg arg)) ∧
      Healthy (c.withMsg arg, io'.noteQueued (.msg arg)) := by
  rcases eventQueueMsg_cases c arg io with ⟨hno, -⟩ | ⟨-, hc, hlong, -⟩ |
    ⟨-, -, io', ha, heq | ⟨hmem, -⟩⟩
  · rw [hs.queueable] at hno
    cases hno
  · exact absurd (hshort hc) (Nat.not_le.2 hlong)
  · exact ⟨io', ha, heq, (hs.io (ha.willing hs.willing) (ha.memOk hs.mem)).withMsg hshort hplain⟩
  · exact absurd hs.mem hmem

/-- **`wslay_event_queue_fragmented_msg` takes what can be sent.** -/
theorem Healthy.queueFragmentedMsg {c : EventContext} {io : Io} (hs : Healthy (c, io))
    {arg : EventFragmentedMsg} (hdata : isCtrlFrame arg.opcode = false)
    (hplain : (QueuedMsg.fragmented arg).omsg.Plain) :
    ∃ io', io.Allocates io' ∧ eventQueueFragmentedMsg c arg io =
        (0, c.withFragmentedMsg arg, io'.noteQueued (.fragmented arg)) ∧
      Healthy (c.withFragmentedMsg arg, io'.noteQueued (.fragmented arg)) := by
  rcases eventQueueFragmentedMsg_cases c arg io with ⟨hno, -⟩ | ⟨-, hc, -⟩ |
    ⟨-, -, io', ha, heq | ⟨hmem, -⟩⟩
  · rw [hs.queueable] at hno
    cases hno
  · rw [hdata] at hc
    cases hc
  · have hw := ha.willing hs.willing
    refine ⟨io', ha, heq, ?_⟩
    refine hs.change rfl ?_ (fun m hm => Or.inl hm) ⟨hw.error, hw.sends, hw.masks⟩
      (ha.memOk hs.mem)
    intro m hm
    rcases List.mem_append.1 hm with hm | hm
    · exact Or.inl hm
    · rw [List.mem_singleton.1 hm]
      exact Or.inr ⟨⟨hdata, Or.inr ⟨rfl, rfl⟩⟩, hplain⟩
  · exact absurd hs.mem hmem

/-! ## Automatic replies -/

theorem plain_pong {msg : List UInt8} (hlen : msg.length ≤ 125) :
    (QueuedMsg.msg ⟨pong, msg⟩).omsg.Plain := by
  refine ⟨⟨?_, ?_⟩, (by decide : pong ≠ connectionClose)⟩
  · change msg.length < 2 ^ 63
    omega
  · intro r hr
    cases hr

theorem Healthy.answerAll {s : EventContext × Io} (hs : Healthy s) {rs : List Reply}
    (hr : ∀ r ∈ rs, ∃ msg : List UInt8, r = .pong msg ∧ msg.length ≤ 125) :
    Healthy (answerAll s rs) := by
  induction rs generalizing s with
  | nil => exact hs
  | cons r rs ih =>
    obtain ⟨msg, rfl, hlen⟩ := hr r (List.mem_cons_self ..)
    have hnext : Healthy (answer s (.pong msg)) :=
      Healthy.withMsg hs (fun _ => hlen) (plain_pong hlen)
    exact ih hnext fun r' hr' => hr r' (List.mem_cons_of_mem _ hr')

/-- **A context that has done nothing to its sender but queue Pongs is still in
order.** -/
theorem Healthy.answered {s s' : EventContext × Io} (hs : Healthy s) {rs : List Reply}
    (hr : ∀ r ∈ rs, ∃ msg : List UInt8, r = .pong msg ∧ msg.length ≤ 125)
    (hsend : sendPart s' = sendPart (Wslay.answerAll s rs)) (hwilling : s'.2.Willing)
    (hmem : s'.2.MemOk) : Healthy s' := by
  have ha := hs.answerAll hr
  have hhalf : s'.1.sendHalf = (Wslay.answerAll s rs).1.sendHalf := congrArg Prod.fst hsend
  simp only [EventContext.sendHalf, Prod.mk.injEq] at hhalf
  obtain ⟨hserver, hqueued, -, hwrite, -, hframe, homsg, hqueue, hctrl, -, -, hobuf, hmark, hlen,
    hoff⟩ := hhalf
  refine ha.change ?_ ?_ ?_ hwilling hmem
  · simp only [EventContext.handPart, Prod.mk.injEq]
    exact ⟨hframe, homsg, hobuf, hmark, hlen, hoff, hserver, hqueued, hwrite⟩
  · rw [hqueue]
    exact fun m hm => Or.inl hm
  · rw [hctrl]
    exact fun m hm => Or.inl hm

/-! ## The beginning -/

theorem configured_healthy (server : Bool) (callbacks : EventCallbacks) (noBuffering : Bool)
    (limit : Nat) {io : Io} (hwilling : io.Willing) (hmem : io.MemOk) :
    Healthy (configured server callbacks noBuffering limit, io) := by
  refine ⟨⟨.empty, .empty rfl rfl rfl rfl, trivial, ?_, fun h => h⟩, ⟨?_, ?_, fun _ => rfl⟩, ?_, ?_,
    rfl, rfl, hwilling, hmem⟩ <;> intro m hm <;> cases hm

end Wslay
