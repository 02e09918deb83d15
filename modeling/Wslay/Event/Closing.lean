import Wslay.Event.Ledger
import Wslay.Event.Receiving

/-!
# The Close is next and last

Once a Close is queued it is the next frame that is begun, and when its last
octet has been sent nothing is ever sent again.  What links the flags, the
queue and the message in hand is an invariant of whole runs (`Course`).

* `Course.sendPass` — one pass begins at most one frame, which is a Close if
  one is queued.
* `onCourse_kept` — the invariant survives every call.
* `staysAhead_kept` — a queued Close is still to come as long as writing is enabled.
* `silent_kept` — a sender that is shut down is silent.
* `close_next_and_last` — the two results together, for every run.
-/

namespace Wslay

open Loop (Step)

/-! ## The invariant -/

/-- The call, if it queues a message, gives it an opcode that fits in four bits. -/
def AppCall.LowOpcode : AppCall → Prop
  | .queueMsg arg => arg.opcode.toNat < 16
  | .queueFragmentedMsg arg => arg.opcode.toNat < 16
  | _ => True

/-- The frame is a Close. -/
def Frame.IsClose (f : Frame) : Prop := f.opcode = wireOpcode connectionClose

/-- The last of some frames is a Close. -/
def LastIsClose (sent : List Frame) : Prop := ∃ f, sent.getLast? = some f ∧ f.IsClose

/-- A Close is waiting in the control queue or is being sent. -/
def CloseAhead (c : EventContext) : Prop :=
  ∃ m, m.opcode = connectionClose ∧ (m ∈ c.sendCtrlQueue ∨ c.omsg = some m)

/-- The octets of the frame in progress that the code has still to send: what is left of the
header, and of the payload of the message or of the fragment in `obuf`. -/
def EventContext.owed (c : EventContext) : List UInt8 :=
  if c.frameCtx.ostate = .prepHeader then []
  else
    match c.omsg with
    | none => []
    | some m =>
      (if c.frameCtx.ostate = .sendHeader then c.frameCtx.oheaderRest else []) ++
        if m.type = .nonFragmented then
          maskWith c.frameCtx.effKey c.opayloadoff (m.data.drop c.opayloadoff)
        else maskWith c.frameCtx.effKey c.obufmark (c.obuf.drop c.obufmark)

theorem EncView.headerRest {f : FrameContext} {len off : Nat} {hrest : List UInt8}
    (hv : EncView f (.busy len hrest off)) :
    (if f.ostate = .sendHeader then f.oheaderRest else []) = hrest := by
  cases hv with
  | header _ _ hstate hrest => rw [if_pos hstate, hrest]
  | payload _ _ hstate => rw [if_neg (by rw [hstate]; decide)]

/-- What is owed of what is in hand. -/
theorem Holds.owed_eq {c : EventContext} {h : Hand} (hh : Holds c h) : c.owed = h.owed := by
  unfold EventContext.owed
  cases hh with
  | empty _ hstate => exact if_pos hstate
  | start _ _ _ hstate => exact if_pos hstate
  | between _ _ _ _ _ hstate => exact if_pos hstate
  | whole m hrest homsg hfit hview =>
    rw [if_neg hview.ostate_ne, homsg]
    simp only [if_pos hfit.1, hview.headerRest]
    rfl
  | fragment m hrest homsg htype _ _ hview =>
    have hne : m.type ≠ .nonFragmented := by
      rw [htype]
      decide
    rw [if_neg hview.ostate_ne, homsg]
    simp only [if_neg hne, hview.headerRest]
    rfl

/-- The frames begun are `sent`; all of the last one but `owed` is on the wire.
Only the last one can be a Close, and when it is complete nothing more is sent. -/
structure Course (s : EventContext × Io) (sent : List Frame) (owed : List UInt8) : Prop where
  legit : ∀ f ∈ sent, f.Legit s.1.server
  low : ∀ m ∈ s.1.sendCtrlQueue, m.opcode.toNat < 16
  apps : ∀ calls ∈ s.2.apps, ∀ a ∈ calls, a.LowOpcode
  wire : s.2.wire ++ owed = sent.flatMap Frame.encode
  complete : sent.dropLast.flatMap Frame.encode <+: s.2.wire
  only : ∀ f ∈ sent.dropLast, ¬ f.IsClose
  done : LastIsClose sent → owed = [] → s.1.closeStatus.sent = true
  shut : s.1.closeStatus.sent = true → s.1.writeEnabled = false
  live : s.1.writeEnabled = true → ∃ h, Holds s.1 h ∧ h.Settled ∧ QueuesFit s.1 ∧ owed = h.owed ∧
    (LastIsClose sent ↔ h.IsClose) ∧
    (s.1.closeStatus.queued = true →
      (∃ m ∈ s.1.sendCtrlQueue, m.opcode = connectionClose) ∨ h.IsClose)

theorem lastIsClose_append (sent : List Frame) (f : Frame) :
    LastIsClose (sent ++ [f]) ↔ f.IsClose := by
  simp [LastIsClose]

theorem Holds.owes {c : EventContext} {h : Hand} (hh : Holds c h) : h.Owes := by
  cases hh with
  | empty => trivial
  | start => trivial
  | between => trivial
  | whole m hrest _ _ hview => exact hview.owes rfl _
  | fragment m hrest _ _ _ _ hview => exact hview.owes rfl _

/-- A Close that is being sent is a frame in progress. -/
theorem Hand.Settled.close {h : Hand} (hs : h.Settled) (hc : h.IsClose) :
    ∃ m rest, h = .whole m rest ∧ m.opcode = connectionClose := by
  cases h with
  | whole m rest => exact ⟨m, rest, rfl, hc⟩
  | start => exact hs.elim
  | empty => exact hc.elim
  | between => exact hc.elim
  | fragment => exact hc.elim

theorem connectionClose_of_low {opcode : UInt8} (hlow : opcode.toNat < 16)
    (h : wireOpcode opcode = wireOpcode connectionClose) : opcode = connectionClose := by
  have h' : opcode.toNat % 16 = 8 := congrArg Fin.val h
  refine UInt8.toNat_inj.1 ?_
  rw [Nat.mod_eq_of_lt hlow] at h'
  exact h'

/-! ## One pass -/

/-- The frame that is begun with `h` in hand is a Close if and only if the message is. -/
theorem Sends.begun_isClose {c : EventContext} {io : Io} {h h' : Hand}
    {x : Step (EventContext × Io) Int} {f : Frame} (hs : Sends c io h x [f] h')
    (hlow : ∀ m, h = .start m → isCtrlFrame m.opcode = true → m.opcode.toNat < 16) :
    f.IsClose ↔ h.IsClose := by
  have hctrl := hs.ctrl
  rcases hs.begins with h0 | ⟨g, hg, -, hclose⟩
  · cases h0
  · cases hg
    refine ⟨fun hf => ?_, hclose⟩
    have hf8 : f.outline.isCtrl = true := by
      rw [Outline.isCtrl, show f.outline.opcode = _ from hf]
      decide
    rw [ctrlOutlines, List.map_singleton, List.filter_singleton, hf8] at hctrl
    cases h with
    | start m =>
      rw [Hand.ctrl] at hctrl
      split_ifs at hctrl with hc
      · simp only [cond_true, List.singleton_append, List.cons.injEq] at hctrl
        refine connectionClose_of_low (hlow m rfl hc) ?_
        rw [← show f.outline.opcode = _ from hf, ← hctrl.1]
        rfl
      · cases hctrl
    | empty => cases hctrl
    | between => cases hctrl
    | whole => cases hctrl
    | fragment => cases hctrl

/-- A Close that has not been begun is a control frame to come. -/
theorem Hand.start_close {m : EventOmsg} (hm : m.opcode = connectionClose) :
    (Hand.start m).ctrl = [m.outline] := by
  rw [Hand.ctrl, if_pos (by rw [hm]; decide)]

theorem Hand.length_ctrl (h : Hand) : h.ctrl.length ≤ 1 := by
  cases h with
  | start m => rw [Hand.ctrl]; split_ifs <;> simp
  | empty => exact Nat.zero_le _
  | between => exact Nat.zero_le _
  | whole => exact Nat.zero_le _
  | fragment => exact Nat.zero_le _

section

variable {c c₁ : EventContext} {io io₁ : Io} {sent begun : List Frame} {h h₁ h' : Hand}
  {x : Step (EventContext × Io) Int}

/-- A Close in progress is the message in hand, and stays there. -/
theorem Chosen.stays_close (hch : Chosen c io h c₁ io₁ h₁) (hsettled : h.Settled) (howes : h.Owes)
    (hclose : h.IsClose) : h.owed ≠ [] ∧ h₁ = h ∧ h₁.ctrl = [] := by
  obtain ⟨m, rest, rfl, -⟩ := hsettled.close hclose
  have hstay := (hch.stays fun hp => hp.elim).1
  exact ⟨howes, hstay, by rw [hstay]; rfl⟩

/-- A control message that is taken in hand comes from the control queue. -/
theorem Chosen.low (hch : Chosen c io h c₁ io₁ h₁) (hsettled : h.Settled) (hfit : QueuesFit c)
    (hlow : ∀ m ∈ c.sendCtrlQueue, m.opcode.toNat < 16) :
    ∀ m, h₁ = .start m → isCtrlFrame m.opcode = true → m.opcode.toNat < 16 := by
  intro m hm hctrl
  rcases hch.origin with heq | ⟨m', heq, hmem⟩
  · rw [heq] at hm
    rw [hm] at hsettled
    exact hsettled.elim
  · have hmm : m = m' := by
      have := congrArg Hand.msg? (hm.symm.trans heq)
      rw [ofMsg_msg] at this
      exact Option.some.inj this
    subst hmm
    rcases hmem with hmem | hmem
    · rw [(hfit.data m hmem).1] at hctrl
      cases hctrl
    · exact hlow m hmem

/-- **At most one frame is begun**, for the message in hand, and none before the last one
is complete. -/
theorem Sends.begins_one (hs : Sends c₁ io₁ h₁ x begun h') (hch : Chosen c io h c₁ io₁ h₁)
    (hlow : ∀ m, h₁ = .start m → isCtrlFrame m.opcode = true → m.opcode.toNat < 16) :
    begun = [] ∨ ∃ f, begun = [f] ∧ (f.IsClose ↔ h₁.IsClose) ∧ h.owed = [] := by
  rcases hs.begins with h0 | ⟨f, hf, howed, -⟩
  · exact Or.inl h0
  · subst hf
    exact Or.inr ⟨f, rfl, hs.begun_isClose hlow, hch.owed ▸ howed⟩

/-- A Close stays in hand as long as sending goes on. -/
theorem Sends.alive_close (hs : Sends c₁ io₁ h₁ x begun h')
    (hlive : x.state.1.writeEnabled = true) : (h₁.IsClose ↔ h'.IsClose) ∧
      x.state.1.closeStatus.sent = c₁.closeStatus.sent := by
  have hafter := hs.after
  by_cases hclose : h₁.IsClose
  · rcases hafter.isClose hclose with ⟨h1, h2⟩ | ⟨-, -, hdead⟩
    · exact ⟨⟨fun _ => h1, fun _ => hclose⟩, h2⟩
    · rw [hlive] at hdead
      cases hdead
  · obtain ⟨h1, h2⟩ := hafter.notClose hclose
    exact ⟨⟨fun h => absurd h hclose, fun h => absurd h h1⟩, h2⟩

/-- **A Close that is waiting** is chosen, unless a frame is in progress. -/
theorem Chosen.pending (hch : Chosen c io h c₁ io₁ h₁) (hsettled : h.Settled) (howes : h.Owes)
    (hq : c.closeStatus.queued = true)
    (hahead : (∃ m ∈ c.sendCtrlQueue, m.opcode = connectionClose) ∨ h.IsClose) :
    h₁.IsClose ∨ h₁ = h ∧ ¬ h.Preemptible ∧ c₁.sendCtrlQueue = c.sendCtrlQueue ∧
      ∃ m ∈ c.sendCtrlQueue, m.opcode = connectionClose := by
  rcases hahead with hmem | hclose
  · rcases hch.close hq hmem with ⟨-, hclose⟩ | ⟨heq, hpre, hctrl⟩
    · exact Or.inl hclose
    · exact Or.inr ⟨heq, hpre, hctrl, hmem⟩
  · exact Or.inl ((hch.stays_close hsettled howes hclose).2.1 ▸ hclose)

/-- A Close that is waiting is still to come after the pass, as long as sending goes on. -/
theorem Sends.ahead (hs : Sends c₁ io₁ h₁ x begun h') (hch : Chosen c io h c₁ io₁ h₁)
    (hsettled : h.Settled) (howes : h.Owes)
    (hahead : c.closeStatus.queued = true →
      (∃ m ∈ c.sendCtrlQueue, m.opcode = connectionClose) ∨ h.IsClose)
    (hlive : x.state.1.writeEnabled = true) (hq : x.state.1.closeStatus.queued = true) :
    (∃ m ∈ x.state.1.sendCtrlQueue, m.opcode = connectionClose) ∨ h'.IsClose := by
  rw [hs.after.queued, hch.status] at hq
  rcases hch.pending hsettled howes hq (hahead hq) with hclose | ⟨-, -, hctrl, hmem⟩
  · exact Or.inr ((hs.alive_close hlive).1.1 hclose)
  · rw [hs.after.sendCtrlQueue, hctrl]
    exact Or.inl hmem

/-- A Close of which nothing is left to be sent is noted. -/
theorem Sends.noted (hs : Sends c₁ io₁ h₁ x begun h') (hclose : h₁.IsClose)
    (hnone : begun = [] → h₁.ctrl = []) (hone : begun = [] ∨ ∃ f, begun = [f] ∧ f.IsClose)
    (howed : h'.owed = []) : x.state.1.closeStatus.sent = true := by
  rcases hs.after.isClose hclose with ⟨h1, -⟩ | ⟨-, hsent, -⟩
  · exfalso
    have howes' := hs.after.owes
    cases h' with
    | whole => exact howes' howed
    | start m =>
      -- it would be begun twice
      have hctrl := hs.ctrl
      rw [Hand.start_close h1] at hctrl
      rcases hone with rfl | ⟨f, rfl, hf⟩
      · rw [hnone rfl] at hctrl
        cases hctrl
      · have hf8 : f.outline.isCtrl = true := by
          rw [Outline.isCtrl, show f.outline.opcode = _ from hf]
          decide
        have hlen := h₁.length_ctrl
        rw [hctrl, ctrlOutlines, List.map_singleton, List.filter_singleton, hf8] at hlen
        simp at hlen
    | empty => exact h1
    | between => exact h1
    | fragment => exact h1
  · exact hsent

/-- The last frame begun is a Close just when one is in hand. -/
theorem Sends.last_iff (hs : Sends c₁ io₁ h₁ x begun h') (hch : Chosen c io h c₁ io₁ h₁)
    (hlast : LastIsClose sent ↔ h.IsClose)
    (hbegun : begun = [] ∨ ∃ f, begun = [f] ∧ (f.IsClose ↔ h₁.IsClose) ∧ h.owed = [])
    (hto : LastIsClose (sent ++ begun) → h₁.IsClose) (hlive : x.state.1.writeEnabled = true) :
    LastIsClose (sent ++ begun) ↔ h'.IsClose := by
  refine ⟨fun hl => (hs.alive_close hlive).1.1 (hto hl), fun hclose => ?_⟩
  have hclose₁ := (hs.alive_close hlive).1.2 hclose
  rcases hbegun with rfl | ⟨f, rfl, hf, -⟩
  · rw [List.append_nil]
    rcases hch.origin with heq | ⟨m, heq, -⟩
    · rw [heq] at hclose₁
      exact hlast.2 hclose₁
    · have hstart : h₁ = .start m := by
        rw [heq] at hclose₁ ⊢
        unfold Hand.ofMsg at hclose₁ ⊢
        split_ifs at hclose₁ ⊢
        · rfl
        · exact hclose₁.elim
      have := hs.starts m hstart rfl
      rw [hlive] at this
      cases this
  · exact (lastIsClose_append sent f).2 (hf.2 hclose₁)

/-- No frame but the last is a Close when nothing is begun behind one. -/
theorem not_isClose_dropLast {f : Frame} (honly : ∀ g ∈ sent.dropLast, ¬ g.IsClose)
    (hnot : ¬ LastIsClose sent) : ∀ g ∈ (sent ++ [f]).dropLast, ¬ g.IsClose := by
  intro g hg hclose
  rw [List.dropLast_concat] at hg
  by_cases hnil : sent = []
  · rw [hnil] at hg
    cases hg
  · rw [← List.dropLast_append_getLast hnil] at hg
    rcases List.mem_append.1 hg with hg | hg
    · exact honly g hg hclose
    · rw [List.mem_singleton.1 hg] at hclose
      exact hnot ⟨_, List.getLast?_eq_some_getLast hnil, hclose⟩

/-- What is sent after a choice has been made keeps the invariant. -/
theorem Course.sends (hc : Course (c, io) sent h.owed) (hsettled : h.Settled)
    (howes : h.Owes) (hfit : QueuesFit c) (hlast : LastIsClose sent ↔ h.IsClose)
    (hahead : c.closeStatus.queued = true →
      (∃ m ∈ c.sendCtrlQueue, m.opcode = connectionClose) ∨ h.IsClose)
    (hch : Chosen c io h c₁ io₁ h₁) (hs : Sends c₁ io₁ h₁ x begun h')
    (happs : x.state.2.apps = io.apps) :
    Course x.state (sent ++ begun) h'.owed ∧
      (begun = [] ∨ ∃ f, begun = [f] ∧
        (c.closeStatus.queued = true → f.IsClose ∧ ¬ LastIsClose sent)) := by
  have hafter := hs.after
  have hwire : io.wire <+: x.state.2.wire := hch.wire ▸ hs.grows
  have hclose : LastIsClose sent → h.owed ≠ [] ∧ h₁ = h ∧ h₁.ctrl = [] :=
    fun hl => hch.stays_close hsettled howes (hlast.1 hl)
  have hbegun := hs.begins_one hch (hch.low hsettled hfit hc.low)
  have hto : LastIsClose (sent ++ begun) → h₁.IsClose := by
    intro hl
    rcases hbegun with rfl | ⟨f, rfl, hf, -⟩
    · rw [List.append_nil] at hl
      rw [(hclose hl).2.1]
      exact hlast.1 hl
    · exact hf.1 ((lastIsClose_append sent f).1 hl)
  refine ⟨⟨?_, ?_, ?_, ?_, ?_, ?_, ?_, ?_, ?_⟩, ?_⟩
  · rw [hafter.server, hch.server]
    intro f hf
    rcases List.mem_append.1 hf with hf | hf
    · exact hc.legit f hf
    · rw [← hch.server]
      exact hs.legit f hf
  · intro m hm
    rw [hafter.sendCtrlQueue] at hm
    exact hc.low m (hch.ctrlQueue m hm)
  · rw [happs]
    exact hc.apps
  · rw [hs.wire, hch.wire, hch.owed, hc.wire, List.flatMap_append]
  · rcases hbegun with rfl | ⟨f, rfl, -, howed⟩
    · rw [List.append_nil]
      exact hc.complete.trans hwire
    · have hall := hc.wire
      rw [howed, List.append_nil] at hall
      rw [List.dropLast_concat, ← hall]
      exact hwire
  · rcases hbegun with rfl | ⟨g, rfl, -, howed⟩
    · rw [List.append_nil]
      exact hc.only
    · exact not_isClose_dropLast hc.only fun hl => (hclose hl).1 howed
  · intro hl howed
    have hcl := hto hl
    refine hs.noted hcl ?_ ?_ howed
    · rintro rfl
      rw [List.append_nil] at hl
      exact (hclose hl).2.2
    · rcases hbegun with h0 | ⟨f, hf, hiff, -⟩
      · exact Or.inl h0
      · exact Or.inr ⟨f, hf, hiff.2 hcl⟩
  · intro hsent
    by_contra hlive
    rw [Bool.not_eq_false] at hlive
    have hopen := (hafter.alive hlive).1
    rw [hch.write] at hopen
    rw [(hs.alive_close hlive).2, hch.status] at hsent
    have := hc.shut hsent
    rw [hopen] at this
    cases this
  · intro hlive
    obtain ⟨-, hh', hsettled', hrole'⟩ := hafter.alive hlive
    refine ⟨h', hh', hsettled', ⟨?_, ?_, ?_⟩, rfl, hs.last_iff hch hlast hbegun hto hlive,
      hs.ahead hch hsettled howes hahead hlive⟩
    · rw [hafter.sendCtrlQueue]
      exact hch.fit.ctrl
    · rw [hafter.sendQueue]
      exact hch.fit.data
    · rw [hafter.server]
      exact hrole'
  · rcases hbegun with rfl | ⟨f, rfl, hf, howed⟩
    · exact Or.inl rfl
    · refine Or.inr ⟨f, rfl, fun hq => ⟨?_, fun hl => (hclose hl).1 howed⟩⟩
      rcases hch.pending hsettled howes hq (hahead hq) with hcl | ⟨-, hpre, -⟩
      · exact hf.2 hcl
      · -- between two frames anything in hand can be preempted
        exfalso
        cases h with
        | whole => exact howes howed
        | fragment => exact howes howed
        | start => exact hsettled
        | empty => exact hpre trivial
        | between => exact hpre trivial

end

/-- **One pass of `wslay_event_send`** begins at most one frame, and that is a
Close if one is queued; it begins none behind a Close. -/
theorem Course.sendPass {s : EventContext × Io} {sent : List Frame} {owed : List UInt8}
    (hc : Course s sent owed) :
    ∃ begun owed', Course (sendPass s).state (sent ++ begun) owed' ∧
      (begun = [] ∨ ∃ f, begun = [f] ∧
        (s.1.closeStatus.queued = true → f.IsClose ∧ ¬ LastIsClose sent)) := by
  obtain ⟨c, io⟩ := s
  by_cases hlive : c.writeEnabled = true
  · obtain ⟨h, hh, hsettled, hfit, rfl, hlast, hahead⟩ := hc.live hlive
    rcases sendPass_spec hh hfit hlive io with ⟨c₁, io₁, h₁, begun, h', hch, hs⟩ | ⟨r, t, heq, hstop⟩
    · obtain ⟨h1, h2⟩ := hc.sends hsettled hh.owes hfit hlast hahead hch hs
        (sendPass_recvSame (c, io)).1.apps
      exact ⟨begun, h'.owed, h1, h2⟩
    · rw [heq]
      refine ⟨[], h.owed, ?_, Or.inl rfl⟩
      rw [List.append_nil]
      cases hstop with
      | idle => exact hc
      | noClose io' hpre hclosing hno _ =>
        exfalso
        rcases hahead hclosing with ⟨m, hm, hclose⟩ | hcl
        · exact hno m hm hclose
        · obtain ⟨m, rest, rfl, -⟩ := hsettled.close hcl
          exact hpre
      | noMem io' ha _ =>
        have hio := ha.eq
        refine ⟨hc.legit, hc.low, ?_, ?_, ?_, hc.only, hc.done, fun _ => rfl, fun h => by cases h⟩
        · rw [Step.state_leave, hio]
          exact hc.apps
        · rw [Step.state_leave, hio]
          exact hc.wire
        · rw [Step.state_leave, hio]
          exact hc.complete
  · have hstay : Wslay.sendPass (c, io) = .leave 0 (c, io) := by
      unfold Wslay.sendPass eventWantWrite
      simp [hlive]
    rw [hstay]
    exact ⟨[], owed, by rw [List.append_nil]; exact hc, Or.inl rfl⟩

/-! ## Runs -/

/-- The invariant, with frames that `Q` holds of; once `closing` holds a Close has
been queued. -/
def OnCourse (closing : Prop) (Q : List Frame → Prop) (s : EventContext × Io) : Prop :=
  (closing → s.1.closeStatus.queued = true) ∧ ∃ sent owed, Course s sent owed ∧ Q sent

/-- `Q` survives the frames that a pass may begin. -/
def Extends (closing : Prop) (Q : List Frame → Prop) : Prop :=
  ∀ sent f, Q sent → (closing → f.IsClose ∧ ¬ LastIsClose sent) → Q (sent ++ [f])

theorem OnCourse.sendPass {closing : Prop} {Q : List Frame → Prop} (hQ : Extends closing Q)
    {s : EventContext × Io} (hs : OnCourse closing Q s) : OnCourse closing Q (sendPass s).state := by
  obtain ⟨hclosing, sent, owed, hc, hq⟩ := hs
  have hsame := (sendPass_recvSame s).1.context
  simp only [EventContext.recvHalf, Prod.mk.injEq] at hsame
  refine ⟨fun h => hsame.2.1.trans (hclosing h), ?_⟩
  obtain ⟨begun, owed', hc', rfl | ⟨f, rfl, hf⟩⟩ := hc.sendPass
  · exact ⟨sent ++ [], owed', hc', by rw [List.append_nil]; exact hq⟩
  · exact ⟨sent ++ [f], owed', hc', hQ sent f hq fun h => hf (hclosing h)⟩

/-- A change that the invariant does not look at. -/
theorem Course.congr {s s' : EventContext × Io} {sent : List Frame} {owed : List UInt8}
    (hc : Course s sent owed) (hctrl : s'.1.sendCtrlQueue = s.1.sendCtrlQueue)
    (hqueue : ∀ m ∈ s'.1.sendQueue, m ∈ s.1.sendQueue ∨ m.FitData)
    (hserver : s'.1.server = s.1.server) (hstatus : s'.1.closeStatus.sent = s.1.closeStatus.sent)
    (hqueued : s'.1.closeStatus.queued = s.1.closeStatus.queued)
    (hwrite : s'.1.writeEnabled = s.1.writeEnabled)
    (hframe : s'.1.frameCtx.sendHalf = s.1.frameCtx.sendHalf) (homsg : s'.1.omsg = s.1.omsg)
    (hobuf : s'.1.obuf = s.1.obuf) (hmark : s'.1.obufmark = s.1.obufmark)
    (hlen : s'.1.opayloadlen = s.1.opayloadlen) (hoff : s'.1.opayloadoff = s.1.opayloadoff)
    (hwire : s'.2.wire = s.2.wire) (happs : ∀ calls ∈ s'.2.apps, calls ∈ s.2.apps) :
    Course s' sent owed where
  legit := by rw [hserver]; exact hc.legit
  low := by rw [hctrl]; exact hc.low
  apps := fun calls h => hc.apps calls (happs calls h)
  wire := by rw [hwire]; exact hc.wire
  complete := by rw [hwire]; exact hc.complete
  only := hc.only
  done := by rw [hstatus]; exact hc.done
  shut := by rw [hstatus, hwrite]; exact hc.shut
  live := by
    intro hlive
    obtain ⟨h, hh, hsettled, hfit, howed, hlast, hahead⟩ := hc.live (hwrite ▸ hlive)
    refine ⟨h, hh.congr hframe homsg hobuf hmark hlen hoff, hsettled, ⟨?_, ?_, ?_⟩, howed, hlast, ?_⟩
    · rw [hctrl]
      exact hfit.ctrl
    · intro m hm
      exact (hqueue m hm).elim (hfit.data m) id
    · rw [hserver, effKey_congr hframe]
      exact hfit.role
    · rw [hctrl, hqueued]
      exact hahead

/-- A control message that is queued. -/
theorem Course.enqueueCtrl {c : EventContext} {io : Io} {sent : List Frame} {owed : List UInt8}
    (hc : Course (c, io) sent owed) {m : EventOmsg} (hm : m.FitCtrl) (hlow : m.opcode.toNat < 16)
    (count length : Nat) (status : CloseStatus) (hsent : status.sent = c.closeStatus.sent)
    (hqueued : status.queued = true → c.closeStatus.queued = true ∨ m.opcode = connectionClose)
    {io' : Io} (hwire : io'.wire = io.wire) (happs : io'.apps = io.apps) :
    Course ({ c with sendCtrlQueue := c.sendCtrlQueue ++ [m], queuedMsgCount := count,
                     queuedMsgLength := length, closeStatus := status }, io') sent owed where
  legit := hc.legit
  low := by
    intro m' hm'
    rcases List.mem_append.1 hm' with h | h
    · exact hc.low m' h
    · rw [List.mem_singleton.1 h]
      exact hlow
  apps := by rw [happs]; exact hc.apps
  wire := by rw [hwire]; exact hc.wire
  complete := by rw [hwire]; exact hc.complete
  only := hc.only
  done := fun h1 h2 => hsent.trans (hc.done h1 h2)
  shut := fun h => hc.shut (hsent.symm.trans h)
  live := by
    intro hlive
    obtain ⟨h, hh, hsettled, hfit, howed, hlast, hahead⟩ := hc.live hlive
    refine ⟨h, hh.congr rfl rfl rfl rfl rfl rfl, hsettled, ⟨?_, hfit.data, hfit.role⟩, howed, hlast,
      fun hq => ?_⟩
    · intro m' hm'
      rcases List.mem_append.1 hm' with h | h
      · exact hfit.ctrl m' h
      · rw [List.mem_singleton.1 h]
        exact hm
    · rcases hqueued hq with hq | hclose
      · rcases hahead hq with ⟨m', hm', hclose⟩ | hcl
        · exact Or.inl ⟨m', List.mem_append_left _ hm', hclose⟩
        · exact Or.inr hcl
      · exact Or.inl ⟨m, by simp, hclose⟩

theorem OnCourse.withMsg {closing : Prop} {Q : List Frame → Prop} {c : EventContext} {io : Io}
    (hs : OnCourse closing Q (c, io)) {arg : EventMsg} (hlow : arg.opcode.toNat < 16)
    (hshort : isCtrlFrame arg.opcode = true → arg.msg.length ≤ 125) :
    OnCourse closing Q (c.withMsg arg, io.noteQueued (.msg arg)) := by
  obtain ⟨hclosing, sent, owed, hc, hq⟩ := hs
  unfold EventContext.withMsg
  by_cases hctrl : isCtrlFrame arg.opcode = true
  · simp only [if_pos hctrl]
    have hfit : (⟨1, arg.opcode, .nonFragmented, arg.msg, []⟩ : EventOmsg).FitCtrl :=
      ⟨rfl, rfl, hctrl, hshort hctrl⟩
    exact ⟨hclosing, sent, owed, hc.enqueueCtrl hfit hlow _ _ c.closeStatus rfl Or.inl rfl rfl, hq⟩
  · simp only [if_neg hctrl]
    refine ⟨hclosing, sent, owed, hc.congr rfl ?_ rfl rfl rfl rfl rfl rfl rfl rfl rfl rfl rfl
      fun _ h => h, hq⟩
    intro m hm
    rcases List.mem_append.1 hm with h | h
    · exact Or.inl h
    · rw [List.mem_singleton.1 h]
      exact Or.inr ⟨Bool.eq_false_iff.2 hctrl, Or.inl ⟨rfl, rfl⟩⟩

/-- Every call of the application keeps the invariant. -/
theorem OnCourse.appCall {closing : Prop} {Q : List Frame → Prop} (hQ : Extends closing Q)
    {c : EventContext} {io : Io} (hs : OnCourse closing Q (c, io)) {a : AppCall}
    (hlow : a.LowOpcode) : OnCourse closing Q (appCall c io a).2 := by
  have hallocates : ∀ io', io.Allocates io' → OnCourse closing Q (c, io') := by
    intro io' h
    obtain ⟨hclosing, sent, owed, hc, hq⟩ := hs
    refine ⟨hclosing, sent, owed, hc.congr rfl (fun _ => Or.inl) rfl rfl rfl rfl rfl rfl rfl rfl rfl
      rfl (by rw [h.eq]) (by rw [h.eq]; exact fun _ h => h), hq⟩
  cases a with
  | queueMsg arg =>
    change OnCourse closing Q (eventQueueMsg c arg io).2
    rcases eventQueueMsg_cases c arg io with ⟨-, heq⟩ | ⟨-, -, -, heq⟩ |
      ⟨-, hshort, io', ha, heq | ⟨-, r, -, -, heq⟩⟩ <;> rw [heq]
    · exact hs
    · exact hs
    · exact (hallocates io' ha).withMsg hlow hshort
    · exact hallocates io' ha
  | queueFragmentedMsg arg =>
    change OnCourse closing Q (eventQueueFragmentedMsg c arg io).2
    rcases eventQueueFragmentedMsg_cases c arg io with ⟨-, heq⟩ | ⟨-, -, heq⟩ |
      ⟨-, hdata, io', ha, heq | ⟨-, heq⟩⟩ <;> rw [heq]
    · exact hs
    · exact hs
    · obtain ⟨hclosing, sent, owed, hc, hq⟩ := hallocates io' ha
      refine ⟨hclosing, sent, owed, hc.congr rfl ?_ rfl rfl rfl rfl rfl rfl rfl rfl rfl rfl rfl
        fun _ h => h, hq⟩
      intro m hm
      rcases List.mem_append.1 hm with h | h
      · exact Or.inl h
      · rw [List.mem_singleton.1 h]
        exact Or.inr ⟨hdata, Or.inr ⟨rfl, rfl⟩⟩
    · exact hallocates io' ha
  | queueClose code reason =>
    change OnCourse closing Q (eventQueueClose c code reason io).2
    rcases eventQueueClose_cases c code reason io with ⟨-, heq⟩ | ⟨-, -, heq⟩ |
      ⟨-, hshort, io', ha, heq | ⟨-, r, -, -, heq⟩⟩ <;> rw [heq]
    · exact hs
    · exact hs
    · obtain ⟨-, sent, owed, hc, hq⟩ := hallocates io' ha
      have hctrl : isCtrlFrame connectionClose = true := by decide
      have hlow' : connectionClose.toNat < 16 := by decide
      have hm : (⟨1, connectionClose, .nonFragmented, closeBody code reason, []⟩ :
          EventOmsg).FitCtrl := ⟨rfl, rfl, hctrl, length_closeBody code hshort⟩
      have hdef : c.withClose code reason = { c with
          sendCtrlQueue := c.sendCtrlQueue ++
            [⟨1, connectionClose, .nonFragmented, closeBody code reason, []⟩],
          queuedMsgCount := c.queuedMsgCount + 1,
          queuedMsgLength := c.queuedMsgLength + (closeBody code reason).length,
          closeStatus := { c.closeStatus with queued := true } } := by
        unfold EventContext.withClose EventContext.withMsg
        simp only [if_pos hctrl]
      rw [hdef]
      exact ⟨fun _ => rfl, sent, owed, hc.enqueueCtrl hm hlow' _ _
        { c.closeStatus with queued := true } rfl (fun _ => Or.inr rfl) rfl rfl, hq⟩
    · exact hallocates io' ha
  | send =>
    change OnCourse closing Q (eventSend c io).2
    unfold eventSend
    cases hrun : Loop.run Wslay.sendPass (sendFuel c) (c, io) with
    | none => exact hs
    | some x =>
      refine Loop.run_inv (fun t ht => ?_) hs hrun
      rw [Step.all_iff]
      exact OnCourse.sendPass hQ ht
  | setError val =>
    obtain ⟨hclosing, sent, owed, hc, hq⟩ := hs
    exact ⟨hclosing, sent, owed, hc.congr rfl (fun _ => Or.inl) rfl rfl rfl rfl rfl rfl rfl rfl rfl
      rfl rfl fun _ h => h, hq⟩
  | shutdownRead =>
    obtain ⟨hclosing, sent, owed, hc, hq⟩ := hs
    exact ⟨hclosing, sent, owed, hc.congr rfl (fun _ => Or.inl) rfl rfl rfl rfl rfl rfl rfl rfl rfl
      rfl rfl fun _ h => h, hq⟩
  | shutdownWrite =>
    obtain ⟨hclosing, sent, owed, hc, hq⟩ := hs
    exact ⟨hclosing, sent, owed, ⟨hc.legit, hc.low, hc.apps, hc.wire, hc.complete, hc.only,
      hc.done, fun _ => rfl, fun h => by cases h⟩, hq⟩

/-- **The invariant survives every call of the event layer.** -/
theorem onCourse_kept {closing : Prop} {Q : List Frame → Prop} (hQ : Extends closing Q) :
    Kept AppCall.LowOpcode (OnCourse closing Q) where
  same := by
    intro s s' hss ⟨hclosing, sent, owed, hc, hq⟩
    have hcx := hss.context
    have hio := hss.io
    simp only [EventContext.sendHalf, Prod.mk.injEq] at hcx
    simp only [Io.sendHalf, Prod.mk.injEq] at hio
    obtain ⟨hserver, hqueued, hsent, hwrite, -, hframe, homsg, hqueue, hctrl, -, -, hobuf, hmark,
      hlen, hoff⟩ := hcx
    refine ⟨fun h => hqueued.trans (hclosing h), sent, owed, hc.congr hctrl ?_ hserver hsent hqueued
      hwrite hframe homsg hobuf hmark hlen hoff hio.2.2.1 hss.apps, hq⟩
    intro m hm
    rw [hqueue] at hm
    exact Or.inl hm
  call := fun ha hs => OnCourse.appCall hQ hs ha
  apps := fun hs calls hcalls a ha => by
    obtain ⟨-, sent, owed, hc, -⟩ := hs
    exact hc.apps calls hcalls a ha
  pong := fun _ => by
    change pong.toNat < 16
    decide
  close := fun _ _ => trivial

/-! ## A queued Close stays ahead -/

/-- What is ahead is in the control queue or in hand. -/
theorem Holds.closeAhead_iff {c : EventContext} {h : Hand} (hh : Holds c h) :
    CloseAhead c ↔ (∃ m ∈ c.sendCtrlQueue, m.opcode = connectionClose) ∨ h.IsClose := by
  have hhand : (∃ m, m.opcode = connectionClose ∧ c.omsg = some m) ↔ h.IsClose := by
    -- a message in several frames is no control message
    have hdata : ∀ m : EventOmsg, isCtrlFrame m.opcode = false → m.opcode ≠ connectionClose := by
      intro m hm hclose
      rw [hclose] at hm
      cases hm
    cases hh with
    | empty homsg => simp [homsg, Hand.IsClose]
    | start m homsg => simp [homsg, Hand.IsClose]
    | between m homsg _ _ hm => simpa [homsg, Hand.IsClose] using hdata m hm
    | whole m _ homsg => simp [homsg, Hand.IsClose]
    | fragment m _ homsg _ _ hm => simpa [homsg, Hand.IsClose] using hdata m hm
  rw [← hhand]
  unfold CloseAhead
  simp only [and_or_left, exists_or]
  exact or_congr (exists_congr fun m => And.comm) Iff.rfl

/-- While writing is enabled, a queued Close is still to come. -/
def StaysAhead (s : EventContext × Io) : Prop :=
  s.1.writeEnabled = true → s.1.closeStatus.queued = true → CloseAhead s.1

/-- **A pass leaves a queued Close ahead**, as long as sending goes on. -/
theorem Accounted.staysAhead {s : EventContext × Io} (ha : Accounted s) (hs : StaysAhead s) :
    StaysAhead (sendPass s).state := by
  obtain ⟨c, io⟩ := s
  by_cases hlive : c.writeEnabled = true
  · obtain ⟨sent, owed, data, ctrl, hacc⟩ := ha
    obtain ⟨h, hh, hsettled, hfit, -⟩ := hacc.live hlive
    have hahead : c.closeStatus.queued = true →
        (∃ m ∈ c.sendCtrlQueue, m.opcode = connectionClose) ∨ h.IsClose :=
      fun hq => hh.closeAhead_iff.1 (hs hlive hq)
    rcases sendPass_spec hh hfit hlive io with
      ⟨c₁, io₁, h₁, begun, h', hch, hsends⟩ | ⟨r, t, heq, hstop⟩
    · intro hlive' hq'
      obtain ⟨-, hh', -⟩ := hsends.after.alive hlive'
      exact hh'.closeAhead_iff.2 (hsends.ahead hch hsettled hh.owes hahead hlive' hq')
    · rw [heq]
      cases hstop with
      | idle => exact hs
      | noClose io' hpre hclosing hno =>
        exfalso
        rcases hahead hclosing with ⟨m, hm, hclose⟩ | hcl
        · exact hno m hm hclose
        · obtain ⟨m, rest, rfl, -⟩ := hsettled.close hcl
          exact hpre
      | noMem => exact fun hlive' => (by cases hlive')
  · rw [show sendPass (c, io) = .leave 0 (c, io) by unfold sendPass eventWantWrite; simp [hlive]]
    exact hs

theorem StaysAhead.withMsg {c : EventContext} {io : Io} (hs : StaysAhead (c, io)) (arg : EventMsg)
    (io' : Io) : StaysAhead (c.withMsg arg, io') := by
  unfold EventContext.withMsg
  intro hlive hq
  dsimp only at hlive hq ⊢
  split_ifs at hlive hq ⊢ <;> obtain ⟨m, hm, hwhere⟩ := hs hlive hq
  · exact ⟨m, hm, hwhere.imp (List.mem_append_left _) id⟩
  · exact ⟨m, hm, hwhere⟩

/-- **Every call of the event layer leaves a queued Close ahead**, beside the account. -/
theorem staysAhead_kept : Kept (fun _ => True) fun s => Accounted s ∧ StaysAhead s where
  same := by
    rintro s s' hss ⟨ha, hs⟩
    refine ⟨accounted_kept.same hss ha, ?_⟩
    have hc := hss.context
    simp only [EventContext.sendHalf, Prod.mk.injEq] at hc
    obtain ⟨-, hqueued, -, hwrite, -, -, homsg, -, hctrl, -⟩ := hc
    unfold StaysAhead CloseAhead
    rw [hqueued, hwrite, homsg, hctrl]
    exact hs
  call := by
    rintro c io a - ⟨ha, hs⟩
    refine ⟨ha.appCall a, ?_⟩
    cases a with
    | queueMsg arg =>
      change StaysAhead (eventQueueMsg c arg io).2
      rcases eventQueueMsg_cases c arg io with ⟨-, heq⟩ | ⟨-, -, -, heq⟩ |
        ⟨-, -, io', -, heq | ⟨-, r, -, -, heq⟩⟩ <;> rw [heq]
      · exact hs
      · exact hs
      · exact hs.withMsg arg _
      · exact hs
    | queueFragmentedMsg arg =>
      change StaysAhead (eventQueueFragmentedMsg c arg io).2
      rcases eventQueueFragmentedMsg_cases c arg io with ⟨-, heq⟩ | ⟨-, -, heq⟩ |
        ⟨-, -, io', -, heq | ⟨-, heq⟩⟩ <;> rw [heq] <;> exact hs
    | queueClose code reason =>
      change StaysAhead (eventQueueClose c code reason io).2
      rcases eventQueueClose_cases c code reason io with ⟨-, heq⟩ | ⟨-, -, heq⟩ |
        ⟨-, -, io', -, heq | ⟨-, r, -, -, heq⟩⟩ <;> rw [heq]
      · exact hs
      · exact hs
      · refine fun _ _ => ⟨⟨1, connectionClose, .nonFragmented, closeBody code reason, []⟩, rfl,
          Or.inl ?_⟩
        have hctrl : isCtrlFrame connectionClose = true := by decide
        simp [EventContext.withClose, EventContext.withMsg, hctrl]
      · exact hs
    | send =>
      change StaysAhead (eventSend c io).2
      unfold eventSend
      cases hrun : Loop.run Wslay.sendPass (sendFuel c) (c, io) with
      | none => exact hs
      | some x =>
        refine (Loop.run_inv (P := fun t => Accounted t ∧ StaysAhead t) (fun t ht => ?_)
          ⟨ha, hs⟩ hrun).2
        rw [Step.all_iff]
        obtain ⟨sent, owed, data, ctrl, hacc⟩ := ht.1
        exact ⟨hacc.sendPass, ht.1.staysAhead ht.2⟩
    | setError val => exact hs
    | shutdownRead => exact hs
    | shutdownWrite => exact fun hlive => (by cases hlive)
  apps := fun _ _ _ _ _ => trivial
  pong := fun _ => trivial
  close := fun _ _ => trivial

/-! ## Silence -/

/-- Writing is shut down, and the history of sending is this. -/
def Silent (wire : List UInt8) (offers : List Offer) (s : EventContext × Io) : Prop :=
  s.1.writeEnabled = false ∧ s.2.wire = wire ∧ s.2.offers = offers

/-- **A sender that is shut down is silent for ever**: no call passes anything to
`send_callback`. -/
theorem silent_kept (wire : List UInt8) (offers : List Offer) :
    Kept (fun _ => True) (Silent wire offers) where
  same := by
    intro s s' hss ⟨h1, h2, h3⟩
    have hc := hss.context
    have hio := hss.io
    simp only [EventContext.sendHalf, Prod.mk.injEq] at hc
    simp only [Io.sendHalf, Prod.mk.injEq] at hio
    exact ⟨hc.2.2.2.1.trans h1, hio.2.2.1.trans h2, hio.2.2.2.1.trans h3⟩
  call := by
    intro c io a _ hs
    have hshut : c.writeEnabled = false := hs.1
    have hrefused : eventIsMsgQueueable c = false := by
      rw [eventIsMsgQueueable, hshut]
      rfl
    cases a with
    | queueMsg arg =>
      change Silent wire offers (eventQueueMsg c arg io).2
      rw [eventQueueMsg, hrefused]
      exact hs
    | queueFragmentedMsg arg =>
      change Silent wire offers (eventQueueFragmentedMsg c arg io).2
      rw [eventQueueFragmentedMsg, hrefused]
      exact hs
    | queueClose code reason =>
      change Silent wire offers (eventQueueClose c code reason io).2
      rw [eventQueueClose, hrefused]
      exact hs
    | send =>
      change Silent wire offers (eventSend c io).2
      unfold eventSend
      cases hrun : Loop.run sendPass (sendFuel c) (c, io) with
      | none => exact hs
      | some x =>
        refine Loop.run_inv (fun t ht => ?_) hs hrun
        have hstay : sendPass t = .leave 0 t := by
          unfold sendPass eventWantWrite
          simp [ht.1]
        rw [hstay]
        exact ht
    | setError val => exact hs
    | shutdownRead => exact hs
    | shutdownWrite => exact ⟨rfl, hs.2⟩
  apps := fun _ _ _ _ _ => trivial
  pong := fun _ => trivial
  close := fun _ _ => trivial

/-! ## The result -/

/-- A pass from here takes a message off the control queue, and finds none. -/
def PopsNull (t : EventContext × Io) : Prop :=
  eventWantWrite t.1 = true ∧ t.1.sendCtrlQueue ≠ [] ∧
    (t.1.omsg = none ∨ ∃ m, t.1.omsg = some m ∧ isCtrlFrame m.opcode = false ∧
      t.1.frameCtx.ostate = .prepHeader) ∧
    (eventSendCtrlQueuePop t.1 t.2).1 = none

/-- `wslay_event_send_ctrl_queue_pop` never returns `NULL`. -/
theorem Course.not_popsNull {t : EventContext × Io} {sent : List Frame} {owed : List UInt8}
    (hc : Course t sent owed) : ¬ PopsNull t := by
  rintro ⟨hwant, hne, hboundary, hpop⟩
  have hlive : t.1.writeEnabled = true := by
    simp only [eventWantWrite, Bool.and_eq_true] at hwant
    exact hwant.1
  obtain ⟨h, hh, hsettled, -, -, -, hahead⟩ := hc.live hlive
  rcases eventSendCtrlQueuePop_spec hne t.2 with ⟨dropped, m, rest, -, heq⟩ | ⟨hq, hno, -⟩
  · rw [heq] at hpop
    cases hpop
  · rcases hahead hq with ⟨m, hm, hclose⟩ | hcl
    · exact hno m hm hclose
    · -- a Close in hand is neither absent nor a data message between frames
      obtain ⟨m, rest, rfl, hclose⟩ := hsettled.close hcl
      rcases hboundary with hnone | ⟨m', homsg, hdata, hstate⟩
      · have := hh.omsg_eq_none.1 hnone
        cases this
      · exact (hh.preemptible homsg).1.1 ⟨hdata, hstate⟩

theorem Course.closeAhead {s : EventContext × Io} {sent : List Frame} {owed : List UInt8}
    (hc : Course s sent owed) (hlive : s.1.writeEnabled = true)
    (hq : s.1.closeStatus.queued = true) : CloseAhead s.1 := by
  obtain ⟨h, hh, hsettled, -, -, -, hahead⟩ := hc.live hlive
  rcases hahead hq with ⟨m, hm, hclose⟩ | hcl
  · exact ⟨m, hclose, Or.inl hm⟩
  · obtain ⟨m, rest, rfl, hclose⟩ := hsettled.close hcl
    cases hh with
    | whole _ _ homsg => exact ⟨m, hclose, Or.inr homsg⟩

theorem course_configured (server : Bool) (callbacks : EventCallbacks) (noBuffering : Bool)
    (maxRecvMsgLength : Nat) {io : Io} (hio : io.Fresh)
    (happs : ∀ calls ∈ io.apps, ∀ a ∈ calls, a.LowOpcode) :
    Course (configured server callbacks noBuffering maxRecvMsgLength, io) [] [] := by
  refine ⟨fun f hf => (by cases hf), by simp [configured, eventConfigSetMaxRecvMsgLength,
    eventConfigSetNoBuffering, freshContext], happs, by simp [hio.wire], by simp, by simp, ?_, ?_,
    fun _ => ?_⟩
  · rintro ⟨f, hf, -⟩
    cases hf
  · intro h
    cases h
  · refine ⟨.empty, .empty rfl rfl rfl rfl, trivial, ⟨?_, ?_, fun _ => rfl⟩, rfl, ?_, ?_⟩
    · simp [configured, eventConfigSetMaxRecvMsgLength, eventConfigSetNoBuffering, freshContext]
    · simp [configured, eventConfigSetMaxRecvMsgLength, eventConfigSetNoBuffering, freshContext]
    · refine ⟨?_, fun h => h.elim⟩
      rintro ⟨f, hf, -⟩
      cases hf
    · intro h
      cases h

/-- A Close that `wslay_event_queue_close` has accepted raises the flag. -/
theorem queueClose_queued (s : EventContext × Io) {code : UInt16} {reason : List UInt8}
    (hok : (step s (.call (.queueClose code reason))).1 = 0) :
    (step s (.call (.queueClose code reason))).2.1.closeStatus.queued = true := by
  change (eventQueueClose s.1 code reason s.2).1 = 0 at hok
  change (eventQueueClose s.1 code reason s.2).2.1.closeStatus.queued = true
  rcases eventQueueClose_cases s.1 code reason s.2 with
    ⟨-, heq⟩ | ⟨-, -, heq⟩ | ⟨-, -, io', -, heq | ⟨-, r, hr, -, heq⟩⟩
  · rw [heq] at hok
    cases hok
  · rw [heq] at hok
    cases hok
  · rw [heq]
    rfl
  · rw [heq] at hok
    exact absurd hok hr

/-- A state `s` from which the Close is next and last: which frames have been begun,
and what any calls from here on can add. -/
structure CloseIsNextAndLast (s : EventContext × Io) : Prop where
  /-- No frame is begun behind a Close, and a complete Close is noted and ends
  sending.  While writing is enabled, what is owed of the last frame is what the code has
  still to send of it. -/
  last : ∃ sent owed, (∀ f ∈ sent, f.Legit s.1.server) ∧
    s.2.wire ++ owed = sent.flatMap Frame.encode ∧
    (s.1.writeEnabled = true → owed = s.1.owed) ∧
    sent.dropLast.flatMap Frame.encode <+: s.2.wire ∧ (∀ f ∈ sent.dropLast, ¬ f.IsClose) ∧
    (LastIsClose sent → owed = [] →
      s.1.closeStatus.sent = true ∧ s.1.writeEnabled = false) ∧
    -- once a Close is queued, the next frame is one
    (s.1.closeStatus.queued = true → s.1.writeEnabled = true →
      ∀ ops, (∀ a, .call a ∈ ops → a.LowOpcode) → ∃ more,
        (more = [] ∨ ∃ f, more = [f] ∧ f.Legit s.1.server ∧ f.IsClose ∧ ¬ LastIsClose sent) ∧
        (runOps s ops).2.wire <+: (sent ++ more).flatMap Frame.encode)
  ahead : s.1.closeStatus.queued = true → s.1.writeEnabled = true → CloseAhead s.1
  silent : s.1.writeEnabled = false → ∀ ops, (runOps s ops).2.wire = s.2.wire ∧
    (runOps s ops).2.offers = s.2.offers

/-- **The Close is next and last on the wire**, in every run. -/
theorem close_next_and_last (server : Bool) (callbacks : EventCallbacks) (noBuffering : Bool)
    (maxRecvMsgLength : Nat) {io : Io} (hio : io.Fresh)
    (happs : ∀ calls ∈ io.apps, ∀ a ∈ calls, a.LowOpcode) {ops : List Op}
    (hops : ∀ a, .call a ∈ ops → a.LowOpcode) :
    CloseIsNextAndLast
        (runOps (configured server callbacks noBuffering maxRecvMsgLength, io) ops) ∧
      (∀ t, SendsFrom (configured server callbacks noBuffering maxRecvMsgLength, io) ops t →
        ¬ PopsNull t) ∧
      ∀ before code reason after, ops = before ++ .call (.queueClose code reason) :: after →
        (step (runOps (configured server callbacks noBuffering maxRecvMsgLength, io) before)
          (.call (.queueClose code reason))).1 = 0 →
        (runOps (configured server callbacks noBuffering maxRecvMsgLength, io)
          ops).1.closeStatus.queued = true := by
  obtain ⟨start, hstart⟩ : ∃ start,
      (configured server callbacks noBuffering maxRecvMsgLength, io) = start := ⟨_, rfl⟩
  have hfresh : OnCourse False (fun _ => True) start :=
    ⟨fun h => h.elim, [], [], hstart ▸ course_configured server callbacks noBuffering
      maxRecvMsgLength hio happs, trivial⟩
  have hany : Extends False fun _ => True := fun _ _ _ _ => trivial
  have hrun : ∀ ops', (∀ a, .call a ∈ ops' → a.LowOpcode) →
      OnCourse False (fun _ => True) (runOps start ops') :=
    fun ops' hops' => (onCourse_kept hany).runOps hfresh hops'
  rw [hstart]
  refine ⟨?_, ?_, ?_⟩
  · obtain ⟨s, hs⟩ : ∃ s, runOps start ops = s := ⟨_, rfl⟩
    obtain ⟨-, sent, owed, hc, -⟩ := hrun ops hops
    rw [hs] at hc ⊢
    refine ⟨⟨sent, owed, hc.legit, hc.wire, ?_, hc.complete, hc.only, ?_, ?_⟩, fun hq hlive =>
      hc.closeAhead hlive hq, ?_⟩
    · intro hlive
      obtain ⟨h, hh, -, -, rfl, -⟩ := hc.live hlive
      exact hh.owed_eq.symm
    · exact fun hl howed => ⟨hc.done hl howed, hc.shut (hc.done hl howed)⟩
    · intro hq _ ops' hops'
      have hQ : Extends True fun fs => fs = sent ∨
          ∃ f, fs = sent ++ [f] ∧ f.IsClose ∧ ¬ LastIsClose sent := by
        rintro fs f (rfl | ⟨g, rfl, hg, -⟩) hf
        · exact Or.inr ⟨f, rfl, hf trivial⟩
        · exact absurd ((lastIsClose_append sent g).2 hg) (hf trivial).2
      obtain ⟨-, fs, owed', hc', hfs⟩ := (onCourse_kept hQ).runOps
        (⟨fun _ => hq, sent, owed, hc, Or.inl rfl⟩ : OnCourse True _ s) hops'
      rcases hfs with rfl | ⟨f, rfl, hf⟩
      · exact ⟨[], Or.inl rfl, by rw [List.append_nil]; exact ⟨owed', hc'.wire⟩⟩
      · have hlegit := hc'.legit f (List.mem_append_right _ (List.mem_singleton_self f))
        rw [runOps_server] at hlegit
        exact ⟨[f], Or.inr ⟨f, rfl, hlegit, hf⟩, owed', hc'.wire⟩
    · intro hshut ops'
      exact ((silent_kept s.2.wire s.2.offers).runOps ⟨hshut, rfl, rfl⟩ fun _ _ => trivial).2
  · rintro t ⟨before, hbefore, ht⟩
    have hlow : ∀ a, .call a ∈ before → a.LowOpcode := fun a ha =>
      hops a (hbefore.subset (List.mem_append_left _ ha))
    obtain ⟨-, sent, owed, hc, -⟩ := ht.inv (P := OnCourse False fun _ => True)
      (fun s s' hs heq => by
        have := OnCourse.sendPass hany hs
        rwa [heq] at this) (hrun before hlow)
    exact hc.not_popsNull
  · rintro before code reason after rfl hok
    have hlow : ∀ op ∈ .call (.queueClose code reason) :: after, ∀ a, op = .call a →
        a.LowOpcode := by
      rintro op hop a rfl
      exact hops a (List.mem_append_right _ hop)
    obtain ⟨-, sent, owed, hc, -⟩ := hrun (before ++ [.call (.queueClose code reason)])
      fun a ha => hops a (by
        rw [List.append_cons]
        exact List.mem_append_left _ ha)
    rw [runOps_append] at hc
    have hany' : Extends True fun _ => True := fun _ _ _ _ => trivial
    have hqueued := queueClose_queued (runOps start before) hok
    have hkept := (onCourse_kept hany').runOps
      (⟨fun _ => hqueued, sent, owed, hc, trivial⟩ : OnCourse True _ _)
      fun a ha => hlow _ (List.mem_cons_of_mem _ ha) a rfl
    rw [List.append_cons, runOps_append, runOps_append]
    exact hkept.1 trivial

/-- A Ping is half sent when a Close is queued behind it. -/
def closedCalls : List Op :=
  [.call (.queueMsg ⟨ping, [1, 2]⟩), .call .send, .call (.queueClose 1000 []), .call .send]

/-- A callback that takes one octet of a header, and afterwards takes everything. -/
def closedIo : Io := { sends := .accept 1 :: List.replicate 8 (.accept 100) }

theorem close_next_and_last_closed :
    CloseIsNextAndLast
        (runOps (configured true ⟨false, false, false, false⟩ false 100, closedIo) closedCalls) ∧
      (∀ t, SendsFrom (configured true ⟨false, false, false, false⟩ false 100, closedIo)
        closedCalls t → ¬ PopsNull t) ∧
      ∀ before code reason after,
        closedCalls = before ++ .call (.queueClose code reason) :: after →
        (step (runOps (configured true ⟨false, false, false, false⟩ false 100, closedIo) before)
          (.call (.queueClose code reason))).1 = 0 →
        (runOps (configured true ⟨false, false, false, false⟩ false 100, closedIo)
          closedCalls).1.closeStatus.queued = true :=
  close_next_and_last true ⟨false, false, false, false⟩ false 100
    ⟨rfl, rfl, rfl, rfl, rfl, rfl⟩ (by simp [closedIo])
    (by simp [closedCalls, AppCall.LowOpcode, ping])

/-- The Ping is finished, and then comes the Close. -/
example : (runOps (configured true ⟨false, false, false, false⟩ false 100, closedIo)
    closedCalls).2.wire = [0x89, 2, 1, 2, 0x88, 2, 0x03, 0xe8] := by
  decide +kernel

end Wslay
