import Wslay.Event.Sending
import Wslay.Frame.Halves

/-!
# The loop of `wslay_event_send`

* `eventSend_isSome` — the loop ends.  Every pass that goes round has finished
  a message, or has used up one result of a `read_callback`, or has emptied the
  output buffer; a message that is preempted goes back to its queue without
  having cost anything.
* `sendPass_spec` — what one pass does with what is in hand and in the queues.
-/

namespace Wslay

open Loop (Step)

/-- The frames that the messages of the sender may still need. -/
def EventContext.workLeft (c : EventContext) : Nat :=
  ((c.omsg.toList ++ c.sendQueue ++ c.sendCtrlQueue).map omsgFuel).sum +
    if c.obufmark = c.obuf.length then 0 else 1

theorem workLeft_lt_sendFuel (c : EventContext) : c.workLeft < sendFuel c := by
  unfold EventContext.workLeft sendFuel
  split_ifs <;> omega

theorem workLeft_pick (c : EventContext) (m : EventOmsg) :
    (c.pick m).workLeft = { c with omsg := some m }.workLeft := by
  unfold EventContext.pick
  split_ifs <;> rfl

/-- Choosing a message costs nothing. -/
theorem sendPick_workLeft {c c' : EventContext} {io io' : Io}
    (h : sendPick c io = .again (c', io')) : c'.workLeft ≤ c.workLeft := by
  have hpop : ∀ (c : EventContext) (io : Io) (m c' io'), c.sendCtrlQueue ≠ [] →
      eventSendCtrlQueuePop c io = (some m, c', io') →
      (c'.pick m).workLeft ≤ { c with omsg := some m }.workLeft - omsgFuel m := by
    intro c io m c' io' hne heq
    rw [workLeft_pick]
    rcases eventSendCtrlQueuePop_spec hne io with ⟨dropped, m', rest, hpop, heq'⟩ | ⟨-, -, heq'⟩
    · rw [heq'] at heq
      cases heq
      simp only [EventContext.workLeft, hpop.1]
      simp
      omega
    · rw [heq'] at heq
      cases heq
  unfold sendPick at h
  cases homsg : c.omsg with
  | none =>
    rw [homsg] at h
    simp only at h
    by_cases hctrl : c.sendCtrlQueue = []
    · rw [if_pos hctrl] at h
      cases hqueue : c.sendQueue with
      | nil =>
        rw [hqueue] at h
        cases h
      | cons m ms =>
        rw [hqueue] at h
        have hc' : c' = { c with sendQueue := ms, omsg := some m }.pick m := by
          unfold EventContext.pick
          simp only at h ⊢
          split_ifs at h ⊢ <;> cases h <;> rfl
        rw [hc', workLeft_pick]
        simp [EventContext.workLeft, homsg, hqueue]
    · rw [if_neg hctrl] at h
      obtain ⟨found, c₁, io₁, heq⟩ : ∃ found c₁ io₁, eventSendCtrlQueuePop c io = (found, c₁, io₁) :=
        ⟨_, _, _, rfl⟩
      rw [heq] at h
      cases found with
      | none => cases h
      | some m =>
        have hle := hpop c io m c₁ io₁ hctrl heq
        have hc' : c' = c₁.pick m := by
          unfold EventContext.pick
          simp only at h ⊢
          split_ifs at h ⊢ <;> cases h <;> rfl
        rw [← hc'] at hle
        refine Nat.le_trans hle ?_
        simp [EventContext.workLeft, homsg]
        omega
  | some m =>
    rw [homsg] at h
    simp only at h
    split_ifs at h with hcond
    · simp only [Bool.and_eq_true, decide_eq_true_eq] at hcond
      obtain ⟨ok, io₁, hm⟩ : ∃ ok io₁, io.malloc = (ok, io₁) := ⟨_, _, rfl⟩
      rw [hm] at h
      cases ok with
      | false => cases h
      | true =>
        simp only at h
        obtain ⟨found, c₁, io₂, heq⟩ : ∃ found c₁ io₂, eventSendCtrlQueuePop
            { c with sendQueue := m :: c.sendQueue, omsg := some m } io₁ = (found, c₁, io₂) :=
          ⟨_, _, _, rfl⟩
        rw [heq] at h
        cases found with
        | none => cases h
        | some m' =>
          have hle := hpop { c with sendQueue := m :: c.sendQueue, omsg := some m } io₁ m' c₁ io₂
            hcond.2 heq
          simp only at h
          cases h
          have hc' : (eventOnNonFragmentedMsgPopped c₁ m').workLeft = (c₁.pick m').workLeft := by
            rw [workLeft_pick]
            rfl
          rw [hc']
          refine Nat.le_trans hle ?_
          simp [EventContext.workLeft, homsg]
          omega
    · cases h
      exact Nat.le_refl _

/-- Sending a fragment to its end empties the output buffer. -/
theorem sendFragment_again {c c' : EventContext} {m : EventOmsg} {io io' : Io}
    (h : sendFragment c m io = .again (c', io')) :
    c'.sendQueue = c.sendQueue ∧ c'.sendCtrlQueue = c.sendCtrlQueue ∧ c'.obufmark = c'.obuf.length ∧
      (m.fin ≠ 0 ∧ c'.omsg = none ∨
        m.fin = 0 ∧ c'.omsg = some { m with opcode := continuationFrame }) := by
  unfold sendFragment at h
  obtain ⟨r, f, io₁, heq⟩ : ∃ r f io₁, frameSend c.frameCtx (fragmentIocb c m) io = (r, f, io₁) :=
    ⟨_, _, _, rfl⟩
  rw [heq] at h
  cases r with
  | error e =>
    simp only [sendFrameError] at h
    split_ifs at h
  | ok length =>
    simp only at h
    split_ifs at h with h1 h2
    · cases h
      exact ⟨rfl, rfl, rfl, Or.inl ⟨h2, rfl⟩⟩
    · cases h
      exact ⟨rfl, rfl, rfl, Or.inr ⟨not_not.1 h2, rfl⟩⟩

/-- Going round after the second part of a pass means that something was finished. -/
theorem sendOmsg_workLeft {c c' : EventContext} {io io' : Io}
    (h : sendOmsg (c, io) = .again (c', io')) : c'.workLeft < c.workLeft := by
  unfold sendOmsg at h
  cases homsg : c.omsg with
  | none =>
    rw [homsg] at h
    cases h
  | some m =>
    rw [homsg] at h
    simp only at h
    have hwork : c.workLeft = omsgFuel m + ((c.sendQueue ++ c.sendCtrlQueue).map omsgFuel).sum +
        if c.obufmark = c.obuf.length then 0 else 1 := by
      simp [EventContext.workLeft, homsg, Nat.add_assoc]
    have hone : 0 < omsgFuel m := Nat.succ_pos _
    cases htype : m.type with
    | nonFragmented =>
      rw [if_pos htype] at h
      unfold sendNonFragmented at h
      obtain ⟨r, f, io₁, heq⟩ : ∃ r f io₁, frameSend c.frameCtx (nonFragmentedIocb c m) io =
          (r, f, io₁) := ⟨_, _, _, rfl⟩
      rw [heq] at h
      cases r with
      | error e =>
        simp only [sendFrameError] at h
        split_ifs at h
      | ok length =>
        simp only at h
        split_ifs at h with hend
        · cases h
          rw [hwork]
          unfold finishNonFragmented
          split_ifs <;> simp [EventContext.workLeft, *]
    | fragmented =>
      rw [if_neg (by simp [htype])] at h
      unfold sendFragmented at h
      split_ifs at h with hcond
      · unfold readFragment at h
        cases hsource : m.source with
        | nil =>
          rw [hsource] at h
          cases h
        | cons r rs =>
          rw [hsource] at h
          cases r with
          | fail e => cases h
          | data bs eof fits =>
            by_cases hnil : bs = []
            · simp only [if_pos hnil] at h
              cases h
            · simp only [if_neg hnil, Step.andThen_again] at h
              have hfuel : omsgFuel m = rs.length + 2 := by
                rw [omsgFuel, hsource]
                rfl
              obtain ⟨hqueue, hctrl, hmark, homsg' | homsg'⟩ := sendFragment_again h
              · rw [hwork]
                simp only [EventContext.workLeft, hqueue, hctrl, homsg'.2, if_pos hmark]
                simp
                omega
              · rw [hwork]
                simp only [EventContext.workLeft, hqueue, hctrl, homsg'.2, if_pos hmark]
                simp [omsgFuel] at hfuel ⊢
                omega
      · obtain ⟨hqueue, hctrl, hmark, homsg' | homsg'⟩ := sendFragment_again h
        · rw [hwork]
          simp only [EventContext.workLeft, hqueue, hctrl, homsg'.2, if_pos hmark]
          simp
          omega
        · rw [hwork, if_neg fun h => hcond ⟨homsg'.1, h⟩]
          simp only [EventContext.workLeft, hqueue, hctrl, homsg'.2, if_pos hmark]
          simp [omsgFuel]

/-- Every pass that goes round leaves less to do. -/
theorem sendPass_workLeft {s s' : EventContext × Io} (h : sendPass s = .again s') :
    s'.1.workLeft < s.1.workLeft := by
  unfold sendPass at h
  split_ifs at h
  cases hp : sendPick s.1 s.2 with
  | leave r t =>
    rw [hp] at h
    cases h
  | again t =>
    rw [hp, Step.andThen_again] at h
    exact Nat.lt_of_lt_of_le (sendOmsg_workLeft h) (sendPick_workLeft hp)

/-- **The loop of `wslay_event_send` ends**, in every state and whatever the
callbacks do. -/
theorem eventSend_isSome (c : EventContext) (io : Io) :
    (Loop.run sendPass (sendFuel c) (c, io)).isSome :=
  Loop.run_isSome (P := fun _ => True) (μ := fun s => s.1.workLeft)
    (fun _ _ _ h => ⟨trivial, sendPass_workLeft h⟩) trivial (workLeft_lt_sendFuel c)

/-! ## One pass -/

/-- The first part of a pass with `h` in hand has left `h₁` in hand. -/
structure Chosen (c : EventContext) (io : Io) (h : Hand) (c₁ : EventContext) (io₁ : Io)
    (h₁ : Hand) : Prop where
  holds : Holds c₁ h₁
  fit : QueuesFit c₁
  server : c₁.server = c.server
  status : c₁.closeStatus = c.closeStatus
  write : c₁.writeEnabled = c.writeEnabled
  wire : io₁.wire = io.wire
  queued : io₁.queued = io.queued
  willing : io.Willing → io₁.Willing
  owed : h₁.owed = h.owed
  data : ∀ later, h₁.data (plans c₁.sendQueue later) = h.data (plans c.sendQueue later)
  ctrl : c.closeStatus.queued = false →
    h₁.ctrl ++ c₁.sendCtrlQueue.map EventOmsg.outline =
      h.ctrl ++ c.sendCtrlQueue.map EventOmsg.outline
  first : h₁.Preemptible → c.sendCtrlQueue = [] ∧ c₁.sendCtrlQueue = []
  close : c.closeStatus.queued = true → (∃ m ∈ c.sendCtrlQueue, m.opcode = connectionClose) →
    h.Preemptible ∧ h₁.IsClose ∨ h₁ = h ∧ ¬ h.Preemptible ∧ c₁.sendCtrlQueue = c.sendCtrlQueue
  stays : ¬ h.Preemptible → h₁ = h ∧ c₁.sendCtrlQueue = c.sendCtrlQueue
  origin : h₁ = h ∨ ∃ m, h₁ = .ofMsg m ∧ (m ∈ c.sendQueue ∨ m ∈ c.sendCtrlQueue)
  queue : ∀ m ∈ c₁.sendQueue, m ∈ c.sendQueue ∨ h.msg? = some m
  ctrlQueue : ∀ m ∈ c₁.sendCtrlQueue, m ∈ c.sendCtrlQueue

theorem ofMsg_ctrl {m : EventOmsg} (hm : m.FitCtrl) (later : List Outline) :
    Hand.ofMsg m = .start m ∧ (Hand.ofMsg m).data later = later ∧
      (Hand.ofMsg m).ctrl = [m.outline] := by
  have h : Hand.ofMsg m = .start m := if_pos hm.1
  rw [h]
  refine ⟨rfl, ?_, ?_⟩
  · rw [Hand.data, if_pos hm.2.2.1]
  · rw [Hand.ctrl, if_pos hm.2.2.1]

theorem ofMsg_data {m : EventOmsg} (hm : m.FitData) (later : List Outline) :
    (Hand.ofMsg m).data later = m.plan later ∧ (Hand.ofMsg m).ctrl = [] := by
  obtain ⟨hdata, ⟨htype, -⟩ | ⟨htype, -⟩⟩ := hm
  · have h : Hand.ofMsg m = .start m := if_pos htype
    rw [h, EventOmsg.plan, htype]
    simp [Hand.data, Hand.ctrl, hdata]
  · have h : Hand.ofMsg m = .between m := if_neg (by rw [htype]; simp)
    rw [h, EventOmsg.plan, htype]
    exact ⟨rfl, rfl⟩

@[simp] theorem ofMsg_owed (m : EventOmsg) : (Hand.ofMsg m).owed = [] := by
  unfold Hand.ofMsg
  split_ifs <;> rfl

@[simp] theorem ofMsg_msg (m : EventOmsg) : (Hand.ofMsg m).msg? = some m := by
  unfold Hand.ofMsg
  split_ifs <;> rfl

/-- What is preempted is fit for its queue, and loses nothing there. -/
theorem Holds.back {c : EventContext} {h : Hand} (hh : Holds c h) (hp : h.Preemptible) :
    (∀ m ∈ h.back, m.FitData ∧ h.msg? = some m) ∧ h.owed = [] ∧ h.ctrl = [] ∧
      ∀ later, h.data later = plans h.back later := by
  cases hh with
  | empty => simp [Hand.back, Hand.owed, Hand.ctrl, Hand.data, plans]
  | start m _ hfit =>
    have hdata : isCtrlFrame m.opcode = false := hp
    refine ⟨?_, rfl, by simp [Hand.ctrl, hdata], fun later => ?_⟩
    · intro m' hm'
      rw [List.mem_singleton.1 hm']
      exact ⟨⟨hdata, Or.inl ⟨hfit.1, hfit.2.1⟩⟩, rfl⟩
    · simp [Hand.data, Hand.back, plans, hdata, EventOmsg.plan, hfit.1]
  | between m _ htype hfin hdata =>
    refine ⟨?_, rfl, rfl, fun later => ?_⟩
    · intro m' hm'
      rw [List.mem_singleton.1 hm']
      exact ⟨⟨hdata, Or.inr ⟨htype, hfin⟩⟩, rfl⟩
    · simp [Hand.data, Hand.back, plans, EventOmsg.plan, htype]
  | whole => exact hp.elim
  | fragment => exact hp.elim

theorem pick_fields (c : EventContext) (m : EventOmsg) :
    (c.pick m).server = c.server ∧ (c.pick m).closeStatus = c.closeStatus ∧
      (c.pick m).writeEnabled = c.writeEnabled ∧ (c.pick m).sendQueue = c.sendQueue ∧
      (c.pick m).sendCtrlQueue = c.sendCtrlQueue ∧ (c.pick m).frameCtx = c.frameCtx := by
  unfold EventContext.pick
  split_ifs <;> exact ⟨rfl, rfl, rfl, rfl, rfl, rfl⟩

theorem release_allocates {io io' : Io} (ha : io.Allocates io') (ms : List EventOmsg) :
    (io'.release ms).wire = io.wire ∧ (io'.release ms).queued = io.queued ∧
      (io.Willing → (io'.release ms).Willing) := by
  rw [ha.eq]
  exact ⟨rfl, rfl, fun hw => ⟨hw.error, hw.sends, hw.masks⟩⟩

/-- What is in hand stays there. -/
theorem Chosen.keep {c : EventContext} {io : Io} {h : Hand} (hh : Holds c h) (hfit : QueuesFit c)
    (hfirst : h.Preemptible → c.sendCtrlQueue = []) : Chosen c io h c io h where
  holds := hh
  fit := hfit
  server := rfl
  status := rfl
  write := rfl
  wire := rfl
  queued := rfl
  willing := id
  owed := rfl
  data := fun _ => rfl
  ctrl := fun _ => rfl
  first := fun hp => ⟨hfirst hp, hfirst hp⟩
  close := fun _ ⟨m, hm, _⟩ => Or.inr ⟨rfl, fun hp => (by
    rw [hfirst hp] at hm
    cases hm), rfl⟩
  stays := fun _ => ⟨rfl, rfl⟩
  origin := Or.inl rfl
  queue := fun _ h => Or.inl h
  ctrlQueue := fun _ h => h

/-- The first data message of its queue is taken in hand. -/
theorem Chosen.takeData {c : EventContext} {io : Io} {m : EventOmsg} {ms : List EventOmsg}
    (hctrl : c.sendCtrlQueue = []) (hqueue : c.sendQueue = m :: ms) (hh : Holds c .empty)
    (hfit : QueuesFit c) :
    Chosen c io .empty ({ c with sendQueue := ms }.pick m) io (.ofMsg m) := by
  obtain ⟨hstate, hobuf, hmark⟩ := hh.atBoundary trivial
  have hfirst : m ∈ c.sendQueue := by
    rw [hqueue]
    exact List.mem_cons_self ..
  have hm : m.FitData := hfit.data m hfirst
  have hrest : ∀ m' ∈ ms, m' ∈ c.sendQueue := fun m' h => by
    rw [hqueue]
    exact List.mem_cons_of_mem _ h
  obtain ⟨hs, hst, hw, hq, hc, hf⟩ := pick_fields { c with sendQueue := ms } m
  exact
    { holds := holds_pick (c := { c with sendQueue := ms }) hstate hobuf hmark (Or.inr hm)
      fit :=
        { ctrl := by rw [hc]; exact hfit.ctrl
          data := by rw [hq]; exact fun m' h => hfit.data m' (hrest m' h)
          role := by rw [hs, hf]; exact hfit.role }
      server := hs, status := hst, write := hw, wire := rfl, queued := rfl, willing := id
      owed := ofMsg_owed m
      data := fun later => by
        rw [hq, (ofMsg_data hm _).1, hqueue]
        rfl
      ctrl := fun _ => by
        rw [hc, (ofMsg_data hm []).2]
        rfl
      first := fun _ => ⟨hctrl, hc.trans hctrl⟩
      close := fun _ ⟨m', hm', _⟩ => by
        rw [hctrl] at hm'
        cases hm'
      stays := fun h => absurd trivial h
      origin := Or.inr ⟨m, rfl, Or.inl hfirst⟩
      queue := fun m' h => by
        rw [hq] at h
        exact Or.inl (hrest m' h)
      ctrlQueue := fun m' h => by rwa [hc] at h }

/-- A control message is taken in hand, and what was there is put back. -/
theorem Chosen.takeCtrl {c : EventContext} {io io' : Io} {h : Hand} {dropped rest : List EventOmsg}
    {m : EventOmsg} (hpre : h.Preemptible) (hpop : PopsCtrl c dropped m rest)
    (ha : io.Allocates io') (hh : Holds c h) (hfit : QueuesFit c) :
    Chosen c io h ({ c with sendQueue := h.back ++ c.sendQueue, sendCtrlQueue := rest }.pick m)
      (io'.release dropped) (.ofMsg m) := by
  obtain ⟨hstate, hobuf, hmark⟩ := hh.atBoundary hpre
  obtain ⟨hback, howed, hnoctrl, hdata⟩ := hh.back hpre
  obtain ⟨hsplit, hcases⟩ := hpop
  have hmem : m ∈ c.sendCtrlQueue := by
    rw [hsplit]
    simp
  have hm := hfit.ctrl m hmem
  have hrest : ∀ m' ∈ rest, m' ∈ c.sendCtrlQueue := fun m' h => by
    rw [hsplit]
    simp [h]
  obtain ⟨hs, hst, hw, hq, hc, hf⟩ := pick_fields
    { c with sendQueue := h.back ++ c.sendQueue, sendCtrlQueue := rest } m
  obtain ⟨hwire, hqueued, hwill⟩ := release_allocates ha dropped
  exact
    { holds := holds_pick
        (c := { c with sendQueue := h.back ++ c.sendQueue, sendCtrlQueue := rest })
        hstate hobuf hmark (Or.inl hm)
      fit :=
        { ctrl := by rw [hc]; exact fun m' h => hfit.ctrl m' (hrest m' h)
          data := by
            rw [hq]
            intro m' hm'
            rcases List.mem_append.1 hm' with h | h
            · exact (hback m' h).1
            · exact hfit.data m' h
          role := by rw [hs, hf]; exact hfit.role }
      server := hs, status := hst, write := hw, wire := hwire, queued := hqueued, willing := hwill
      owed := (ofMsg_owed m).trans howed.symm
      data := fun later => by rw [hq, (ofMsg_ctrl hm _).2.1, plans_append, hdata]
      ctrl := fun hopen => by
        rcases hcases with ⟨-, rfl⟩ | ⟨hclosing, -⟩
        · rw [hc, (ofMsg_ctrl hm []).2.2, hnoctrl, hsplit]
          rfl
        · rw [hclosing] at hopen
          cases hopen
      first := fun hp => by
        rw [(ofMsg_ctrl hm []).1, Hand.Preemptible, hm.2.2.1] at hp
        cases hp
      close := fun hclosing _ => by
        rcases hcases with ⟨hopen, -⟩ | ⟨-, hclose, -⟩
        · rw [hclosing] at hopen
          cases hopen
        · refine Or.inl ⟨hpre, ?_⟩
          rw [(ofMsg_ctrl hm []).1]
          exact hclose
      stays := fun h => absurd hpre h
      origin := Or.inr ⟨m, rfl, Or.inr hmem⟩
      queue := fun m' hm' => by
        rw [hq] at hm'
        rcases List.mem_append.1 hm' with h | h
        · exact Or.inr (hback m' h).2
        · exact Or.inl h
      ctrlQueue := fun m' h => by
        rw [hc] at h
        exact hrest m' h }

/-- A choice of a message loses nothing. -/
theorem Picks.chosen {c c₁ : EventContext} {io io₁ : Io} {h : Hand}
    (hp : Picks c io h (.again (c₁, io₁))) (hh : Holds c h) (hfit : QueuesFit c) :
    ∃ h₁, Chosen c io h c₁ io₁ h₁ := by
  cases hp with
  | keep hne hfirst => exact ⟨h, .keep hh hfit hfirst⟩
  | data m ms hempty hctrl hqueue =>
    subst hempty
    exact ⟨.ofMsg m, .takeData hctrl hqueue hh hfit⟩
  | ctrl dropped m rest io' hpre hpop ha => exact ⟨.ofMsg m, .takeCtrl hpre hpop ha hh hfit⟩

/-- The ways in which a pass ends that has nothing to send. -/
inductive Stops (c : EventContext) (io : Io) (h : Hand) : Int → EventContext × Io → Prop
  /-- There is no message. -/
  | idle : h = .empty → c.sendCtrlQueue = [] → c.sendQueue = [] → Stops c io h 0 (c, io)
  /-- A Close should be in the queue, but none is. -/
  | noClose (io' : Io) : h.Preemptible → c.closeStatus.queued = true →
      (∀ m ∈ c.sendCtrlQueue, m.opcode ≠ connectionClose) → io.Allocates io' →
      Stops c io h 0 ({ c with
        omsg := none, sendQueue := h.back ++ c.sendQueue, sendCtrlQueue := [] },
        io'.release c.sendCtrlQueue)
  /-- There is no memory to put back what it had in hand. -/
  | noMem (io' : Io) : io.Allocates io' → ¬ io.MemOk →
      Stops c io h 1 ({ c with writeEnabled := false }, io')

/-- **One pass of `wslay_event_send`** stops, or chooses a message and sends
what it can of it. -/
theorem sendPass_spec {c : EventContext} {h : Hand} (hh : Holds c h) (hfit : QueuesFit c)
    (hlive : c.writeEnabled = true) (io : Io) :
    (∃ c₁ io₁ h₁ begun h', Chosen c io h c₁ io₁ h₁ ∧
      Sends c₁ io₁ h₁ (sendPass (c, io)) begun h') ∨
    ∃ r t, sendPass (c, io) = .leave r t ∧ Stops c io h r t := by
  unfold sendPass
  by_cases hwant : eventWantWrite c = true
  · rw [if_pos hwant]
    have hp := sendPick_spec hh hfit io
    obtain ⟨x, hx⟩ : ∃ x, sendPick c io = x := ⟨_, rfl⟩
    simp only [hx] at hp ⊢
    cases x with
    | again t =>
      obtain ⟨c₁, io₁⟩ := t
      obtain ⟨h₁, hchosen⟩ := hp.chosen hh hfit
      obtain ⟨begun, h', hsends⟩ := sendOmsg_spec hchosen.holds hchosen.fit.role io₁
      exact Or.inl ⟨c₁, io₁, h₁, begun, h', hchosen, hsends⟩
    | leave r t =>
      refine Or.inr ⟨r, t, rfl, ?_⟩
      cases hp with
      | idle hempty hctrl hqueue => exact .idle hempty hctrl hqueue
      | noClose io' hpre hclosing hno ha => exact .noClose io' hpre hclosing hno ha
      | noMem io' ha hmem => exact .noMem io' ha hmem
  · rw [if_neg hwant]
    refine Or.inr ⟨0, (c, io), rfl, ?_⟩
    simp only [eventWantWrite, hlive, Bool.true_and, Bool.or_eq_true, not_or, Bool.not_eq_true,
      Bool.not_eq_false', List.isEmpty_iff, Option.isSome_eq_false_iff, Option.isNone_iff_eq_none]
      at hwant
    exact .idle (hh.omsg_eq_none.1 hwant.2) hwant.1.2 hwant.1.1

/-! ## The receiving half -/

/-- The fields of the receiving half of a context, and those that both halves
only look at. -/
def EventContext.recvHalf (c : EventContext) :=
  (c.server, c.closeStatus.queued, c.sizeBits, c.noBuffering, c.maxRecvMsgLength,
    c.closeStatus.received, c.statusCodeRecv, c.frameCtx.recvHalf, c.readEnabled, c.imsgs0, c.imsgs1, c.imsg,
    c.ipayloadlen, c.ipayloadoff, c.callbacks)

theorem sendFrameError_recvHalf (e : Err) (c : EventContext) (io : Io) :
    (sendFrameError e c io).state.1.recvHalf = c.recvHalf ∧
      (sendFrameError e c io).state.2 = io := by
  unfold sendFrameError
  split_ifs <;> exact ⟨rfl, rfl⟩

theorem recvHalf_frameCtx (c : EventContext) {f : FrameContext}
    (hf : f.recvHalf = c.frameCtx.recvHalf) : { c with frameCtx := f }.recvHalf = c.recvHalf := by
  simp only [EventContext.recvHalf, hf]

theorem sendNonFragmented_recvHalf (c : EventContext) (m : EventOmsg) (io : Io) :
    (sendNonFragmented c m io).state.1.recvHalf = c.recvHalf ∧
      (sendNonFragmented c m io).state.2.recvHalf = io.recvHalf := by
  obtain ⟨hf, hio⟩ := frameRecvSame_frameSend c.frameCtx (nonFragmentedIocb c m) io
  unfold sendNonFragmented
  obtain ⟨r, f, io₁, heq⟩ : ∃ r f io₁, frameSend c.frameCtx (nonFragmentedIocb c m) io =
      (r, f, io₁) := ⟨_, _, _, rfl⟩
  rw [heq] at hf hio ⊢
  have hc := recvHalf_frameCtx c hf
  cases r with
  | error e =>
    obtain ⟨h1, h2⟩ := sendFrameError_recvHalf e { c with frameCtx := f } io₁
    exact ⟨h1.trans hc, by simp only; rw [h2]; exact hio⟩
  | ok n =>
    simp only
    unfold finishNonFragmented
    split_ifs <;> exact ⟨hc, hio⟩

theorem sendFragment_recvHalf (c : EventContext) (m : EventOmsg) (io : Io) :
    (sendFragment c m io).state.1.recvHalf = c.recvHalf ∧
      (sendFragment c m io).state.2.recvHalf = io.recvHalf := by
  obtain ⟨hf, hio⟩ := frameRecvSame_frameSend c.frameCtx (fragmentIocb c m) io
  unfold sendFragment
  obtain ⟨r, f, io₁, heq⟩ : ∃ r f io₁, frameSend c.frameCtx (fragmentIocb c m) io = (r, f, io₁) :=
    ⟨_, _, _, rfl⟩
  rw [heq] at hf hio ⊢
  have hc := recvHalf_frameCtx c hf
  cases r with
  | error e =>
    obtain ⟨h1, h2⟩ := sendFrameError_recvHalf e { c with frameCtx := f } io₁
    exact ⟨h1.trans hc, by simp only; rw [h2]; exact hio⟩
  | ok n =>
    simp only
    split_ifs <;> exact ⟨hc, hio⟩

/-- Sending what is in hand leaves the receiving half alone. -/
theorem sendOmsg_recvHalf (s : EventContext × Io) :
    (sendOmsg s).state.1.recvHalf = s.1.recvHalf ∧
      (sendOmsg s).state.2.recvHalf = s.2.recvHalf := by
  obtain ⟨c, io⟩ := s
  unfold sendOmsg
  cases homsg : c.omsg with
  | none => exact ⟨rfl, rfl⟩
  | some m =>
    simp only
    split_ifs
    · exact sendNonFragmented_recvHalf c m io
    · unfold sendFragmented
      split_ifs
      · unfold readFragment
        cases hsource : m.source with
        | nil => exact ⟨rfl, rfl⟩
        | cons r rs =>
          cases r with
          | fail e => exact ⟨rfl, rfl⟩
          | data bs eof fits =>
            simp only
            by_cases hnil : bs = []
            · rw [if_pos hnil]
              exact ⟨rfl, rfl⟩
            · rw [if_neg hnil, Step.andThen_again]
              exact sendFragment_recvHalf _ _ _
      · exact sendFragment_recvHalf c m io

/-- Choosing a message is nothing but allocations and releases to the world, and
nothing at all to the receiving half. -/
theorem sendPick_recvHalf (c : EventContext) (io : Io) :
    (sendPick c io).state.1.recvHalf = c.recvHalf ∧
      ∃ io' released, io.Allocates io' ∧ (sendPick c io).state.2 = io'.release released := by
  have hnone : io = io.release [] := by
    simp [Io.release]
  have hpop : ∀ (c : EventContext) (io : Io), (eventSendCtrlQueuePop c io).2.1.recvHalf = c.recvHalf ∧
      ∃ released, (eventSendCtrlQueuePop c io).2.2 = io.release released := by
    intro c io
    unfold eventSendCtrlQueuePop
    split_ifs
    · exact ⟨rfl, _, rfl⟩
    · exact ⟨rfl, [], by simp [Io.release]⟩
  unfold sendPick
  cases homsg : c.omsg with
  | none =>
    simp only
    by_cases hctrl : c.sendCtrlQueue = []
    · rw [if_pos hctrl]
      cases c.sendQueue with
      | nil => exact ⟨rfl, io, [], .refl io, hnone⟩
      | cons m ms =>
        simp only
        split_ifs <;> exact ⟨rfl, io, [], .refl io, hnone⟩
    · rw [if_neg hctrl]
      obtain ⟨hc, released, hio⟩ := hpop c io
      obtain ⟨found, c₁, io₁, heq⟩ : ∃ found c₁ io₁, eventSendCtrlQueuePop c io = (found, c₁, io₁) :=
        ⟨_, _, _, rfl⟩
      rw [heq] at hc hio ⊢
      cases found with
      | none => exact ⟨hc, io, released, .refl io, hio⟩
      | some m =>
        simp only
        split_ifs <;> exact ⟨hc, io, released, .refl io, hio⟩
  | some m =>
    simp only
    split_ifs
    · have hmal := io.malloc_allocates.1
      obtain ⟨ok, io₁, hm⟩ : ∃ ok io₁, io.malloc = (ok, io₁) := ⟨_, _, rfl⟩
      rw [hm] at hmal ⊢
      cases ok with
      | false => exact ⟨rfl, io₁, [], hmal, by simp [Io.release]⟩
      | true =>
        obtain ⟨hc, released, hio⟩ := hpop
          { c with sendQueue := m :: c.sendQueue, omsg := some m } io₁
        simp only
        obtain ⟨found, c₁, io₂, heq⟩ : ∃ found c₁ io₂, eventSendCtrlQueuePop
            { c with sendQueue := m :: c.sendQueue, omsg := some m } io₁ = (found, c₁, io₂) :=
          ⟨_, _, _, rfl⟩
        rw [heq] at hc hio ⊢
        have hc' : c₁.recvHalf = c.recvHalf := hc
        cases found with
        | none => exact ⟨hc', io₁, released, hmal, hio⟩
        | some m' => exact ⟨hc', io₁, released, hmal, hio⟩
    · exact ⟨rfl, io, [], .refl io, hnone⟩

/-- Nothing has happened to the receiving half. -/
structure RecvSame (s s' : EventContext × Io) : Prop where
  context : s'.1.recvHalf = s.1.recvHalf
  recvs : s'.2.recvs = s.2.recvs
  received : s'.2.received = s.2.received
  apps : s'.2.apps = s.2.apps
  calls : s'.2.calls = s.2.calls
  mem : s'.2.mem <:+ s.2.mem

theorem RecvSame.refl (s : EventContext × Io) : RecvSame s s :=
  ⟨rfl, rfl, rfl, rfl, rfl, List.suffix_rfl⟩

theorem RecvSame.trans {s s' s'' : EventContext × Io} (h : RecvSame s s') (h' : RecvSame s' s'') :
    RecvSame s s'' where
  context := h'.context.trans h.context
  recvs := h'.recvs.trans h.recvs
  received := h'.received.trans h.received
  apps := h'.apps.trans h.apps
  calls := h'.calls.trans h.calls
  mem := h'.mem.trans h.mem

/-- A pass leaves the receiving half alone, queues nothing, and takes back no
release. -/
theorem sendPass_recvSame (s : EventContext × Io) :
    RecvSame s (sendPass s).state ∧ (sendPass s).state.2.queued = s.2.queued ∧
      s.2.discarded <+: (sendPass s).state.2.discarded := by
  have hpick : RecvSame s (sendPick s.1 s.2).state ∧
      (sendPick s.1 s.2).state.2.queued = s.2.queued ∧
      s.2.discarded <+: (sendPick s.1 s.2).state.2.discarded := by
    obtain ⟨hc, io', released, ha, hio⟩ := sendPick_recvHalf s.1 s.2
    have hrest := ha.eq
    refine ⟨⟨hc, ?_, ?_, ?_, ?_, ?_⟩, ?_, ?_⟩
    · rw [hio, Io.release, hrest]
    · rw [hio, Io.release, hrest]
    · rw [hio, Io.release, hrest]
    · rw [hio, Io.release, hrest]
    · rw [hio]
      exact ha.mem
    · rw [hio, Io.release, hrest]
    · rw [hio, Io.release, hrest]
      exact List.prefix_append _ _
  unfold sendPass
  split_ifs
  · cases hp : sendPick s.1 s.2 with
    | leave r t =>
      rw [hp] at hpick
      exact hpick
    | again t =>
      rw [hp, Step.state_again] at hpick
      obtain ⟨hc, hio⟩ := sendOmsg_recvHalf t
      simp only [Io.recvHalf, Prod.mk.injEq] at hio
      obtain ⟨h1, h2, h3, h4, h5, h6, h7⟩ := hio
      rw [Step.andThen_again]
      exact ⟨hpick.1.trans ⟨hc, h1, h4, h3, h5, by rw [h2]⟩,
        h6.trans hpick.2.1, by rw [h7]; exact hpick.2.2⟩
  · exact ⟨.refl s, rfl, List.prefix_rfl⟩

/-- `wslay_event_send` leaves the receiving half alone, queues nothing, and takes
back no release. -/
theorem eventSend_recvSame (c : EventContext) (io : Io) :
    RecvSame (c, io) (eventSend c io).2 ∧ (eventSend c io).2.2.queued = io.queued ∧
      io.discarded <+: (eventSend c io).2.2.discarded := by
  obtain ⟨x, hx⟩ := Option.isSome_iff_exists.1 (eventSend_isSome c io)
  have hsend : eventSend c io = x := by rw [eventSend, hx]; rfl
  rw [hsend]
  refine Loop.run_inv (P := fun t => RecvSame (c, io) t ∧ t.2.queued = io.queued ∧
    io.discarded <+: t.2.discarded) (fun t ht => ?_) ⟨.refl _, rfl, List.prefix_rfl⟩ hx
  obtain ⟨h1, h2, h3⟩ := sendPass_recvSame t
  rw [Step.all_iff]
  exact ⟨ht.1.trans h1, h2.trans ht.2.1, ht.2.2.trans h3⟩

end Wslay
