import Wslay.Event.AfterClose
import Wslay.Event.Failures
import Wslay.Event.Tape

/-!
# A fatal error closes its direction for good

The loops have many exits with an error.  Each of them has disabled its own
direction first, and nothing in the library enables a direction again.

* `sendPass_exits`, `recvPass_exits` — the exits of the two loops.
* `Deaf`, `Mute` — a direction that is closed, as calls find it.
* `fatal_error_final` — the result for whole calls, and for whatever follows.
-/

namespace Wslay

open Loop (Step)
open Loop.Step (exits_again exits_leave)

/-! ## The exits of the loop of `wslay_event_send` -/

/-- A result other than 0 means that writing is over. -/
def ClosesWriting (r : Int) (s : EventContext × Io) : Prop := r ≠ 0 → s.1.writeEnabled = false

theorem ClosesWriting.zero (s : EventContext × Io) : ClosesWriting 0 s := by
  intro h
  exact absurd rfl h

theorem sendPick_exits (c : EventContext) (io : Io) : (sendPick c io).Exits ClosesWriting := by
  unfold sendPick
  cases c.omsg with
  | none =>
    simp only
    split_ifs
    · cases c.sendQueue with
      | nil => exact exits_leave (.zero _)
      | cons m ms =>
        simp only
        split_ifs <;> exact exits_again _ _
    · rcases eventSendCtrlQueuePop c io with ⟨_ | m, c', io'⟩
      · exact exits_leave (.zero _)
      · simp only
        split_ifs <;> exact exits_again _ _
  | some m =>
    simp only
    split_ifs
    · rcases io.malloc with ⟨_ | _, io₁⟩
      · exact exits_leave fun _ => rfl
      · simp only
        generalize eventSendCtrlQueuePop _ io₁ = popped
        rcases popped with ⟨_ | m', c', io'⟩
        · exact exits_leave (.zero _)
        · exact exits_again _ _
    · exact exits_again _ _

theorem sendFrameError_exits (e : Err) (c : EventContext) (io : Io) :
    (sendFrameError e c io).Exits ClosesWriting := by
  unfold sendFrameError
  split_ifs
  · exact exits_leave fun _ => rfl
  · exact exits_leave (.zero _)

theorem sendNonFragmented_exits (c : EventContext) (m : EventOmsg) (io : Io) :
    (sendNonFragmented c m io).Exits ClosesWriting := by
  unfold sendNonFragmented
  rcases frameSend c.frameCtx (nonFragmentedIocb c m) io with ⟨e | n, f, io'⟩
  · exact sendFrameError_exits _ _ _
  · simp only
    split_ifs
    · exact exits_again _ _
    · exact exits_leave (.zero _)

theorem sendFragment_exits (c : EventContext) (m : EventOmsg) (io : Io) :
    (sendFragment c m io).Exits ClosesWriting := by
  unfold sendFragment
  rcases frameSend c.frameCtx (fragmentIocb c m) io with ⟨e | n, f, io'⟩
  · exact sendFrameError_exits _ _ _
  · simp only
    split_ifs
    · exact exits_again _ _
    · exact exits_again _ _
    · exact exits_leave (.zero _)

theorem readFragment_exits (c : EventContext) (m : EventOmsg) (io : Io) :
    (readFragment c m io).Exits ClosesWriting := by
  unfold readFragment
  rcases m.source with _ | ⟨bs | e, rs⟩
  · exact exits_leave (.zero _)
  · by_cases hnil : bs = []
    · simp only [if_pos hnil]
      exact exits_leave (.zero _)
    · simp only [if_neg hnil]
      exact exits_again _ _
  · exact exits_leave fun _ => rfl

theorem sendOmsg_exits (s : EventContext × Io) : (sendOmsg s).Exits ClosesWriting := by
  unfold sendOmsg
  cases s.1.omsg with
  | none => exact exits_leave (.zero _)
  | some m =>
    simp only
    split_ifs
    · exact sendNonFragmented_exits _ _ _
    · unfold sendFragmented
      split_ifs
      · refine (readFragment_exits _ _ _).andThen fun t => ?_
        cases t.1.omsg with
        | none => exact exits_leave (.zero _)
        | some m' => exact sendFragment_exits _ _ _
      · exact sendFragment_exits _ _ _

/-- A pass that leaves the loop with an error leaves writing disabled. -/
theorem sendPass_exits (s : EventContext × Io) : (sendPass s).Exits ClosesWriting := by
  unfold sendPass
  split_ifs
  · exact (sendPick_exits _ _).andThen sendOmsg_exits
  · exact exits_leave (.zero _)

/-! ## Whole calls -/

theorem eventSend_exits (s : EventContext × Io) :
    ClosesWriting (eventSend s.1 s.2).1 (eventSend s.1 s.2).2 := by
  unfold eventSend
  cases hrun : Loop.run sendPass (sendFuel s.1) (s.1, s.2) with
  | none => exact .zero _
  | some x =>
    obtain ⟨t, -, hlast⟩ := Loop.run_leaves hrun
    exact sendPass_exits t _ _ hlast

theorem eventRecv_exits (s : EventContext × Io) (hr : (eventRecv s.1 s.2).1 ≠ 0) :
    (eventRecv s.1 s.2).2.1.readEnabled = false := by
  unfold eventRecv at hr ⊢
  cases hrun : Loop.run recvPass (recvFuel s.1 s.2) (s.1, s.2) with
  | none =>
    rw [hrun] at hr
    exact absurd rfl hr
  | some x =>
    rw [hrun] at hr
    obtain ⟨t, -, hlast⟩ := Loop.run_leaves hrun
    exact recvPass_exits t _ _ hlast hr

/-! ## A closed direction -/

/-- Reading is over: `wslay_event_recv` has nothing to do. -/
structure Deaf (s : EventContext × Io) : Prop where
  off : s.1.readEnabled = false
  recv : eventRecv s.1 s.2 = (0, s)

/-- Writing is over: `wslay_event_send` has nothing to do, and nothing can be
queued. -/
structure Mute (s : EventContext × Io) : Prop where
  off : s.1.writeEnabled = false
  send : eventSend s.1 s.2 = (0, s)
  refused : ∀ a : AppCall, a.Queues → (appCall s.1 s.2 a).1 ≠ 0 ∧ (appCall s.1 s.2 a).2 = s

theorem Deaf.of_off {s : EventContext × Io} (h : s.1.readEnabled = false) : Deaf s :=
  ⟨h, eventRecv_off h⟩

theorem Mute.of_off {s : EventContext × Io} (h : s.1.writeEnabled = false) : Mute s := by
  refine ⟨h, eventSend_of_shut h s.2, fun a ha => appCall_refused ?_ ha s.2⟩
  rw [eventIsMsgQueueable, h]
  rfl

/-- Nothing happens to the receiver any more once reading is over. -/
theorem spares_runOps {s : EventContext × Io} (hoff : s.1.readEnabled = false) (ops : List Op) :
    Spares s (runOps s ops) := by
  have hstep : ∀ t op, True → Spares s t → Spares s (step t op).2 := by
    intro t op _ ht
    have htoff : t.1.readEnabled = false := by
      cases he : t.1.readEnabled with
      | false => rfl
      | true => exact absurd (ht.enabled he) (by simp [hoff])
    cases op with
    | call a => exact ht.trans (appCall_spares t.1 t.2 a)
    | recv =>
      show Spares s (eventRecv t.1 t.2).2
      rw [eventRecv_off htoff]
      exact ht
  exact runOps_inv hstep (fun _ _ => trivial) (.refl s)

/-- **Nothing enables writing again**, neither a call of the application nor a
call of `wslay_event_recv`. -/
theorem writeDisabled_kept : Kept (fun _ => True) fun s => s.1.writeEnabled = false where
  same := by
    intro s s' hss hs
    have hc := hss.context
    simp only [EventContext.sendHalf, Prod.mk.injEq] at hc
    exact hc.2.2.2.1.trans hs
  call := by
    intro c io a _ hs
    have hmute : Mute (c, io) := .of_off hs
    by_cases ha : a.Queues
    · rw [(hmute.refused a ha).2]
      exact hs
    · cases a with
      | queueMsg arg => exact absurd trivial ha
      | queueFragmentedMsg arg => exact absurd trivial ha
      | queueClose code reason => exact absurd trivial ha
      | send =>
        show (eventSend c io).2.1.writeEnabled = false
        rw [hmute.send]
        exact hs
      | setError val => exact hs
      | shutdownRead => exact hs
      | shutdownWrite => rfl
  apps := fun _ _ _ _ _ => trivial
  pong := fun _ => trivial
  close := fun _ _ => trivial

/-- **A fatal error closes its direction for good.**  When `wslay_event_recv`
returns an error, reading is over: whatever is called afterwards, nothing happens
to the receiver, and every later call of `wslay_event_recv` returns 0 and changes
nothing.  When `wslay_event_send` returns an error, writing is over: wherever the
application makes a call afterwards, also from inside a receive callback,
`wslay_event_send` returns 0 and changes nothing, and no message can be queued. -/
theorem fatal_error_final (s : EventContext × Io) :
    ((eventRecv s.1 s.2).1 ≠ 0 →
      Deaf (eventRecv s.1 s.2).2 ∧ ∀ ops, Deaf (runOps (eventRecv s.1 s.2).2 ops) ∧
        Spares (eventRecv s.1 s.2).2 (runOps (eventRecv s.1 s.2).2 ops)) ∧
    ((eventSend s.1 s.2).1 ≠ 0 →
      Mute (eventSend s.1 s.2).2 ∧ (∀ t, Visits (eventSend s.1 s.2).2 t → Mute t) ∧
        ∀ ops, Visits (eventSend s.1 s.2).2 (runOps (eventSend s.1 s.2).2 ops)) := by
  constructor
  · intro hr
    have hoff := eventRecv_exits s hr
    refine ⟨.of_off hoff, fun ops => ?_⟩
    have hspares := spares_runOps hoff ops
    refine ⟨.of_off ?_, hspares⟩
    by_contra hon
    rw [Bool.not_eq_false] at hon
    exact absurd (hspares.enabled hon) (by simp [hoff])
  · intro hr
    have hoff := eventSend_exits s hr
    refine ⟨.of_off hoff, fun t ht => .of_off (ht.inv writeDisabled_kept hoff), fun ops => ?_⟩
    exact (visits_kept _).runOps .start fun _ _ => trivial

/-- After `recv_callback` has failed, later octets are not read. -/
theorem fatal_error_final_brokenRecv :
    Deaf (runOps (eventRecv (configured true ⟨true, true, true, true⟩ false 100)
      { recvs := [.fail (some 7), .data [0x81, 0x80]] }).2 [.call .send, .recv]) ∧
    Mute (eventSend brokenSend.1 brokenSend.2).2 := by
  obtain ⟨hrecv, -⟩ := fatal_error_final (configured true ⟨true, true, true, true⟩ false 100,
    { recvs := [.fail (some 7), .data [0x81, 0x80]] })
  obtain ⟨-, hsend⟩ := fatal_error_final brokenSend
  exact ⟨((hrecv (by decide +kernel)).2 _).1, (hsend (by decide +kernel)).1⟩

end Wslay
