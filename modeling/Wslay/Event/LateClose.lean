import Wslay.Event.Cuts
import Wslay.Event.Protocol

/-!
# A Close that cannot be answered

When a Close has been queued already, or writing is over, no message can be queued,
and the Close that `wslay_event_recv` would queue by itself cannot be either.

* `Rx.run_unqueued` — what the receiver comes to without its replies.
* `ClosesCleanly` — the handshake is completed as if there were replies.
* `closes_cleanly_iff` — the result.
-/

namespace Wslay

open Loop (Step)

/-! ## The receiver without its replies -/

/-- The report `R'` is what comes of the report `R` when nothing can be queued: it is
the same while the receiver goes on, and the call fails otherwise. -/
structure Report.Unqueued (R R' : Report) : Prop where
  live : ∀ rx, R.fate = .live rx → R'.calls = R.calls ∧ R'.replies = [] ∧ R'.fate = .live rx
  off : ∀ heard r, R.fate = .off heard r → ∃ r', R'.fate = .off heard r' ∧ r' ≠ 0

theorem Report.Unqueued.andThen {R R' : Report} {f f' : Rx → Report} (h : R.Unqueued R')
    (hf : ∀ rx, (f rx).Unqueued (f' rx)) : (R.andThen f).Unqueued (R'.andThen f') := by
  cases hR : R.fate with
  | live rx =>
    obtain ⟨hcalls, hreplies, hlive⟩ := h.live rx hR
    obtain ⟨hgo, hend⟩ := hf rx
    rw [andThen_live hR, andThen_live hlive]
    refine ⟨fun rx' h' => ?_, fun heard r h' => hend heard r h'⟩
    obtain ⟨hc, hr, hl⟩ := hgo rx' h'
    exact ⟨congrArg₂ (· ++ ·) hcalls hc, congrArg₂ (· ++ ·) hreplies hr, hl⟩
  | off heard r =>
    obtain ⟨r', hoff, hne⟩ := h.off heard r hR
    rw [andThen_off hR, andThen_off hoff]
    exact h

theorem Reaction.unqueued (R : Reaction) : (R.report true).Unqueued (R.report false) := by
  unfold Reaction.report
  cases R.verdict with
  | more rx =>
    refine ⟨fun rx' h => ⟨rfl, rfl, h⟩, fun heard r h => ?_⟩
    cases h
  | reject code =>
    refine ⟨fun rx h => (by cases h), fun heard r h => ?_⟩
    cases h
    exact ⟨1, rfl, by decide⟩
  | overflow =>
    refine ⟨fun rx h => (by cases h), fun heard r h => ?_⟩
    cases h
    exact ⟨_, rfl, by decide⟩
  | done opcode msg rx =>
    by_cases h8 : opcode = 8
    · simp only [if_pos h8]
      refine ⟨fun rx h => (by cases h), fun heard r h => ?_⟩
      cases h
      exact ⟨1, rfl, by decide⟩
    · simp only [if_neg h8]
      refine ⟨fun rx' h => ⟨rfl, by simp, h⟩, fun heard r h => ?_⟩
      cases h

theorem Rx.react_unqueued (cfg : RxConfig) (rx : Rx) (i : Item) :
    (rx.react true cfg i).Unqueued (rx.react false cfg i) := by
  cases i with
  | piece h data => exact Reaction.unqueued _
  | malformed =>
    refine ⟨fun rx h => (by cases h), fun heard r h => ?_⟩
    cases h
    exact ⟨1, rfl, by decide⟩

/-- **What the receiver comes to without its replies.** -/
theorem Rx.run_unqueued (cfg : RxConfig) (rx : Rx) (items : List Item) :
    (rx.run true cfg items).Unqueued (rx.run false cfg items) := by
  induction items generalizing rx with
  | nil => exact ⟨fun rx' h => ⟨rfl, rfl, h⟩, fun heard r h => (by cases h)⟩
  | cons i items ih => exact (rx.react_unqueued cfg i).andThen ih

/-! ## Runs -/

/-- **The call from `s` to `s'` with the result `r` completes the closing handshake on
the reading side**: it is a success and does what the report `R` says, which is what it
would do if a message could be queued, except that it queues nothing. -/
structure ClosesCleanly (s : EventContext × Io) (R : Report) (r : Int) (s' : EventContext × Io) :
    Prop where
  result : r = 0
  calls : s'.2.calls = s.2.calls ++ R.calls.filter s.1.callbacks.takes
  heard : s'.1.closeStatus.received = (R.fate.heard.isSome || s.1.closeStatus.received)
  code : s'.1.statusCodeRecv =
    (R.fate.heard.map fun code => if code = 0 then codeNoStatusRcvd else code).getD
      s.1.statusCodeRecv
  enabled : s'.1.readEnabled = R.fate.isLive
  queue : s'.1.sendCtrlQueue = s.1.sendCtrlQueue
  queued : s'.2.queued = s.2.queued

/-- **A reading of the octets that the call from `s` to `s'` takes in**: the context stands
where the receiver `rx` does, and hands it `items`. -/
def Reading (cfg : RxConfig) (s : EventContext × Io) (rx : Rx) (s' : EventContext × Io)
    (items : List Item) : Prop :=
  ∃ d look, Listens cfg s rx d look ∧
    ∃ new d' look', Trace cfg false s rx d look s' new items d' look'

section

variable {cfg : RxConfig} {s s' : EventContext × Io} {rx : Rx} {items : List Item}

theorem Reading.follows (h : Reading cfg s rx s' items) :
    Follows s s' (rx.run false cfg items) := by
  obtain ⟨d, look, -, new, d', look', ht⟩ := h
  exact ht.follows

/-- Reading goes on afterwards just when the receiver does. -/
theorem Reading.enabled (h : Reading cfg s rx s' items) (hon : s.1.readEnabled = true) :
    s'.1.readEnabled = (rx.run true cfg items).fate.isLive := by
  have hun := rx.run_unqueued cfg items
  rw [h.follows.enabled, hon, Bool.and_true]
  cases hfate : (rx.run true cfg items).fate with
  | live rx' => rw [(hun.live rx' hfate).2.2]
  | off heard r =>
    obtain ⟨r', hoff, -⟩ := hun.off heard r hfate
    rw [hoff]
    rfl

/-- A receiver that goes on does what it would do if a message could be queued. -/
theorem Reading.closesCleanly (h : Reading cfg s rx s' items) (hon : s.1.readEnabled = true)
    {rx' : Rx} (hlive : (rx.run true cfg items).fate = .live rx') :
    ClosesCleanly s (rx.run true cfg items) 0 s' := by
  obtain ⟨hcalls, hreplies, hlive'⟩ := (rx.run_unqueued cfg items).live rx' hlive
  have hfollows := h.follows
  obtain ⟨hqueued, hqueue⟩ := hfollows.queues
  rw [hreplies] at hqueued hqueue
  refine ⟨rfl, ?_, ?_, ?_, h.enabled hon, hqueue.trans (List.append_nil _),
    hqueued.trans (List.append_nil _)⟩
  · rw [hfollows.calls, hcalls]
  · rw [hfollows.heard, hlive, hlive']
  · rw [hfollows.code, hlive, hlive']

/-- What the call returns, and that the octets have a reading. -/
theorem exists_reading {d : Dec} {look : List UInt8} (hr : Runs cfg false s rx d look) :
    ∃ items, Reading cfg s rx (eventRecv s.1 s.2).2 items ∧
      ((eventRecv s.1 s.2).2.1.readEnabled = true ↔ (eventRecv s.1 s.2).1 = 0) := by
  obtain ⟨new, items, d', look', ht, hends⟩ := eventRecv_trace hr
  have hreading : Reading cfg s rx (eventRecv s.1 s.2).2 items :=
    ⟨d, look, hr.listens, new, d', look', ht⟩
  refine ⟨items, hreading, ?_⟩
  rw [hreading.enabled hr.enabled]
  cases hfate : (rx.run true cfg items).fate with
  | live rx' =>
    rw [((rx.run_unqueued cfg items).live rx' hfate).2.2] at hends
    exact ⟨fun _ => hends.1, fun _ => rfl⟩
  | off heard r =>
    obtain ⟨r', hoff, hne⟩ := (rx.run_unqueued cfg items).off heard r hfate
    rw [hoff] at hends
    have hresult : (eventRecv s.1 s.2).1 = r' := hends
    rw [hresult]
    exact ⟨fun h => (by cases h), fun h => absurd h hne⟩

end

/-- **The handshake is completed cleanly as long as there is nothing to complete.**  Let
`wslay_event_recv` be called in any run while reading goes on but no message can be
queued, and let the application only look on, and no allocation and no callback fail.
The octets that the call takes in can be read as pieces of frames, and however they are
read: the call does what it would do if a message could be queued if and only if the
receiver goes on, so that the pieces neither complete a Close nor are rejected.  Otherwise
the call does not return 0. -/
theorem closes_cleanly_iff (server : Bool) (callbacks : EventCallbacks) (noBuffering : Bool)
    (limit : Nat) (io : Io) (ops : List Op) (s : EventContext × Io)
    (hs : s = runOps (configured server callbacks noBuffering limit, io) ops)
    (hon : s.1.readEnabled = true) (hqueueable : eventIsMsgQueueable s.1 = false)
    (happs : s.2.apps = []) (hmem : s.2.MemOk) (hquiet : s.2.Quiet) :
    let cfg := RxConfig.of server callbacks noBuffering limit
    let x := eventRecv s.1 s.2
    (∃ rx items, Reading cfg s rx x.2 items) ∧
      ∀ rx items, Reading cfg s rx x.2 items →
        (ClosesCleanly s (rx.run true cfg items) x.1 x.2 ↔
          ∃ rx', (rx.run true cfg items).fate = .live rx') ∧
        ∀ heard r, (rx.run true cfg items).fate = .off heard r → x.1 ≠ 0 := by
  intro cfg x
  have hreach : Loop.Reaches recvPass
      (runOps (configured server callbacks noBuffering limit, io) ops) s := by
    rw [← hs]
    exact .refl
  obtain ⟨new, T, hs', -, -, -, -, htells⟩ :=
    ordered_reaches server callbacks noBuffering limit io ops hreach
  obtain ⟨rx₀, d, look, hs'', acc, htells⟩ := htells hon
  have hruns : Runs cfg false s rx₀ d look :=
    ⟨htells.listens, htells.sound, hon, happs, hmem, hquiet, hqueueable⟩
  obtain ⟨items₀, hreading₀, hresult⟩ := exists_reading hruns
  refine ⟨⟨rx₀, items₀, hreading₀⟩, fun rx items hreading => ?_⟩
  have hfails : ∀ heard r, (rx.run true cfg items).fate = .off heard r → x.1 ≠ 0 := by
    intro heard r hoff hzero
    have hgoes := hreading.enabled hon
    rw [hresult.2 hzero, hoff] at hgoes
    cases hgoes
  refine ⟨⟨fun hclean => ?_, ?_⟩, hfails⟩
  · cases hfate : (rx.run true cfg items).fate with
    | live rx' => exact ⟨rx', rfl⟩
    | off heard r => exact absurd hclean.result (hfails heard r hfate)
  · rintro ⟨rx', hlive⟩
    have hzero : x.1 = 0 := by
      refine hresult.1 ?_
      rw [hreading.enabled hon, hlive]
      rfl
    rw [hzero]
    exact hreading.closesCleanly hon hlive

/-- A client has queued a Close of its own, and a Ping comes. -/
def closedFirst : EventContext × Io :=
  runOps (configured false ⟨true, true, true, true⟩ false 100, { recvs := [.data [0x89, 0x00]] })
    [.call (.queueClose 1000 [])]

theorem closes_cleanly_iff_closedFirst :
    let cfg := RxConfig.of false ⟨true, true, true, true⟩ false 100
    let x := eventRecv closedFirst.1 closedFirst.2
    (∃ rx items, Reading cfg closedFirst rx x.2 items) ∧
      ∀ rx items, Reading cfg closedFirst rx x.2 items →
        (ClosesCleanly closedFirst (rx.run true cfg items) x.1 x.2 ↔
          ∃ rx', (rx.run true cfg items).fate = .live rx') ∧
        ∀ heard r, (rx.run true cfg items).fate = .off heard r → x.1 ≠ 0 := by
  have hmem : closedFirst.2.MemOk := by
    unfold Io.MemOk
    decide +kernel
  have hquiet : closedFirst.2.Quiet := by
    have hrecvs : closedFirst.2.recvs = [.data [0x89, 0x00]] := by decide +kernel
    refine ⟨by decide +kernel, ?_⟩
    rw [hrecvs]
    simp
  exact closes_cleanly_iff false ⟨true, true, true, true⟩ false 100
    { recvs := [.data [0x89, 0x00]] } [.call (.queueClose 1000 [])] closedFirst rfl
    (by decide +kernel) (by decide +kernel) (by decide +kernel) hmem hquiet

/-- Both sides close at the same time: the Close of the peer is not delivered, and
`wslay_event_recv` returns 1. -/
theorem simultaneousClose_fails :
    let s := runOps (configured false ⟨true, true, true, true⟩ false 100,
      { recvs := [.data [0x88, 0x02, 0x03, 0xe8]] }) [.call (.queueClose 1000 [])]
    let x := eventRecv s.1 s.2
    x.1 = 1 ∧ x.2.1.closeStatus.received = true ∧ x.2.1.statusCodeRecv = 1000 ∧
      x.2.2.calls.filter Call.isMsg = [] := by
  decide +kernel

end Wslay
