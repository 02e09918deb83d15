import Wslay.Event.Messages

/-!
# A receiver among other calls

`wslay_event_recv` is called in turn with other functions.  Between two of its calls
the context stands where the receiver does that has been given all octets so far.

* `Attends` — the invariant.
* `Attends.spares` — other calls keep it.
* `Reads.of_sent` — **what comes of a front of legal frames**.
* `Attends.eventRecv` — so `wslay_event_recv` keeps it too.
-/

namespace Wslay

open Loop (Step)

/-! ## A front of legal frames -/

/-- The calls of a report that deliver messages. -/
def Report.messages (R : Report) : List (Fin 16 × List UInt8) := R.calls.filterMap Call.message

/-- What is told of a call when only messages matter. -/
def messageOf (c : Call) : List (Fin 16 × List UInt8) := c.message.toList

theorem flatMap_messageOf (calls : List Call) :
    calls.flatMap messageOf = calls.filterMap Call.message :=
  (List.filterMap_eq_flatMap_toList Call.message calls).symm

/-- The frames that a peer may send: whole, legal and not too long. -/
structure Sendable (cfg : RxConfig) (fs : List Frame) : Prop where
  valid : ∀ f ∈ fs, f.header.Valid
  noClose : ∀ f ∈ fs, f.opcode ≠ 8
  legal : Assembly.idle.All (Assembly.Legal cfg.server) fs
  fits : Assembly.idle.All (Assembly.Fits cfg) fs

/-- What comes of reading a front of the frames `fs`. -/
structure OnTheWay (fs : List Frame) (R : Report) : Prop where
  live : ∃ rx, R.fate = .live rx
  messages : R.messages <+: Assembly.idle.allMessages fs
  replies : R.replies <+: fs.flatMap Assembly.pongOf

section

variable {cfg : RxConfig} {fs : List Frame} {items : List Item} {d : Dec}
  {got look more : List UInt8}

/-- The messages that whole frames come to. -/
theorem messages_along (hbuf : cfg.noBuffering = false) (a : Assembly) :
    (a.along (Assembly.callsFor cfg) fs).flatMap messageOf = a.allMessages fs := by
  induction fs generalizing a with
  | nil => rfl
  | cons f fs ih =>
    have hcalls : (a.callsFor cfg f).flatMap messageOf = (a.message f).toList := by
      rw [flatMap_messageOf, ← Assembly.message_delivery hbuf]
      rfl
    change (a.callsFor cfg f ++ (a.after f).along (Assembly.callsFor cfg) fs).flatMap messageOf = _
    rw [List.flatMap_append, hcalls, ih]
    rfl

/-- **What comes of a front of legal frames**: the receiver goes on, and has delivered
and answered a front of what the frames come to. -/
theorem Reads.of_sent (h : Reads .head got items d look) (hbuf : cfg.noBuffering = false)
    (hdel : cfg.delivers = true) (hlimit : cfg.limit < 2 ^ 64) (hs : Sendable cfg fs)
    (hmore : got ++ more = fs.flatMap Frame.encode) :
    OnTheWay fs (Rx.fresh.run true cfg items) ∧
      (more = [] → d.Ok → takePiece d look = .wait d look →
        (Rx.fresh.run true cfg items).messages =
          Assembly.idle.allMessages fs) := by
  have hblind : ∀ x, messageOf (.frameRecvChunk x) = [] := fun _ => rfl
  have hg : ∀ x y, messageOf (.frameRecvChunk (x ++ y)) =
      messageOf (.frameRecvChunk x) ++ messageOf (.frameRecvChunk y) := fun _ _ => rfl
  obtain ⟨hmeets, hrun⟩ := hs.fits.front (q := true) hblind hdel Assembly.ok_idle hs.valid
    hs.noClose hlimit
  rw [Assembly.run_legal hs.legal hs.fits] at hrun
  have hitems : Dec.head.items (got ++ more) = fs.map Frame.item := by
    rw [hmore]
    exact streamItems_frames hs.valid
  have hsmooth : Rx.fresh.Meets true cfg (Rx.Smooth messageOf cfg)
      (Dec.head.items (got ++ more)) := by
    rw [hitems]
    exact hmeets
  have hplace : Rx.fresh.Place .head := Or.inl rfl
  have hcuts := (h.extend more).cuts hg hplace hsmooth
  rw [hitems] at hcuts
  change Report.Alike messageOf ((Assembly.idle.rx cfg).run true cfg (fs.map Frame.item)) _ at hcuts
  rw [hrun] at hcuts
  obtain ⟨hcalls, hreplies, hfate⟩ := hcuts
  rw [messages_along hbuf] at hcalls
  rw [Assembly.along_const] at hreplies
  have hlive : ∃ rx, (Rx.fresh.run true cfg items).fate = .live rx := by
    cases hR : (Rx.fresh.run true cfg items).fate with
    | live rx => exact ⟨rx, rfl⟩
    | off heard r =>
      rw [Report.andThen_off hR, hR] at hfate
      cases hfate
  obtain ⟨hpcalls, hpreplies⟩ := Report.prefix_andThen (Rx.fresh.run true cfg items)
    fun rx => rx.run true cfg (d.items (look ++ more))
  refine ⟨⟨hlive, ?_, ?_⟩, ?_⟩
  · rw [Report.messages, ← flatMap_messageOf, hcalls]
    exact hpcalls.flatMap messageOf
  · have h : fs.flatMap Assembly.pongOf = _ := hreplies
    rw [h]
    exact hpreplies
  · intro hnil hok hwait
    have hnone : d.items (look ++ more) = [] := by
      rw [hnil, List.append_nil]
      exact Dec.items_wait hok hwait
    rw [hnone] at hcalls
    have hend : ((Rx.fresh.run true cfg items).andThen fun rx => rx.run true cfg []) =
        Rx.fresh.run true cfg items := Report.andThen_start _
    rw [hend] at hcalls
    rw [Report.messages, ← flatMap_messageOf]
    exact hcalls.symm

end

/-! ## The invariant -/

/-- **The context has been given some octets as `items`**, and waits for more with
`look` in hand. -/
structure Attends (cfg : RxConfig) (s : EventContext × Io) (items : List Item) (rx : Rx) (d : Dec)
    (look : List UInt8) : Prop where
  runs : Runs cfg true s rx d look
  reads : Reads .head s.2.received items d look
  waits : takePiece d look = .wait d look
  live : (Rx.fresh.run true cfg items).fate = .live rx
  calls : s.2.calls = (Rx.fresh.run true cfg items).calls.filter s.1.callbacks.takes

section

variable {cfg : RxConfig} {s s' : EventContext × Io} {items : List Item} {rx : Rx} {d : Dec}
  {look more : List UInt8} {fs : List Frame}

/-- Other calls keep it. -/
theorem Attends.spares (h : Attends cfg s items rx d look) (hsp : Spares s s')
    (hon : s'.1.readEnabled = true) (hquiet : s'.2.Quiet)
    (hq : eventIsMsgQueueable s'.1 = true) : Attends cfg s' items rx d look := by
  have hcb : s'.1.callbacks = s.1.callbacks := by
    have hpart := hsp.context
    simp only [EventContext.rxPart, Prod.mk.injEq] at hpart
    exact hpart.2.2.2.2.1
  refine ⟨⟨h.runs.listens.spares hsp, h.runs.sound, hon, ?_, ?_, hquiet, hq⟩, ?_, h.waits, h.live, ?_⟩
  · rw [hsp.apps]
    exact h.runs.apps
  · intro hf
    exact h.runs.mem (hsp.mem.subset hf)
  · rw [hsp.received]
    exact h.reads
  · rw [hsp.calls, hcb]
    exact h.calls

/-- More octets may come, or `recv_callback` may be going to block. -/
theorem Attends.feed (h : Attends cfg s items rx d look) {recvs : List RecvResult}
    (hquiet : Io.Quiet { s.2 with recvs := recvs }) :
    Attends cfg (s.1, { s.2 with recvs := recvs }) items rx d look :=
  ⟨⟨⟨h.runs.listens.ready, h.runs.listens.models, h.runs.listens.place⟩, h.runs.sound,
    h.runs.enabled, h.runs.apps, h.runs.mem, hquiet, h.runs.queueable⟩, h.reads, h.waits, h.live,
    h.calls⟩

/-- The callback for messages misses none. -/
theorem filterMap_takes {callbacks : EventCallbacks} (hset : callbacks.onMsgRecv = true)
    (calls : List Call) :
    (calls.filter callbacks.takes).filterMap Call.message = calls.filterMap Call.message := by
  induction calls with
  | nil => rfl
  | cons c calls ih =>
    rw [List.filter_cons]
    cases c with
    | msgRecv rsv opcode msg code =>
      rw [show callbacks.takes (.msgRecv rsv opcode msg code) = true from hset]
      exact congrArg (List.cons _) ih
    | frameRecvStart fin rsv opcode len =>
      split_ifs <;> exact ih
    | frameRecvChunk data =>
      split_ifs <;> exact ih
    | frameRecvEnd =>
      split_ifs <;> exact ih

/-- The messages that have been delivered. -/
theorem Attends.messages (h : Attends cfg s items rx d look) (hdel : cfg.delivers = true) :
    s.2.calls.filterMap Call.message = (Rx.fresh.run true cfg items).messages := by
  rw [h.calls, Report.messages]
  exact filterMap_takes (h.runs.listens.models.settings.delivers.trans hdel) _

/-- **`wslay_event_recv` succeeds while the peer sends legal frames**, answers only what
is to be answered, and then waits again. -/
theorem Attends.eventRecv (h : Attends cfg s items rx d look) (hbuf : cfg.noBuffering = false)
    (hdel : cfg.delivers = true) (hlimit : cfg.limit < 2 ^ 64) (hs : Sendable cfg fs)
    (hmore : s.2.received ++ (pendingOctets s.2.recvs ++ more) = fs.flatMap Frame.encode) :
    (eventRecv s.1 s.2).1 = 0 ∧
      (∃ items' rx' d' look', Attends cfg (eventRecv s.1 s.2).2 items' rx' d' look') ∧
      (eventRecv s.1 s.2).2.2.received ++ pendingOctets (eventRecv s.1 s.2).2.2.recvs =
        s.2.received ++ pendingOctets s.2.recvs ∧
      ∃ R, Follows s (eventRecv s.1 s.2).2 R ∧ (∀ r ∈ R.replies, r ∈ fs.flatMap Assembly.pongOf) := by
  obtain ⟨new, added, d', look', ht, hends⟩ := eventRecv_trace h.runs
  have hreads : Reads .head (s.2.received ++ new) (items ++ added) d' look' :=
    (h.reads.extend new).trans (Rx.run_live h.live) ht.reads
  have hwhole : (s.2.received ++ new) ++ (pendingOctets (Wslay.eventRecv s.1 s.2).2.2.recvs ++ more) =
      fs.flatMap Frame.encode := by
    rw [← hmore, ht.pending]
    simp
  obtain ⟨⟨⟨rx', hlive⟩, -, hreplies⟩, -⟩ := hreads.of_sent hbuf hdel hlimit hs hwhole
  have hrun : Rx.fresh.run true cfg (items ++ added) =
      ⟨(Rx.fresh.run true cfg items).calls ++ (rx.run true cfg added).calls,
        (Rx.fresh.run true cfg items).replies ++ (rx.run true cfg added).replies,
        (rx.run true cfg added).fate⟩ := by
    rw [Rx.run_append, Report.andThen_live h.live]
  have hfate : (rx.run true cfg added).fate = .live rx' := by
    rw [hrun] at hlive
    exact hlive
  rw [hfate] at hends
  obtain ⟨hzero, hwait, -⟩ := hends
  refine ⟨hzero, ⟨items ++ added, rx', d', look', ?_⟩, ?_, _, ht.follows, ?_⟩
  · refine ⟨ht.runs h.runs hfate, ?_, hwait, hlive, ?_⟩
    · rw [ht.received]
      exact hreads
    · rw [ht.follows.calls, ht.follows.callbacks, h.calls, hrun, List.filter_append]
  · rw [ht.received, ht.pending, List.append_assoc]
  · intro r hr
    refine hreplies.subset ?_
    rw [hrun]
    exact List.mem_append_right _ hr

end

end Wslay
