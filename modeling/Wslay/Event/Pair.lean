import Wslay.Event.Attending
import Wslay.Event.Healthy
import Mathlib.Logic.Function.Basic

/-!
# Two contexts that talk to each other

A client and a server, each of which receives what the other sends.  The octets on
their way keep their order, and arrive in portions of any size at any time; between
these events the two applications call the library as they like.

* `Pair`, `Happening` — the two contexts, and what can happen.
* `QueuedMsg.Proper` — the messages that the other side can take.
* `Pair.Sound` — **the invariant**: each side has received a front of what the other has
  sent, and what it has sent is what it has queued.
* `pair_delivers_in_order`, `pair_never_fails`, `pair_delivers_all` — the results.
-/

namespace Wslay

open Utf8 (WellFormed)

/-! ## The system -/

/-- A client, `side false`, and a server, `side true`; `flight p` are the octets on
their way to the side `p`. -/
structure Pair where
  side : Bool → EventContext × Io
  flight : Bool → List UInt8

/-- What can happen. -/
inductive Happening where
  /-- The application of the side `p` calls the library. -/
  | call (p : Bool) (op : Op)
  /-- The next `n` octets arrive, and `recv_callback` can store them. -/
  | arrive (p : Bool) (n : Nat)
  /-- A call of `recv_callback` is going to block. -/
  | stall (p : Bool)
  deriving DecidableEq, Repr

/-- One more result of `recv_callback` is laid down. -/
def feed (s : EventContext × Io) (r : RecvResult) : EventContext × Io :=
  (s.1, { s.2 with recvs := s.2.recvs ++ [r] })

/-- What the side `p` has put on the wire between two states goes on its way. -/
def Pair.sent (n : Pair) (p : Bool) (s : EventContext × Io) : List UInt8 :=
  s.2.wire.drop (n.side p).2.wire.length

/-- **One step.** -/
def Pair.next (n : Pair) : Happening → Pair
  | .call p op =>
    { side := Function.update n.side p (step (n.side p) op).2
      flight := Function.update n.flight (!p)
        (n.flight (!p) ++ n.sent p (step (n.side p) op).2) }
  | .arrive p k =>
    { side := Function.update n.side p (feed (n.side p) (.data ((n.flight p).take k)))
      flight := Function.update n.flight p ((n.flight p).drop k) }
  | .stall p =>
    { side := Function.update n.side p (feed (n.side p) (.fail (some Err.wouldblock.code)))
      flight := n.flight }

/-- A run. -/
def Pair.run (n : Pair) (hs : List Happening) : Pair := hs.foldl Pair.next n

/-- The settings of the two sides. -/
structure Ends where
  callbacks : Bool → EventCallbacks
  limit : Bool → Nat

/-- The settings of the receiver of the side `p`. -/
def Ends.cfg (e : Ends) (p : Bool) : RxConfig := .of p (e.callbacks p) false (e.limit p)

/-- Two new contexts; `io p` is the world of the side `p`. -/
def Ends.start (e : Ends) (io : Bool → Io) : Pair where
  side p := (configured p (e.callbacks p) false (e.limit p), io p)
  flight _ := []

/-! ## What is allowed to happen -/

/-- **A message that the other side can take.**  Its `limit` is that of the other side,
and `own` is the limit of this side, which has to take the answer to a Ping. -/
def QueuedMsg.Proper (limit own : Nat) : QueuedMsg → Prop
  | .msg arg => arg.msg.length < 2 ^ 63 ∧ arg.msg.length ≤ limit ∧
      (arg.opcode = textFrame ∧ WellFormed arg.msg ∨ arg.opcode = binaryFrame ∨
        arg.msg.length ≤ 125 ∧
          (arg.opcode = ping ∧ arg.msg.length ≤ own ∨ arg.opcode = pong))
  | .fragmented arg => (∀ r ∈ arg.source, r.IsData) ∧ ∃ bs, sourceOctets arg.source = some bs ∧
      bs.length ≤ limit ∧ (arg.opcode = textFrame ∧ WellFormed bs ∨ arg.opcode = binaryFrame)

/-- The calls that are made: the queueing of such messages, `wslay_event_send` and
`wslay_event_recv`. -/
def Happening.Proper (e : Ends) : Happening → Prop
  | .call p (.call (.queueMsg arg)) => (QueuedMsg.msg arg).Proper (e.limit !p) (e.limit p)
  | .call p (.call (.queueFragmentedMsg arg)) =>
      (QueuedMsg.fragmented arg).Proper (e.limit !p) (e.limit p)
  | .call _ (.call .send) => True
  | .call _ (.call _) => False
  | .call _ .recv => True
  | .arrive _ _ => True
  | .stall _ => True

/-- The callbacks of the two worlds keep their contracts, there is memory, and nothing
has happened yet. -/
structure Io.Ready (io : Io) : Prop where
  calm : io.Calm
  fresh : io.Fresh
  willing : io.Willing
  nothing : pendingOctets io.recvs = []

/-- Messages can be delivered, and their length can be counted. -/
structure Ends.Ok (e : Ends) : Prop where
  set : ∀ p, (e.callbacks p).onMsgRecv = true
  limit : ∀ p, e.limit p < 2 ^ 64

/-! ## The messages of one side -/

/-- What is proper can be sent. -/
theorem QueuedMsg.Proper.plain {limit own : Nat} {q : QueuedMsg} (h : q.Proper limit own) :
    q.omsg.Plain := by
  cases q with
  | msg arg =>
    obtain ⟨hlen, -, hkind⟩ := h
    refine ⟨⟨hlen, ?_⟩, ?_⟩
    · intro r hr
      cases hr
    · change arg.opcode ≠ connectionClose
      rcases hkind with ⟨h, -⟩ | h | ⟨-, ⟨h, -⟩ | h⟩ <;> rw [h] <;> decide
  | fragmented arg =>
    obtain ⟨hsource, bs, -, -, hkind⟩ := h
    refine ⟨⟨(by decide : ([] : List UInt8).length < 2 ^ 63), hsource⟩, ?_⟩
    change arg.opcode ≠ connectionClose
    rcases hkind with ⟨h, -⟩ | h <;> rw [h] <;> decide

/-- A proper data message arrives. -/
theorem QueuedMsg.Proper.data {limit own : Nat} {q : QueuedMsg} (h : q.Proper limit own)
    (hdata : isCtrlFrame q.omsg.opcode = false) :
    ∃ x, q.omsg.message = some x ∧ Assembly.Acceptable limit x := by
  have hkind : ∀ (opcode : UInt8) (bs : List UInt8), bs.length ≤ limit →
      (opcode = textFrame ∧ WellFormed bs ∨ opcode = binaryFrame) →
      Assembly.Acceptable limit (wireOpcode opcode, bs) := by
    rintro opcode bs hlen (⟨rfl, htext⟩ | rfl)
    · exact ⟨rfl, hlen, fun _ => htext⟩
    · exact ⟨rfl, hlen, fun h => absurd h (by decide : wireOpcode binaryFrame ≠ 1)⟩
  cases q with
  | msg arg =>
    obtain ⟨-, hlen, hopcode⟩ := h
    refine ⟨(wireOpcode arg.opcode, arg.msg), rfl, hkind arg.opcode arg.msg hlen ?_⟩
    change isCtrlFrame arg.opcode = false at hdata
    rcases hopcode with h | h | ⟨-, ⟨h, -⟩ | h⟩
    · exact Or.inl h
    · exact Or.inr h
    · rw [h] at hdata
      cases hdata
    · rw [h] at hdata
      cases hdata
  | fragmented arg =>
    obtain ⟨-, bs, hbs, hlen, hopcode⟩ := h
    refine ⟨(wireOpcode arg.opcode, bs), ?_, hkind arg.opcode bs hlen hopcode⟩
    change (sourceOctets arg.source).map _ = _
    rw [hbs]
    rfl

/-- A proper control message is a Ping or a Pong. -/
theorem QueuedMsg.Proper.ctrl {limit own : Nat} {q : QueuedMsg} (h : q.Proper limit own)
    (hctrl : isCtrlFrame q.omsg.opcode = true) :
    q.omsg.message = some (wireOpcode q.omsg.opcode, q.omsg.data) ∧
      (q.omsg.opcode = ping ∧ q.omsg.data.length ≤ own ∨ q.omsg.opcode = pong) ∧
      q.omsg.data.length ≤ 125 ∧ q.omsg.data.length ≤ limit := by
  cases q with
  | msg arg =>
    obtain ⟨-, hlen, hopcode⟩ := h
    change isCtrlFrame arg.opcode = true at hctrl
    rcases hopcode with ⟨h, -⟩ | h | ⟨hshort, h⟩
    · rw [h] at hctrl
      cases hctrl
    · rw [h] at hctrl
      cases hctrl
    · exact ⟨rfl, h, hshort, hlen⟩
  | fragmented arg =>
    obtain ⟨-, bs, -, -, hopcode⟩ := h
    change isCtrlFrame arg.opcode = true at hctrl
    rcases hopcode with ⟨h, -⟩ | h <;> rw [h] at hctrl <;> cases hctrl

/-! ## What one side may rely on -/

/-- **What holds of the side `p`.** -/
structure Ends.Sound (e : Ends) (p : Bool) (s : EventContext × Io) : Prop where
  healthy : Healthy s
  accounted : Accounted s
  role : s.1.server = p
  proper : ∀ q ∈ s.2.queued, q.Proper (e.limit !p) (e.limit p)
  attends : ∃ items rx d look, Attends (e.cfg p) s items rx d look

/-- What the side `!p` has sent, for the side `p` that receives it. -/
structure Ends.Sent (e : Ends) (p : Bool) (s : EventContext × Io) (sent : List Frame) : Prop where
  carries : CarriesQueued (!p) s sent
  sendable : Sendable (e.cfg p) sent
  data : Assembly.idle.dataMessages sent <+: s.2.queuedData.filterMap EventOmsg.message
  ctrl : Assembly.ctrlMessages sent <+: s.2.queuedCtrl.filterMap EventOmsg.message
  all : eventWantWrite s.1 = false → s.2.wire = sent.flatMap Frame.encode ∧
    Assembly.idle.dataMessages sent = s.2.queuedData.filterMap EventOmsg.message ∧
    Assembly.ctrlMessages sent = s.2.queuedCtrl.filterMap EventOmsg.message
  pings : ∀ f ∈ sent, f.opcode = 9 → f.payload.length ≤ 125 ∧ f.payload.length ≤ e.limit !p

section

variable {e : Ends} {p : Bool} {s : EventContext × Io}

theorem mem_queuedCtrl {m : EventOmsg} (h : m ∈ s.2.queuedCtrl) :
    ∃ q ∈ s.2.queued, q.omsg = m ∧ isCtrlFrame q.omsg.opcode = true := by
  obtain ⟨hm, hctrl⟩ := List.mem_filter.1 h
  obtain ⟨q, hq, rfl⟩ := List.mem_map.1 hm
  exact ⟨q, hq, rfl, hctrl⟩

theorem mem_queuedData {m : EventOmsg} (h : m ∈ s.2.queuedData) :
    ∃ q ∈ s.2.queued, q.omsg = m ∧ isCtrlFrame q.omsg.opcode = false := by
  obtain ⟨hm, hdata⟩ := List.mem_filter.1 h
  obtain ⟨q, hq, rfl⟩ := List.mem_map.1 hm
  refine ⟨q, hq, rfl, ?_⟩
  simpa using hdata

/-- **Data messages that arrive** are sent in frames that are welcome. -/
theorem plans_welcome {limit : Nat}
    (h : ∀ m ∈ s.2.queuedData, ∃ x, m.message = some x ∧ Assembly.Acceptable limit x) :
    Assembly.idle.dataMessages ((plans s.2.queuedData []).map Outline.bare) =
        s.2.queuedData.filterMap EventOmsg.message ∧
      Assembly.idle.All (Assembly.Welcome limit) ((plans s.2.queuedData []).map Outline.bare) := by
  have hdatas : ∀ m ∈ s.2.queuedData, isCtrlFrame m.opcode = false := by
    intro m hm
    obtain ⟨q, -, rfl, hdata⟩ := mem_queuedData hm
    exact hdata
  have hends : ∀ m ∈ s.2.queuedData, m.message.isSome := by
    intro m hm
    obtain ⟨x, hx, -⟩ := h m hm
    rw [hx]
    rfl
  obtain ⟨hmakes, hwelcome⟩ := Assembly.plans_makes limit hdatas hends
  refine ⟨hmakes, hwelcome ?_⟩
  intro m hm x hx
  obtain ⟨y, hy, hok⟩ := h m hm
  rw [hx] at hy
  cases hy
  exact hok

/-- The control messages that have been queued, as they are to arrive. -/
theorem Ends.Sound.queuedCtrl (h : e.Sound p s) :
    s.2.queuedCtrl.filterMap EventOmsg.message =
      (s.2.queuedCtrl.map EventOmsg.outline).map fun o => (o.opcode, o.payload) := by
  have hall : ∀ m ∈ s.2.queuedCtrl, m.message = some (m.outline.opcode, m.outline.payload) := by
    intro m hm
    obtain ⟨q, hq, rfl, hctrl⟩ := mem_queuedCtrl hm
    exact ((h.proper q hq).ctrl hctrl).1
  generalize s.2.queuedCtrl = ms at hall
  induction ms with
  | nil => rfl
  | cons m ms ih =>
    rw [List.filterMap_cons_some (hall m (List.mem_cons_self ..)),
      ih fun m hm => hall m (List.mem_cons_of_mem _ hm)]
    rfl

theorem mem_ctrlOutlines {fs : List Frame} {f : Frame} (hf : f ∈ fs) (hctrl : 8 ≤ f.opcode.val) :
    f.outline ∈ ctrlOutlines fs :=
  List.mem_filter.2 ⟨List.mem_map.2 ⟨f, hf, rfl⟩, decide_eq_true hctrl⟩

/-- What holds of all frames holds of those at the front. -/
theorem Assembly.All.front_of {P : Assembly → Frame → Prop} {a : Assembly} {fs gs : List Frame}
    (h : fs <+: gs) (hall : a.All P gs) : a.All P fs := by
  obtain ⟨rest, rfl⟩ := h
  exact (Assembly.all_append.1 hall).1

/-- **What a side has sent can be taken by the other side**, and it makes a front of the
messages it has queued. -/
theorem Ends.Sound.sent (h : e.Sound (!p) s) : ∃ sent, e.Sent p s sent := by
  obtain ⟨sent, owed, data, ctrl, ha⟩ := h.accounted
  have hc := ha.carriesQueued h.healthy.unclosed
  rw [h.role] at hc
  have hproper : ∀ q ∈ s.2.queued, q.Proper (e.limit p) (e.limit !p) := by
    intro q hq
    have hq' := h.proper q hq
    rwa [Bool.not_not] at hq'
  have hacceptable : ∀ m ∈ s.2.queuedData, ∃ x, m.message = some x ∧
      Assembly.Acceptable (e.limit p) x := by
    intro m hm
    obtain ⟨q, hq, rfl, hdata⟩ := mem_queuedData hm
    exact (hproper q hq).data hdata
  obtain ⟨hmakes, hplans⟩ := plans_welcome hacceptable
  have hctrls : ∀ o ∈ ctrlOutlines sent, ∃ q ∈ s.2.queued, isCtrlFrame q.omsg.opcode = true ∧
      o = q.omsg.outline := by
    intro o ho
    obtain ⟨m, hm, rfl⟩ := List.mem_map.1 (hc.ctrl.subset ho)
    obtain ⟨q, hq, rfl, hctrl⟩ := mem_queuedCtrl hm
    exact ⟨q, hq, hctrl, rfl⟩
  have hknown : ∀ o ∈ ctrlOutlines sent, (o.opcode = 9 ∧ o.payload.length ≤ e.limit !p ∨
      o.opcode = 10) ∧ o.payload.length ≤ 125 ∧ o.payload.length ≤ e.limit p := by
    intro o ho
    obtain ⟨q, hq, hctrl, rfl⟩ := hctrls o ho
    obtain ⟨-, hkind, hshort, hlimit⟩ := (hproper q hq).ctrl hctrl
    refine ⟨?_, hshort, hlimit⟩
    rcases hkind with ⟨hping, hown⟩ | hpong
    · exact Or.inl ⟨congrArg wireOpcode hping, hown⟩
    · exact Or.inr (congrArg wireOpcode hpong)
  have hframe : ∀ f ∈ sent, 8 ≤ f.opcode.val → (f.opcode = 9 ∧ f.payload.length ≤ e.limit !p ∨
      f.opcode = 10) ∧ f.payload.length ≤ 125 ∧ f.payload.length ≤ e.limit p := by
    intro f hf hctrl
    exact hknown f.outline (mem_ctrlOutlines hf hctrl)
  have hlegal : Assembly.idle.All
      (fun a f => Assembly.Legal (e.cfg p).server a f ∧ Assembly.Fits (e.cfg p) a f) sent := by
    refine Assembly.all_legal ?_ (Assembly.All.front_of (hc.data.map _) hplans) ?_
    · intro f hf
      have hl := hc.legit f hf
      refine ⟨hl.rsv, ?_⟩
      rw [hl.mask, Bool.not_not]
      rfl
    · intro o ho
      obtain ⟨hkind, -, hlimit⟩ := hknown o ho
      refine ⟨?_, hlimit⟩
      rcases hkind with ⟨h9, -⟩ | h10
      · rw [h9]
        rfl
      · rw [h10]
        rfl
  have hqueuedCtrl := h.queuedCtrl
  refine ⟨sent, hc, ⟨?_, ?_, ?_, ?_⟩, ?_, ?_, ?_, ?_⟩
  · intro f hf
    exact (hc.legit f hf).valid
  · intro f hf h8
    have hctrl : 8 ≤ f.opcode.val := by
      rw [h8]
      decide
    rcases (hframe f hf hctrl).1 with ⟨h9, -⟩ | h10
    · rw [h8] at h9
      cases h9
    · rw [h8] at h10
      cases h10
  · exact hlegal.mono fun a f hf => hf.1
  · exact hlegal.mono fun a f hf => hf.2
  · rw [← Assembly.dataMessages_outlines, ← hmakes]
    exact Assembly.dataMessages_prefix (hc.data.map _)
  · rw [hqueuedCtrl]
    exact hc.ctrl.map _
  · intro hwant
    obtain ⟨hwire, hdata, hctrl⟩ := hc.all h.healthy.enabled hwant
    refine ⟨hwire, ?_, ?_⟩
    · rw [← Assembly.dataMessages_outlines, hdata, hmakes]
    · rw [hqueuedCtrl, ← hctrl]
      rfl
  · intro f hf h9
    have hctrl : 8 ≤ f.opcode.val := by
      rw [h9]
      decide
    obtain ⟨hkind, hshort, -⟩ := hframe f hf hctrl
    refine ⟨hshort, ?_⟩
    rcases hkind with ⟨-, hown⟩ | h10
    · exact hown
    · rw [h9] at h10
      cases h10

/-! ## One call -/

/-- **A call of the side `p`** leaves it sound, takes nothing back of what it has sent
and loses nothing of what has arrived. -/
structure Ends.Steps (e : Ends) (p : Bool) (s s' : EventContext × Io) : Prop where
  sound : e.Sound p s'
  grows : s.2.wire <+: s'.2.wire
  input : s'.2.received ++ pendingOctets s'.2.recvs = s.2.received ++ pendingOctets s.2.recvs

/-- A call of the application that leaves the receiver alone. -/
theorem Ends.Sound.aside (h : e.Sound p s) (a : AppCall) {s' : EventContext × Io}
    (heq : (appCall s.1 s.2 a).2 = s') (hhealthy : Healthy s')
    (hproper : ∀ q ∈ s'.2.queued, q ∈ s.2.queued ∨ q.Proper (e.limit !p) (e.limit p))
    (hon : s'.1.readEnabled = s.1.readEnabled) (hgrows : s.2.wire <+: s'.2.wire) :
    e.Steps p s s' := by
  have hsp : Spares s s' := by
    rw [← heq]
    exact appCall_spares s.1 s.2 a
  obtain ⟨items, rx, d, look, hattends⟩ := h.attends
  refine ⟨⟨hhealthy, ?_, ?_, ?_, items, rx, d, look, ?_⟩, hgrows, ?_⟩
  · rw [← heq]
    exact h.accounted.appCall a
  · have hpart := hsp.context
    simp only [EventContext.rxPart, Prod.mk.injEq] at hpart
    exact hpart.2.2.2.1.trans h.role
  · intro q hq
    exact (hproper q hq).elim (h.proper q) id
  · refine hattends.spares hsp (hon.trans hattends.runs.enabled) ?_ hhealthy.queueable
    refine ⟨hhealthy.willing.error, ?_⟩
    rw [hsp.recvs]
    exact hattends.runs.quiet.recvs
  · rw [hsp.received, hsp.recvs]

/-- **Queueing a proper message.** -/
theorem Ends.Sound.queueMsg (h : e.Sound p s) {arg : EventMsg}
    (hproper : (QueuedMsg.msg arg).Proper (e.limit !p) (e.limit p)) :
    (appCall s.1 s.2 (.queueMsg arg)).1 = 0 ∧
      e.Steps p s (appCall s.1 s.2 (.queueMsg arg)).2 := by
  have hshort : isCtrlFrame arg.opcode = true → arg.msg.length ≤ 125 :=
    fun hc => (hproper.ctrl hc).2.2.1
  obtain ⟨io', ha, heq, hhealthy⟩ := h.healthy.queueMsg hshort hproper.plain
  have hwire : io'.wire = s.2.wire := by rw [ha.eq]
  have hqueued : io'.queued = s.2.queued := by rw [ha.eq]
  change (eventQueueMsg s.1 arg s.2).1 = 0 ∧ e.Steps p s (eventQueueMsg s.1 arg s.2).2
  rw [heq]
  refine ⟨rfl, h.aside (.queueMsg arg) (congrArg Prod.snd heq) hhealthy ?_
    (readEnabled_withMsg s.1 arg) ?_⟩
  · intro q hq
    rcases List.mem_append.1 hq with hq | hq
    · exact Or.inl (hqueued ▸ hq)
    · rw [List.mem_singleton.1 hq]
      exact Or.inr hproper
  · rw [← hwire]
    exact List.prefix_rfl

/-- **Queueing a proper fragmented message.** -/
theorem Ends.Sound.queueFragmentedMsg (h : e.Sound p s) {arg : EventFragmentedMsg}
    (hproper : (QueuedMsg.fragmented arg).Proper (e.limit !p) (e.limit p)) :
    (appCall s.1 s.2 (.queueFragmentedMsg arg)).1 = 0 ∧
      e.Steps p s (appCall s.1 s.2 (.queueFragmentedMsg arg)).2 := by
  have hdata : isCtrlFrame arg.opcode = false := by
    obtain ⟨-, bs, -, -, hopcode⟩ := hproper
    rcases hopcode with ⟨h, -⟩ | h <;> rw [h] <;> rfl
  obtain ⟨io', ha, heq, hhealthy⟩ := h.healthy.queueFragmentedMsg hdata hproper.plain
  have hwire : io'.wire = s.2.wire := by rw [ha.eq]
  have hqueued : io'.queued = s.2.queued := by rw [ha.eq]
  change (eventQueueFragmentedMsg s.1 arg s.2).1 = 0 ∧
    e.Steps p s (eventQueueFragmentedMsg s.1 arg s.2).2
  rw [heq]
  refine ⟨rfl, h.aside (.queueFragmentedMsg arg) (congrArg Prod.snd heq) hhealthy ?_ rfl ?_⟩
  · intro q hq
    rcases List.mem_append.1 hq with hq | hq
    · exact Or.inl (hqueued ▸ hq)
    · rw [List.mem_singleton.1 hq]
      exact Or.inr hproper
  · rw [← hwire]
    exact List.prefix_rfl

/-- **Sending.** -/
theorem Ends.Sound.send (h : e.Sound p s) :
    (appCall s.1 s.2 .send).1 = 0 ∧ e.Steps p s (appCall s.1 s.2 .send).2 := by
  obtain ⟨hzero, hhealthy, hgrows⟩ := h.healthy.eventSend
  obtain ⟨hsame, hqueued, -⟩ := eventSend_recvSame s.1 s.2
  refine ⟨hzero, h.aside .send rfl hhealthy ?_ ?_ hgrows⟩
  · intro q hq
    exact Or.inl (hqueued ▸ hq)
  · have hhalf := hsame.context
    simp only [EventContext.recvHalf, Prod.mk.injEq] at hhalf
    exact hhalf.2.2.2.2.2.2.2.2.1

/-- The world in which some replies have been queued. -/
theorem answerAll_world (s : EventContext × Io) (rs : List Reply) :
    (answerAll s rs).2 = { s.2 with queued := s.2.queued ++ rs.map Reply.queued } := by
  induction rs generalizing s with
  | nil =>
    rw [List.map_nil, List.append_nil]
    rfl
  | cons r rs ih =>
    have h := ih (answer s r)
    change (answerAll (answer s r) rs).2 = _
    rw [h]
    simp [answer, Io.noteReply, Io.noteQueued, Reply.queued]

/-- **Receiving**, while the octets that have arrived are a front of what the other side
has sent. -/
theorem Ends.Sound.recv (he : e.Ok) (h : e.Sound p s) {s₂ : EventContext × Io}
    (hpeer : e.Sound (!p) s₂)
    {more : List UInt8} (hfifo : s.2.received ++ (pendingOctets s.2.recvs ++ more) = s₂.2.wire) :
    (eventRecv s.1 s.2).1 = 0 ∧ e.Steps p s (eventRecv s.1 s.2).2 := by
  obtain ⟨sent, hsent⟩ := hpeer.sent
  obtain ⟨rest, hrest⟩ := hsent.carries.wire
  obtain ⟨items, rx, d, look, hattends⟩ := h.attends
  have hmore : s.2.received ++ (pendingOctets s.2.recvs ++ (more ++ rest)) =
      sent.flatMap Frame.encode := by
    rw [← hrest, ← hfifo]
    simp
  obtain ⟨hzero, hattends', hinput, R, hfollows, hreplies⟩ :=
    hattends.eventRecv rfl (he.set p) (he.limit p) hsent.sendable hmore
  have hpongs : ∀ r ∈ R.replies, ∃ msg : List UInt8, r = .pong msg ∧ msg.length ≤ 125 ∧
      msg.length ≤ e.limit !p := by
    intro r hr
    obtain ⟨f, hf, hpong⟩ := List.mem_flatMap.1 (hreplies r hr)
    unfold Assembly.pongOf at hpong
    split_ifs at hpong with h9
    · obtain ⟨hshort, hown⟩ := hsent.pings f hf h9
      exact ⟨f.payload, List.mem_singleton.1 hpong, hshort, hown⟩
    · cases hpong
  have hio : (eventRecv s.1 s.2).2.2.sendHalf = (answerAll s R.replies).2.sendHalf :=
    congrArg Prod.snd hfollows.send
  rw [answerAll_world] at hio
  simp only [Io.sendHalf, Prod.mk.injEq] at hio
  obtain ⟨hsends, hmasks, hwire, -, hqueued, -⟩ := hio
  obtain ⟨items', rx', d', look', hnext⟩ := hattends'
  have hwilling : (eventRecv s.1 s.2).2.2.Willing := by
    refine ⟨hnext.runs.quiet.error, ?_, ?_⟩
    · rw [hsends]
      exact h.healthy.willing.sends
    · rw [hmasks]
      exact h.healthy.willing.masks
  have hhealthy : Healthy (eventRecv s.1 s.2).2 := by
    refine h.healthy.answered ?_ hfollows.send hwilling hnext.runs.mem
    intro r hr
    obtain ⟨msg, rfl, hshort, -⟩ := hpongs r hr
    exact ⟨msg, rfl, hshort⟩
  refine ⟨hzero, ⟨hhealthy, accounted_kept.eventRecv h.accounted, ?_, ?_, items', rx', d', look',
    hnext⟩, ?_, hinput⟩
  · exact hnext.runs.listens.models.settings.server
  · intro q hq
    rw [hqueued] at hq
    rcases List.mem_append.1 hq with hq | hq
    · exact h.proper q hq
    · obtain ⟨r, hr, rfl⟩ := List.mem_map.1 hq
      obtain ⟨msg, rfl, hshort, hlimit⟩ := hpongs r hr
      exact ⟨Nat.lt_of_le_of_lt hshort (by decide), hlimit, Or.inr (Or.inr ⟨hshort, Or.inr rfl⟩)⟩
  · rw [hwire]

/-- More octets arrive, or `recv_callback` is going to block. -/
theorem Ends.Sound.feed (h : e.Sound p s) {r : RecvResult}
    (hr : ∀ err, r = .fail (some err) → err = 0 ∨ err = Err.wouldblock.code) :
    e.Sound p (feed s r) := by
  obtain ⟨items, rx, d, look, hattends⟩ := h.attends
  refine ⟨?_, ?_, h.role, h.proper, items, rx, d, look, hattends.feed ⟨hattends.runs.quiet.error, ?_⟩⟩
  · exact h.healthy.io ⟨h.healthy.willing.error, h.healthy.willing.sends, h.healthy.willing.masks⟩
      h.healthy.mem
  · obtain ⟨sent, owed, data, ctrl, ha⟩ := h.accounted
    exact ⟨sent, owed, data, ctrl, ha.io rfl rfl⟩
  · intro err herr
    rcases List.mem_append.1 herr with herr | herr
    · exact hattends.runs.quiet.recvs err herr
    · exact hr err (List.mem_singleton.1 herr).symm

theorem Ends.sound_configured (p : Bool) {io : Io} (hio : io.Ready) :
    e.Sound p (configured p (e.callbacks p) false (e.limit p), io) := by
  have hruns := configured_runs p (e.callbacks p) false (e.limit p) hio.calm
  refine ⟨configured_healthy _ _ _ _ hio.willing hio.calm.mem,
    accounted_configured _ _ _ _ hio.fresh, rfl, ?_, [], .fresh, .head, [], hruns, ?_, rfl, rfl, ?_⟩
  · intro q hq
    rw [hio.calm.queued] at hq
    cases hq
  · rw [hio.calm.received]
    exact .stop .head []
  · rw [hio.calm.calls]
    rfl

end

/-! ## The system -/

/-- **The invariant of the system.**  Each side is sound, and what has arrived there, what
can be stored next and what is still on its way is what the other side has sent. -/
structure Pair.Sound (e : Ends) (n : Pair) : Prop where
  side : ∀ p, e.Sound p (n.side p)
  fifo : ∀ p, (n.side p).2.received ++ (pendingOctets (n.side p).2.recvs ++ n.flight p) =
    (n.side !p).2.wire

/-- The result of a call. -/
def Pair.result (n : Pair) : Happening → Int
  | .call p op => (step (n.side p) op).1
  | _ => 0

theorem pendingOctets_append (recvs : List RecvResult) (r : RecvResult) :
    pendingOctets (recvs ++ [r]) = pendingOctets recvs ++ pendingOctets [r] := by
  unfold pendingOctets
  exact List.flatMap_append ..

section

variable {e : Ends} {n : Pair}

/-- A call of one side, and what the other side sees of it. -/
theorem Pair.Sound.call (h : n.Sound e) {p : Bool} {s' : EventContext × Io}
    (hs : e.Steps p (n.side p) s') :
    Pair.Sound e ⟨Function.update n.side p s',
      Function.update n.flight (!p) (n.flight (!p) ++ n.sent p s')⟩ := by
  have hother : (!p) ≠ p := Bool.not_ne_self p
  refine ⟨?_, ?_⟩
  · intro q
    by_cases hq : q = p
    · subst hq
      simp only [Function.update_self]
      exact hs.sound
    · simp only [Function.update_of_ne hq]
      exact h.side q
  · intro q
    by_cases hq : q = p
    · subst hq
      simp only [Function.update_self, Function.update_of_ne hother,
        Function.update_of_ne hother.symm]
      rw [← List.append_assoc, hs.input, List.append_assoc]
      exact h.fifo q
    · obtain rfl : q = !p := Bool.eq_not_of_ne hq
      simp only [Bool.not_not, Function.update_self, Function.update_of_ne hother]
      have hfifo := h.fifo (!p)
      rw [Bool.not_not] at hfifo
      rw [← List.append_assoc, ← List.append_assoc, List.append_assoc _ _ (n.flight _), hfifo]
      obtain ⟨added, hadded⟩ := hs.grows
      rw [Pair.sent, ← hadded, List.drop_left]

/-- Something becomes available to `recv_callback` on the side `p`. -/
theorem Pair.Sound.feed (h : n.Sound e) {p : Bool} {r : RecvResult} {rest : List UInt8}
    (hr : ∀ err, r = .fail (some err) → err = 0 ∨ err = Err.wouldblock.code)
    (hrest : n.flight p = pendingOctets [r] ++ rest) :
    Pair.Sound e ⟨Function.update n.side p (feed (n.side p) r), Function.update n.flight p rest⟩ := by
  have hother : (!p) ≠ p := Bool.not_ne_self p
  refine ⟨?_, ?_⟩
  · intro q
    by_cases hq : q = p
    · subst hq
      simp only [Function.update_self]
      exact (h.side q).feed hr
    · simp only [Function.update_of_ne hq]
      exact h.side q
  · intro q
    by_cases hq : q = p
    · subst hq
      simp only [Function.update_self, Function.update_of_ne hother]
      have hfifo := h.fifo q
      rw [hrest, ← List.append_assoc (pendingOctets _), ← pendingOctets_append] at hfifo
      exact hfifo
    · obtain rfl : q = !p := Bool.eq_not_of_ne hq
      simp only [Bool.not_not, Function.update_self, Function.update_of_ne hother]
      have hfifo := h.fifo (!p)
      rw [Bool.not_not] at hfifo
      exact hfifo

/-- **One step keeps the invariant, and no call fails.** -/
theorem Pair.Sound.next (he : e.Ok) (h : n.Sound e) {x : Happening} (hx : x.Proper e) :
    (n.next x).Sound e ∧ n.result x = 0 := by
  cases x with
  | call p op =>
    cases op with
    | recv =>
      obtain ⟨hzero, hstep⟩ := (h.side p).recv he (h.side !p) (h.fifo p)
      exact ⟨h.call hstep, hzero⟩
    | call a =>
      cases a with
      | queueMsg arg =>
        obtain ⟨hzero, hstep⟩ := (h.side p).queueMsg hx
        exact ⟨h.call hstep, hzero⟩
      | queueFragmentedMsg arg =>
        obtain ⟨hzero, hstep⟩ := (h.side p).queueFragmentedMsg hx
        exact ⟨h.call hstep, hzero⟩
      | send =>
        obtain ⟨hzero, hstep⟩ := (h.side p).send
        exact ⟨h.call hstep, hzero⟩
      | queueClose code reason => exact hx.elim
      | setError val => exact hx.elim
      | shutdownRead => exact hx.elim
      | shutdownWrite => exact hx.elim
  | arrive p k =>
    refine ⟨h.feed ?_ ?_, rfl⟩
    · intro err herr
      cases herr
    · rw [show pendingOctets [.data ((n.flight p).take k)] = (n.flight p).take k from
        List.append_nil _]
      exact (List.take_append_drop k (n.flight p)).symm
  | stall p =>
    refine ⟨?_, rfl⟩
    have hblock : ∀ err, RecvResult.fail (some Err.wouldblock.code) = .fail (some err) →
        err = 0 ∨ err = Err.wouldblock.code := by
      intro err herr
      cases herr
      exact Or.inr rfl
    have hnext := h.feed hblock (rfl : n.flight p = _)
    rw [Function.update_eq_self] at hnext
    exact hnext

/-- **A run keeps the invariant.** -/
theorem Pair.Sound.run (he : e.Ok) (h : n.Sound e) {hs : List Happening}
    (hproper : ∀ x ∈ hs, x.Proper e) : (n.run hs).Sound e := by
  induction hs generalizing n with
  | nil => exact h
  | cons x hs ih =>
    have hnext := (h.next he (hproper x (List.mem_cons_self ..))).1
    exact ih hnext fun y hy => hproper y (List.mem_cons_of_mem _ hy)

theorem Ends.sound_start {io : Bool → Io} (hio : ∀ p, (io p).Ready) : (e.start io).Sound e := by
  refine ⟨fun p => e.sound_configured p (hio p), ?_⟩
  intro p
  change (io p).received ++ (pendingOctets (io p).recvs ++ []) = (io !p).wire
  rw [(hio p).calm.received, (hio p).nothing, (hio !p).fresh.wire]
  rfl

/-! ## What is delivered -/

/-- What one side has delivered, and what the other has queued. -/
theorem Pair.Sound.delivered (he : e.Ok) (h : n.Sound e) (p : Bool) :
    (n.side p).2.deliveredData <+: (n.side !p).2.queuedData.filterMap EventOmsg.message ∧
      (n.side p).2.deliveredCtrl <+: (n.side !p).2.queuedCtrl.filterMap EventOmsg.message ∧
      (n.flight p = [] → pendingOctets (n.side p).2.recvs = [] →
        eventWantWrite (n.side !p).1 = false →
        (n.side p).2.deliveredData = (n.side !p).2.queuedData.filterMap EventOmsg.message ∧
          (n.side p).2.deliveredCtrl =
            (n.side !p).2.queuedCtrl.filterMap EventOmsg.message) := by
  obtain ⟨sent, hsent⟩ := (h.side !p).sent
  obtain ⟨items, rx, d, look, hattends⟩ := (h.side p).attends
  obtain ⟨rest, hrest⟩ := hsent.carries.wire
  have hmore : (n.side p).2.received ++ ((pendingOctets (n.side p).2.recvs ++ n.flight p) ++ rest) =
      sent.flatMap Frame.encode := by
    rw [← hrest, ← h.fifo p]
    simp
  obtain ⟨hway, hwhole⟩ := hattends.reads.of_sent rfl (he.set p) (he.limit p) hsent.sendable hmore
  obtain ⟨hdata, hctrl⟩ := Assembly.allMessages_filter Assembly.ok_idle hsent.sendable.legal
    (fun f hf hc => (hsent.sendable.valid f hf).2 (decide_eq_true hc) |>.1)
  unfold Io.deliveredData Io.deliveredCtrl
  rw [hattends.messages (he.set p)]
  refine ⟨?_, ?_, ?_⟩
  · refine (hway.messages.filter isDataMessage).trans ?_
    rw [hdata]
    exact hsent.data
  · refine (hway.messages.filter fun x => !isDataMessage x).trans ?_
    rw [hctrl]
    exact hsent.ctrl
  · intro hflight hpending hwant
    obtain ⟨hwire, halldata, hallctrl⟩ := hsent.all hwant
    have hnone : (pendingOctets (n.side p).2.recvs ++ n.flight p) ++ rest = [] := by
      rw [hwire, ← List.append_nil (sent.flatMap Frame.encode)] at hrest
      rw [hflight, hpending]
      simpa using hrest
    rw [hwhole hnone hattends.runs.listens.ready.ok hattends.waits, hdata, hctrl]
    exact ⟨halldata, hallctrl⟩

end

/-! ## The results -/

/-- **Nothing is lost, repeated or brought out of order.**  Whatever the interleaving of
the calls on both sides and however the octets arrive, at every moment the data messages
that one side has delivered are the first of those that the other side has queued, and so
are the control messages, the automatic Pongs included. -/
theorem pair_delivers_in_order (e : Ends) (he : e.Ok) (io : Bool → Io) (hio : ∀ p, (io p).Ready)
    (hs : List Happening) (hproper : ∀ x ∈ hs, x.Proper e) (p : Bool) :
    let n := (e.start io).run hs
    (n.side p).2.deliveredData <+: (n.side !p).2.queuedData.filterMap EventOmsg.message ∧
      (n.side p).2.deliveredCtrl <+: (n.side !p).2.queuedCtrl.filterMap EventOmsg.message := by
  intro n
  have hn : n.Sound e := (e.sound_start hio).run he hproper
  obtain ⟨hdata, hctrl, -⟩ := hn.delivered he p
  exact ⟨hdata, hctrl⟩

/-- **No call fails, and neither side ever stops.** -/
theorem pair_never_fails (e : Ends) (he : e.Ok) (io : Bool → Io) (hio : ∀ p, (io p).Ready)
    (hs : List Happening) (x : Happening) (hproper : ∀ y ∈ hs ++ [x], y.Proper e) :
    ((e.start io).run hs).result x = 0 ∧ ∀ p,
      let s := ((e.start io).run (hs ++ [x])).side p
      s.1.readEnabled = true ∧ s.1.writeEnabled = true ∧ s.1.closeStatus.queued = false := by
  have hn := (e.sound_start hio).run he
    (fun y hy => hproper y (List.mem_append_left _ hy) : ∀ y ∈ hs, y.Proper e)
  have hn' := (e.sound_start hio).run he hproper
  refine ⟨(hn.next he (hproper x (by simp))).2, ?_⟩
  intro p s
  obtain ⟨items, rx, d, look, hattends⟩ := (hn'.side p).attends
  exact ⟨hattends.runs.enabled, (hn'.side p).healthy.enabled, (hn'.side p).healthy.unclosed⟩

/-- **Everything is delivered in the end.**  When one side has nothing left to send, and
nothing is on its way to the other and nothing is left there to be received, then the
other side has delivered all that has been queued. -/
theorem pair_delivers_all (e : Ends) (he : e.Ok) (io : Bool → Io) (hio : ∀ p, (io p).Ready)
    (hs : List Happening) (hproper : ∀ x ∈ hs, x.Proper e) (p : Bool) :
    let n := (e.start io).run hs
    n.flight p = [] → pendingOctets (n.side p).2.recvs = [] →
      eventWantWrite (n.side !p).1 = false →
      (n.side p).2.deliveredData = (n.side !p).2.queuedData.filterMap EventOmsg.message ∧
        (n.side p).2.deliveredCtrl = (n.side !p).2.queuedCtrl.filterMap EventOmsg.message := by
  intro n
  have hn : n.Sound e := (e.sound_start hio).run he hproper
  exact (hn.delivered he p).2.2

/-! ## A conversation -/

/-- Two sides that take messages of 100 octets. -/
def talkers : Ends := ⟨fun _ => ⟨false, false, false, true⟩, fun _ => 100⟩

/-- The client sends its text in two fragments, of which a `send_callback` takes a part
at a time, and a Ping comes between them. -/
def talkersIo (p : Bool) : Io :=
  if p then { sends := List.replicate 4 (.accept 100) }
  else { sends := .accept 6 :: .accept 1 :: List.replicate 9 (.accept 100),
         masks := [some ⟨1, 2, 3, 4⟩, some ⟨5, 6, 7, 8⟩, some ⟨9, 10, 11, 12⟩] }

theorem no_octets_fit : ([] : List UInt8).length ≤ 4096 := Nat.zero_le _

/-- The client queues, sends and pings; the server receives in portions and answers. -/
def conversation : List Happening :=
  [.call false (.call (.queueFragmentedMsg ⟨textFrame, [.data [0x41, 0xc3] false (by decide),
      .data [] false no_octets_fit, .data [0xa9] true (by decide)]⟩)),
    .call false (.call .send), .call false (.call (.queueMsg ⟨ping, [7]⟩)), .arrive true 5,
    .call true .recv, .call false (.call .send), .call false (.call .send), .stall true,
    .arrive true 100, .call true .recv, .call true .recv, .call true (.call .send),
    .arrive false 100, .call false .recv]

theorem talkers_ok : talkers.Ok := ⟨fun _ => rfl, fun _ => (by decide : 100 < 2 ^ 64)⟩

theorem talkersIo_ready (p : Bool) : (talkersIo p).Ready := by
  have haccepts : ∀ r ∈ (talkersIo p).sends, ∃ n, r = .accept n := by
    intro r hr
    cases p with
    | true => exact ⟨100, (List.mem_replicate.1 hr).2⟩
    | false =>
      rcases List.mem_cons.1 hr with rfl | hr
      · exact ⟨6, rfl⟩
      · rcases List.mem_cons.1 hr with rfl | hr
        · exact ⟨1, rfl⟩
        · exact ⟨100, (List.mem_replicate.1 hr).2⟩
  have hrecvs : (talkersIo p).recvs = [] := by cases p <;> rfl
  have herror : (talkersIo p).error = 0 := by cases p <;> rfl
  refine ⟨⟨?_, ?_, ⟨Or.inl herror, ?_⟩, ?_, ?_, ?_⟩, ⟨?_, ?_, ?_, ?_, ?_, ?_⟩,
    ⟨Or.inl herror, ?_, ?_⟩, ?_⟩
  case refine_3 =>
    intro err herr
    rw [hrecvs] at herr
    cases herr
  case refine_13 =>
    intro r hr
    obtain ⟨n, rfl⟩ := haccepts r hr
    trivial
  case refine_15 => rw [hrecvs]; rfl
  all_goals cases p <;> first | rfl | (unfold Io.MemOk; decide) | decide

theorem conversation_proper : ∀ x ∈ conversation, x.Proper talkers := by
  have htext : (QueuedMsg.fragmented ⟨textFrame, [.data [0x41, 0xc3] false (by decide),
      .data [] false no_octets_fit, .data [0xa9] true (by decide)]⟩).Proper 100 100 := by
    refine ⟨?_, [0x41, 0xc3, 0xa9], rfl, by decide, Or.inl ⟨rfl, by decide⟩⟩
    intro r hr
    simp only [List.mem_cons, List.not_mem_nil, or_false] at hr
    rcases hr with rfl | rfl | rfl <;> trivial
  have hping : (QueuedMsg.msg ⟨ping, [7]⟩).Proper 100 100 :=
    ⟨by decide, by decide, Or.inr (Or.inr ⟨by decide, Or.inl ⟨rfl, by decide⟩⟩)⟩
  intro x hx
  simp only [conversation, List.mem_cons, List.not_mem_nil, or_false] at hx
  rcases hx with rfl | rfl | rfl | rfl | rfl | rfl | rfl | rfl | rfl | rfl | rfl | rfl | rfl | rfl
  · exact htext
  · trivial
  · exact hping
  all_goals trivial

/-- What the server has of the client. -/
theorem pair_delivers_in_order_conversation :
    let n := (talkers.start talkersIo).run conversation
    (n.side true).2.deliveredData <+: (n.side false).2.queuedData.filterMap EventOmsg.message ∧
      (n.side true).2.deliveredCtrl <+: (n.side false).2.queuedCtrl.filterMap EventOmsg.message :=
  pair_delivers_in_order talkers talkers_ok talkersIo talkersIo_ready conversation
    conversation_proper true

/-- After the conversation, the server can send once more. -/
theorem pair_never_fails_conversation :
    let n := (talkers.start talkersIo).run conversation
    n.result (.call true (.call .send)) = 0 ∧ ∀ p,
      let s := ((talkers.start talkersIo).run (conversation ++ [.call true (.call .send)])).side p
      s.1.readEnabled = true ∧ s.1.writeEnabled = true ∧ s.1.closeStatus.queued = false :=
  pair_never_fails talkers talkers_ok talkersIo talkersIo_ready conversation
    (.call true (.call .send)) (by
      intro x hx
      rcases List.mem_append.1 hx with hx | hx
      · exact conversation_proper x hx
      · rw [List.mem_singleton.1 hx]
        trivial)

/-- The text and the Ping of the client have arrived. -/
theorem pair_delivers_all_conversation :
    let n := (talkers.start talkersIo).run conversation
    (n.side true).2.deliveredData = (n.side false).2.queuedData.filterMap EventOmsg.message ∧
      (n.side true).2.deliveredCtrl =
        (n.side false).2.queuedCtrl.filterMap EventOmsg.message :=
  pair_delivers_all talkers talkers_ok talkersIo talkersIo_ready conversation
    conversation_proper true (by decide +kernel) (by decide +kernel) (by decide +kernel)

end Wslay
