import Wslay.Event.Send
import Wslay.Frame.Encoding

/-!
# What one pass of `wslay_event_send` does

Seen from outside, the sender has two queues and one message in hand, and of
the frame in progress it owes the network some octets (`Hand`).

* `Outline`, `plans` — the frames that queued messages are going to be sent in.
* `Holds` — the states of the code that stand for a `Hand`.
* `sendPick_spec` — the message that a pass chooses.
* `sendOmsg_spec` — what is sent of it: a front of what is owed and of the one
  frame that may be begun.
* `eventSend_isSome` — the loop ends.
-/

namespace Wslay

open Octets (Key)
open Loop (Step)

/-! ## Outlines of frames -/

/-- A frame before there is a key for it. -/
structure Outline where
  fin : Bool
  opcode : Fin 16
  payload : List UInt8
  deriving DecidableEq, Repr

theorem wireOpcode_lt (opcode : UInt8) : opcode.toNat % 16 < 16 := Nat.mod_lt _ (by decide)

/-- The opcode bits of an octet. -/
def wireOpcode (opcode : UInt8) : Fin 16 := ⟨opcode.toNat % 16, wireOpcode_lt opcode⟩

/-- The frame with this outline and key. -/
def Outline.frame (o : Outline) (key : Option Key) : Frame := ⟨o.fin, 0, o.opcode, key, o.payload⟩

/-- The outline of a frame. -/
def Frame.outline (f : Frame) : Outline := ⟨f.fin, f.opcode, f.payload⟩

@[simp] theorem outline_frame (o : Outline) (key : Option Key) : (o.frame key).outline = o := rfl

/-- Is this the outline of a control frame? -/
def Outline.isCtrl (o : Outline) : Bool := decide (8 ≤ o.opcode.val)

theorem isCtrlFrame_eq (opcode : UInt8) :
    isCtrlFrame opcode = decide (8 ≤ (wireOpcode opcode).val) := by
  revert opcode
  apply forall_octet
  decide +kernel

/-- The outline of a message that is sent in one frame. -/
def EventOmsg.outline (m : EventOmsg) : Outline := ⟨true, wireOpcode m.opcode, m.data⟩

theorem EventOmsg.outline_isCtrl (m : EventOmsg) : m.outline.isCtrl = isCtrlFrame m.opcode :=
  (isCtrlFrame_eq m.opcode).symm

/-- The fragments that a source gives, the first of them with the given opcode,
and `later` after the last one. -/
def fragments (opcode : UInt8) : List ReadResult → List Outline → List Outline
  | [], _ => []
  | .fail _ :: _, _ => []
  | .data bs eof _ :: rs, later =>
    if bs = [] then fragments opcode rs later
    else if eof then ⟨true, wireOpcode opcode, bs⟩ :: later
    else ⟨false, wireOpcode opcode, bs⟩ :: fragments continuationFrame rs later

/-- The frames of a message, and `later` after them. -/
def EventOmsg.plan (m : EventOmsg) (later : List Outline) : List Outline :=
  match m.type with
  | .nonFragmented => m.outline :: later
  | .fragmented => fragments m.opcode m.source later

/-- The frames of some messages, and `later` after them. -/
def plans (ms : List EventOmsg) (later : List Outline) : List Outline :=
  ms.foldr EventOmsg.plan later

theorem plans_append (ms ms' : List EventOmsg) (later : List Outline) :
    plans (ms ++ ms') later = plans ms (plans ms' later) := by
  rw [plans, List.foldr_append]
  rfl

/-! ## The message in hand -/

/-- What the sender has in hand. -/
inductive Hand where
  /-- No message. -/
  | empty
  /-- A message that is sent in one frame, not begun. -/
  | start (m : EventOmsg)
  /-- A fragmented message, between two fragments or before the first. -/
  | between (m : EventOmsg)
  /-- A message that is sent in one frame, of which `owed` is still to be sent. -/
  | whole (m : EventOmsg) (owed : List UInt8)
  /-- A fragmented message, with a fragment of which `owed` is still to be sent. -/
  | fragment (m : EventOmsg) (owed : List UInt8)
  deriving DecidableEq, Repr

namespace Hand

/-- The octets of the frame in progress that are still to be sent. -/
def owed : Hand → List UInt8
  | whole _ owed => owed
  | fragment _ owed => owed
  | _ => []

/-- The data frames that the message still needs, and `later` after them. -/
def data : Hand → List Outline → List Outline
  | start m, later => if isCtrlFrame m.opcode then later else m.outline :: later
  | between m, later => fragments m.opcode m.source later
  | fragment m _, later =>
    if m.fin ≠ 0 then later else fragments continuationFrame m.source later
  | _, later => later

/-- The control frames that the message still needs. -/
def ctrl : Hand → List Outline
  | start m => if isCtrlFrame m.opcode then [m.outline] else []
  | _ => []

/-- The message that goes back to its queue when it is preempted. -/
def back : Hand → List EventOmsg
  | start m => [m]
  | between m => [m]
  | _ => []

/-- No frame is in progress, and no control frame is about to begin. -/
def Preemptible : Hand → Prop
  | empty => True
  | start m => isCtrlFrame m.opcode = false
  | between _ => True
  | _ => False

/-- The sender is in one of the states that it can be in between two passes. -/
def Settled : Hand → Prop
  | start _ => False
  | _ => True

/-- A frame in progress is not complete. -/
def Owes : Hand → Prop
  | whole _ owed => owed ≠ []
  | fragment _ owed => owed ≠ []
  | _ => True

/-- The message. -/
def msg? : Hand → Option EventOmsg
  | empty => none
  | start m => some m
  | between m => some m
  | whole m _ => some m
  | fragment m _ => some m

/-- The message is a Close. -/
def IsClose : Hand → Prop
  | start m => m.opcode = connectionClose
  | whole m _ => m.opcode = connectionClose
  | _ => False

end Hand

/-- The `read_callback` does not fail. -/
def ReadResult.IsData : ReadResult → Prop
  | .data .. => True
  | .fail _ => False

/-- Nothing about this message stands in the way of sending it. -/
def EventOmsg.Fine (m : EventOmsg) : Prop := m.data.length < 2 ^ 63 ∧ ∀ r ∈ m.source, r.IsData

/-- Nothing about the message in hand stands in the way of sending it. -/
def Hand.Fine (h : Hand) : Prop := ∀ m, h.msg? = some m → m.Fine

/-- A message fit to be in the control queue. -/
def EventOmsg.FitCtrl (m : EventOmsg) : Prop :=
  m.type = .nonFragmented ∧ m.fin = 1 ∧ isCtrlFrame m.opcode = true ∧ m.data.length ≤ 125

/-- A message fit to be in the data queue. -/
def EventOmsg.FitData (m : EventOmsg) : Prop :=
  isCtrlFrame m.opcode = false ∧
    (m.type = .nonFragmented ∧ m.fin = 1 ∨ m.type = .fragmented ∧ m.fin = 0)

/-- A message that is sent in one frame, fit to be in hand. -/
def EventOmsg.FitWhole (m : EventOmsg) : Prop :=
  m.type = .nonFragmented ∧ m.fin = 1 ∧ (isCtrlFrame m.opcode = true → m.data.length ≤ 125)

/-- The code has this in hand. -/
inductive Holds (c : EventContext) : Hand → Prop
  | empty : c.omsg = none → c.frameCtx.ostate = .prepHeader → c.obuf = [] → c.obufmark = 0 →
      Holds c .empty
  | start (m : EventOmsg) : c.omsg = some m → m.FitWhole → c.frameCtx.ostate = .prepHeader →
      c.opayloadlen = m.data.length → c.opayloadoff = 0 → c.obuf = [] → c.obufmark = 0 →
      Holds c (.start m)
  | between (m : EventOmsg) : c.omsg = some m → m.type = .fragmented → m.fin = 0 →
      isCtrlFrame m.opcode = false → c.frameCtx.ostate = .prepHeader →
      c.obuf = [] → c.obufmark = 0 → Holds c (.between m)
  | whole (m : EventOmsg) (hrest : List UInt8) : c.omsg = some m → m.FitWhole →
      EncView c.frameCtx (.busy m.data.length hrest c.opayloadoff) →
      c.opayloadlen = m.data.length → c.obuf = [] → c.obufmark = 0 →
      Holds c (.whole m (hrest ++ maskWith c.frameCtx.effKey c.opayloadoff
        (m.data.drop c.opayloadoff)))
  | fragment (m : EventOmsg) (hrest : List UInt8) : c.omsg = some m → m.type = .fragmented →
      m.fin = 0 ∨ m.fin = 1 → isCtrlFrame m.opcode = false →
      EncView c.frameCtx (.busy c.obuf.length hrest c.obufmark) → c.obufmark < c.obuf.length →
      c.opayloadlen = c.obuf.length →
      Holds c (.fragment m (hrest ++ maskWith c.frameCtx.effKey c.obufmark
        (c.obuf.drop c.obufmark)))

/-- The queues hold what belongs there, and a server has not used a key. -/
structure QueuesFit (c : EventContext) : Prop where
  ctrl : ∀ m ∈ c.sendCtrlQueue, m.FitCtrl
  data : ∀ m ∈ c.sendQueue, m.FitData
  role : c.server = true → c.frameCtx.effKey = none

/-! ## Choosing the message -/

/-- Some messages have been released unsent. -/
def Io.release (io : Io) (ms : List EventOmsg) : Io :=
  { io with discarded := io.discarded ++ ms.map fun m => ⟨m.opcode, m.data⟩ }

/-- The context with `m` taken in hand. -/
def EventContext.pick (c : EventContext) (m : EventOmsg) : EventContext :=
  if m.type = .nonFragmented then eventOnNonFragmentedMsgPopped c m else { c with omsg := some m }

/-- The hand that has just picked up `m`. -/
def Hand.ofMsg (m : EventOmsg) : Hand := if m.type = .nonFragmented then .start m else .between m

/-- Taking `m` off the control queue releases `dropped` and leaves `rest`. -/
def PopsCtrl (c : EventContext) (dropped : List EventOmsg) (m : EventOmsg)
    (rest : List EventOmsg) : Prop :=
  c.sendCtrlQueue = dropped ++ m :: rest ∧
    (c.closeStatus.queued = false ∧ dropped = [] ∨
      c.closeStatus.queued = true ∧ m.opcode = connectionClose ∧
        ∀ d ∈ dropped, d.opcode ≠ connectionClose)

theorem popClose_spec (ms : List EventOmsg) :
    (∃ dropped m rest, ms = dropped ++ m :: rest ∧ m.opcode = connectionClose ∧
      (∀ d ∈ dropped, d.opcode ≠ connectionClose) ∧ popClose ms = (some m, rest, dropped)) ∨
    (∀ m ∈ ms, m.opcode ≠ connectionClose) ∧ popClose ms = (none, [], ms) := by
  induction ms with
  | nil => exact Or.inr ⟨by simp, rfl⟩
  | cons m ms ih =>
    unfold popClose
    by_cases hclose : m.opcode = connectionClose
    · rw [if_pos hclose]
      exact Or.inl ⟨[], m, ms, rfl, hclose, by simp, rfl⟩
    · rw [if_neg hclose]
      rcases ih with ⟨dropped, m', rest, rfl, hm', hd, hpop⟩ | ⟨hno, hpop⟩
      · refine Or.inl ⟨m :: dropped, m', rest, rfl, hm', ?_, by rw [hpop]⟩
        intro d hmem
        rcases List.mem_cons.1 hmem with rfl | hmem
        · exact hclose
        · exact hd d hmem
      · refine Or.inr ⟨?_, by rw [hpop]⟩
        intro d hmem
        rcases List.mem_cons.1 hmem with rfl | hmem
        · exact hclose
        · exact hno d hmem

/-- `wslay_event_send_ctrl_queue_pop` takes a message off the queue, unless a
Close is to be sent and there is none. -/
theorem eventSendCtrlQueuePop_spec {c : EventContext} (hne : c.sendCtrlQueue ≠ []) (io : Io) :
    (∃ dropped m rest, PopsCtrl c dropped m rest ∧
      eventSendCtrlQueuePop c io = (some m, { c with sendCtrlQueue := rest }, io.release dropped)) ∨
    (c.closeStatus.queued = true ∧ (∀ m ∈ c.sendCtrlQueue, m.opcode ≠ connectionClose) ∧
      eventSendCtrlQueuePop c io =
        (none, { c with sendCtrlQueue := [] }, io.release c.sendCtrlQueue)) := by
  unfold eventSendCtrlQueuePop
  cases hq : c.closeStatus.queued with
  | true =>
    rw [if_pos rfl]
    rcases popClose_spec c.sendCtrlQueue with ⟨dropped, m, rest, hsplit, hm, hd, hpop⟩ | ⟨hno, hpop⟩
    · exact Or.inl ⟨dropped, m, rest, ⟨hsplit, Or.inr ⟨hq, hm, hd⟩⟩, by rw [hpop]; rfl⟩
    · exact Or.inr ⟨rfl, hno, by rw [hpop]; rfl⟩
  | false =>
    rw [if_neg (by simp)]
    obtain ⟨m, rest, hctrl⟩ := List.exists_cons_of_ne_nil hne
    refine Or.inl ⟨[], m, rest, ⟨hctrl, Or.inl ⟨hq, rfl⟩⟩, ?_⟩
    rw [hctrl, Io.release, List.map_nil, List.append_nil]
    rfl

/-- What the first part of a pass can do, with `h` in hand. -/
inductive Picks (c : EventContext) (io : Io) (h : Hand) : Step (EventContext × Io) Int → Prop
  /-- There is nothing to send. -/
  | idle : h = .empty → c.sendCtrlQueue = [] → c.sendQueue = [] → Picks c io h (.leave 0 (c, io))
  /-- It goes on with the message in hand. -/
  | keep : h ≠ .empty → (h.Preemptible → c.sendCtrlQueue = []) → Picks c io h (.again (c, io))
  /-- It takes up a data message. -/
  | data (m : EventOmsg) (ms : List EventOmsg) : h = .empty → c.sendCtrlQueue = [] →
      c.sendQueue = m :: ms → Picks c io h (.again ({ c with sendQueue := ms }.pick m, io))
  /-- It takes up a control message, and puts back what it had in hand. -/
  | ctrl (dropped : List EventOmsg) (m : EventOmsg) (rest : List EventOmsg) (io' : Io) :
      h.Preemptible → PopsCtrl c dropped m rest → io.Allocates io' →
      Picks c io h (.again ({ c with
        sendQueue := h.back ++ c.sendQueue, sendCtrlQueue := rest }.pick m, io'.release dropped))
  /-- A Close should be in the queue, but none is. -/
  | noClose (io' : Io) : h.Preemptible → c.closeStatus.queued = true →
      (∀ m ∈ c.sendCtrlQueue, m.opcode ≠ connectionClose) → io.Allocates io' →
      Picks c io h (.leave 0 ({ c with
        omsg := none, sendQueue := h.back ++ c.sendQueue, sendCtrlQueue := [] },
        io'.release c.sendCtrlQueue))
  /-- There is no memory to put back what it had in hand. -/
  | noMem (io' : Io) : io.Allocates io' → ¬ io.MemOk →
      Picks c io h (.leave 1 ({ c with writeEnabled := false }, io'))

theorem Holds.omsg_eq_none {c : EventContext} {h : Hand} (hh : Holds c h) :
    c.omsg = none ↔ h = .empty := by
  cases hh <;> simp [*]

/-- Only between frames may what is in hand be preempted. -/
theorem Holds.preemptible {c : EventContext} {h : Hand} (hh : Holds c h) {m : EventOmsg}
    (homsg : c.omsg = some m) :
    (isCtrlFrame m.opcode = false ∧ c.frameCtx.ostate = .prepHeader ↔ h.Preemptible) ∧
      (h.Preemptible → h.back = [m]) := by
  have hbusy : ∀ len hrest off, EncView c.frameCtx (.busy len hrest off) →
      c.frameCtx.ostate ≠ .prepHeader := by
    intro len hrest off hv
    cases hv with
    | header _ _ h => rw [h]; simp
    | payload _ _ h => rw [h]; simp
  cases hh with
  | empty h1 => rw [h1] at homsg; cases homsg
  | start m' h1 hfit hstate =>
    rw [h1] at homsg
    cases homsg
    simp [Hand.Preemptible, Hand.back, hstate]
  | between m' h1 htype hfin hdata hstate =>
    rw [h1] at homsg
    cases homsg
    simp [Hand.Preemptible, Hand.back, hstate, hdata]
  | whole m' hrest h1 hfit hv => simp [Hand.Preemptible, hbusy _ _ _ hv]
  | fragment m' hrest h1 htype hfin hdata hv => simp [Hand.Preemptible, hbusy _ _ _ hv]

/-- **The message a pass chooses.** -/
theorem sendPick_spec {c : EventContext} {h : Hand} (hh : Holds c h) (hfit : QueuesFit c)
    (io : Io) : Picks c io h (sendPick c io) := by
  unfold sendPick
  cases homsg : c.omsg with
  | none =>
    have hempty := hh.omsg_eq_none.1 homsg
    subst hempty
    simp only
    by_cases hctrl : c.sendCtrlQueue = []
    · rw [if_pos hctrl]
      cases hqueue : c.sendQueue with
      | nil => exact .idle rfl hctrl hqueue
      | cons m ms =>
        have hp : Picks c io .empty _ := .data m ms rfl hctrl hqueue
        simp only
        unfold EventContext.pick at hp
        split_ifs at hp ⊢ <;> exact hp
    · rw [if_neg hctrl]
      rcases eventSendCtrlQueuePop_spec hctrl io with ⟨dropped, m, rest, hpop, heq⟩ |
        ⟨hq, hno, heq⟩
      · have hp := Picks.ctrl (h := .empty) dropped m rest io trivial hpop (.refl io)
        rw [heq]
        simp only
        unfold EventContext.pick at hp
        split_ifs at hp ⊢ <;> exact hp
      · rw [heq]
        exact .noClose io trivial hq hno (.refl io)
  | some m =>
    obtain ⟨hpre, hback⟩ := hh.preemptible homsg
    have hne : h ≠ .empty := fun he => by
      rw [hh.omsg_eq_none.2 he] at homsg
      cases homsg
    simp only
    by_cases hcond : (!isCtrlFrame m.opcode && decide (c.frameCtx.ostate = .prepHeader) &&
        decide (c.sendCtrlQueue ≠ [])) = true
    · rw [if_pos hcond]
      simp only [Bool.and_eq_true, Bool.not_eq_true', decide_eq_true_eq] at hcond
      obtain ⟨hboundary, hctrl⟩ := hcond
      have hpre := hpre.1 hboundary
      have hback := hback hpre
      obtain ⟨ha, hfail⟩ := io.malloc_allocates
      obtain ⟨ok, io₁, hm⟩ : ∃ ok io₁, io.malloc = (ok, io₁) := ⟨_, _, rfl⟩
      rw [hm] at ha hfail ⊢
      cases ok with
      | false =>
        have hp := Picks.noMem (c := c) (h := h) io₁ ha fun hok => hok (hfail rfl)
        rw [homsg] at hp
        exact hp
      | true =>
        have hctrl' : ({ c with sendQueue := m :: c.sendQueue } : EventContext).sendCtrlQueue ≠ [] :=
          hctrl
        simp only
        rcases eventSendCtrlQueuePop_spec hctrl' io₁ with ⟨dropped, m', rest, hpop, heq⟩ |
          ⟨hq, hno, heq⟩
        · have htype : m'.type = .nonFragmented := (hfit.ctrl m' (by
            rw [show c.sendCtrlQueue = _ from hpop.1]
            simp)).1
          have hp := Picks.ctrl (c := c) dropped m' rest io₁ hpre hpop ha
          rw [hback] at hp
          unfold EventContext.pick at hp
          rw [if_pos htype] at hp
          rw [homsg] at heq
          rw [heq]
          exact hp
        · have hp := Picks.noClose (c := c) io₁ hpre hq hno ha
          rw [hback] at hp
          rw [homsg] at heq
          rw [heq]
          exact hp
    · rw [if_neg hcond]
      simp only [Bool.and_eq_true, Bool.not_eq_true', decide_eq_true_eq] at hcond
      refine .keep hne fun hp => ?_
      by_contra hctrl
      exact hcond ⟨hpre.2 hp, hctrl⟩

theorem Holds.atBoundary {c : EventContext} {h : Hand} (hh : Holds c h) (hp : h.Preemptible) :
    c.frameCtx.ostate = .prepHeader ∧ c.obuf = [] ∧ c.obufmark = 0 := by
  cases hh with
  | empty _ hstate hobuf hmark => exact ⟨hstate, hobuf, hmark⟩
  | start _ _ _ hstate _ _ hobuf hmark => exact ⟨hstate, hobuf, hmark⟩
  | between _ _ _ _ _ hstate hobuf hmark => exact ⟨hstate, hobuf, hmark⟩
  | whole => exact hp.elim
  | fragment => exact hp.elim

/-- A message taken from a queue is in hand. -/
theorem holds_pick {c : EventContext} (hstate : c.frameCtx.ostate = .prepHeader)
    (hobuf : c.obuf = []) (hmark : c.obufmark = 0) {m : EventOmsg} (hm : m.FitCtrl ∨ m.FitData) :
    Holds (c.pick m) (Hand.ofMsg m) := by
  have hwhole : m.type = .nonFragmented → m.FitWhole := by
    intro htype
    rcases hm with ⟨h1, h2, -, h4⟩ | ⟨h1, ⟨h2, h3⟩ | ⟨h2, -⟩⟩
    · exact ⟨h1, h2, fun _ => h4⟩
    · exact ⟨h2, h3, fun hc => by rw [h1] at hc; cases hc⟩
    · rw [htype] at h2
      cases h2
  unfold EventContext.pick Hand.ofMsg
  by_cases htype : m.type = .nonFragmented
  · have hfin : ({ m with fin := 1 } : EventOmsg) = m := by
      obtain ⟨fin, opcode, type, data, source⟩ := m
      have := (hwhole htype).2.1
      simp only at this
      rw [this]
    rw [if_pos htype, if_pos htype]
    refine .start m ?_ (hwhole htype) hstate rfl rfl hobuf hmark
    rw [eventOnNonFragmentedMsgPopped, hfin]
  · rw [if_neg htype, if_neg htype]
    rcases hm with ⟨h1, -⟩ | ⟨h1, ⟨h2, -⟩ | ⟨h2, h3⟩⟩
    · exact absurd h1 htype
    · exact absurd h2 htype
    · exact .between m rfl h2 h3 h1 hstate hobuf hmark

/-! ## Driving the encoder -/

/-- A call that is given all the payload that is left completes the frame, or
gets some way, or finds a broken callback. -/
theorem Emits.outcome {f : FrameContext} {io : Io} {len off n : Nat} {hrest data : List UInt8}
    {r : Except Err Nat × FrameContext × Io} (he : Emits f io len hrest off data r n)
    (hlen : off + data.length = len) :
    (r.1 = .ok data.length ∧ r.2.1.ostate = .prepHeader ∧
      Transmits io (hrest ++ maskWith f.effKey off data) r.2.2) ∨
    (∃ k hrest' bs, (r.1 = .ok k ∧ off + k ≠ len ∨ r.1 = .error .wantWrite ∧ k = 0) ∧
      k ≤ data.length ∧ EncView r.2.1 (.busy len hrest' (off + k)) ∧ Transmits io bs r.2.2 ∧
      bs ++ (hrest' ++ maskWith f.effKey (off + k) (data.drop k)) =
        hrest ++ maskWith f.effKey off data) ∨
    (r.1 = .error .invalidCallback ∧ ¬ io.Willing ∧ ∃ bs rest, Transmits io bs r.2.2 ∧
      rest ≠ [] ∧ bs ++ rest = hrest ++ maskWith f.effKey off data) := by
  have htotal : (hrest ++ maskWith f.effKey off data).length = hrest.length + data.length := by
    simp
  have hle := he.le
  rcases he.result with ⟨hbad, hlt⟩ | hres
  · refine Or.inr (Or.inr ⟨hbad, fun hw => (he.willing hw).2 hbad, _, _, he.transmits, ?_,
      List.take_append_drop n _⟩)
    rw [← List.length_pos_iff, List.length_drop]
    omega
  · by_cases hall : n = hrest.length + data.length
    · have hnot : ¬ (n < hrest.length ∨ n = hrest.length ∧ data ≠ []) := by
        rintro (h | ⟨h, hne⟩)
        · omega
        · have := List.length_pos_of_ne_nil hne
          omega
      rw [if_neg hnot, hall, Nat.add_sub_cancel_left] at hres
      have hview := he.view
      rw [Enc.after, if_neg (by omega), if_pos (by omega)] at hview
      refine Or.inl ⟨hres, ?_, ?_⟩
      · cases hview with
        | idle h => exact h
      · have ht := he.transmits
        rwa [hall, ← htotal, List.take_length] at ht
    · refine Or.inr (Or.inl ?_)
      have hview := he.view
      by_cases hheader : n < hrest.length
      · rw [if_pos (Or.inl hheader)] at hres
        rw [Enc.after, if_pos hheader] at hview
        refine ⟨0, hrest.drop n, _, Or.inr ⟨hres, rfl⟩, Nat.zero_le _, hview, he.transmits, ?_⟩
        rw [List.take_append_of_le_length (by omega), ← List.append_assoc, List.take_append_drop]
        rfl
      · rw [Enc.after, if_neg hheader, if_neg (by omega)] at hview
        have hsplit : (hrest ++ maskWith f.effKey off data).take n ++
            ([] ++ maskWith f.effKey (off + (n - hrest.length)) (data.drop (n - hrest.length))) =
            hrest ++ maskWith f.effKey off data := by
          rw [List.take_append, List.take_of_length_le (by omega), List.nil_append,
            ← maskWith_drop, List.append_assoc, List.take_append_drop]
        refine ⟨n - hrest.length, [], _, ?_, by omega, hview, he.transmits, hsplit⟩
        by_cases hblock : n = hrest.length ∧ data ≠ []
        · rw [if_pos (Or.inr hblock)] at hres
          exact Or.inr ⟨hres, by omega⟩
        · rw [if_neg (by rintro (h | h) <;> [exact hheader h; exact hblock h])] at hres
          exact Or.inl ⟨hres, by omega⟩

/-- The ways in which a call of `wslay_frame_send` may end that has `owed` to
put on the wire, the end of a frame of which `data` is the payload from `off` on. -/
inductive Driven (key : Option Key) (io : Io) (len off : Nat) (data owed : List UInt8) :
    Except Err Nat × FrameContext × Io → Prop
  /-- The frame is complete. -/
  | done (f : FrameContext) (io' : Io) : f.ostate = .prepHeader → f.effKey = key →
      io'.wire = io.wire ++ owed → (io.Willing → io'.Willing) →
      Driven key io len off data owed (.ok data.length, f, io')
  /-- Some of it is left. -/
  | part (k : Nat) (hrest bs : List UInt8) (r : Except Err Nat) (f : FrameContext) (io' : Io) :
      r = .ok k ∧ off + k ≠ len ∨ r = .error .wantWrite ∧ k = 0 → k ≤ data.length →
      EncView f (.busy len hrest (off + k)) → f.effKey = key → io'.wire = io.wire ++ bs →
      bs ++ (hrest ++ maskWith key (off + k) (data.drop k)) = owed →
      (io.Willing → io'.Willing) → Driven key io len off data owed (r, f, io')
  /-- A callback has broken its contract. -/
  | broken (e : Err) (bs rest : List UInt8) (f : FrameContext) (io' : Io) : e ≠ .wantWrite →
      ¬ io.Willing → io'.wire = io.wire ++ bs → rest ≠ [] → bs ++ rest = owed →
      Driven key io len off data owed (.error e, f, io')

theorem Emits.driven {f : FrameContext} {io io₁ : Io} {len off n : Nat} {hrest data : List UInt8}
    {r : Except Err Nat × FrameContext × Io} (he : Emits f io₁ len hrest off data r n)
    (hlen : off + data.length = len) (hwire : io₁.wire = io.wire)
    (hwill : io.Willing → io₁.Willing) :
    Driven f.effKey io len off data (hrest ++ maskWith f.effKey off data) r := by
  obtain ⟨res, f', io'⟩ := r
  have hkey := he.key
  have hw : io.Willing → io'.Willing := fun h => (he.willing (hwill h)).1
  rcases he.outcome hlen with ⟨rfl, hstate, ht⟩ | ⟨k, hrest', bs, hres, hk, hview, ht, hsplit⟩ |
    ⟨rfl, hnw, bs, rest, ht, hne, hsplit⟩
  · exact .done f' io' hstate hkey (by rw [ht.wire, hwire]) hw
  · exact .part k hrest' bs res f' io' hres hk hview hkey (by rw [ht.wire, hwire]) hsplit hw
  · exact .broken .invalidCallback bs rest f' io' (by simp) (fun h => hnw (hwill h))
      (by rw [ht.wire, hwire]) hne hsplit

/-- A call that goes on with a frame. -/
theorem frameSend_resume {f : FrameContext} {len off : Nat} {hrest : List UInt8}
    (hv : EncView f (.busy len hrest off)) (iocb : Iocb)
    (hle : iocb.data.length ≤ iocb.payloadLength) (hlen : off + iocb.data.length = len) (io : Io) :
    Driven f.effKey io len off iocb.data (hrest ++ maskWith f.effKey off iocb.data)
      (frameSend f iocb io) := by
  obtain ⟨n, he⟩ := frameSend_busy hv hle (by omega) io
  exact he.driven hlen rfl id

/-- A frame that the event layer may send: no reserved bits, and masked by the
client only. -/
structure Frame.Legit (server : Bool) (f : Frame) : Prop where
  rsv : f.rsv = 0
  valid : f.header.Valid
  mask : f.key.isSome = !server

theorem wire_keyFor (io : Io) (mask : Bool) : (io.keyFor mask).2.wire = io.wire := by
  unfold Io.keyFor Io.genmaskCallback
  cases mask with
  | false => rfl
  | true => cases io.masks <;> rfl

theorem willing_keyFor {io : Io} (mask : Bool) (hw : io.Willing) : (io.keyFor mask).2.Willing := by
  unfold Io.keyFor
  cases mask with
  | false => exact hw
  | true => exact genmask_willing hw

/-- A call that begins a frame, with all of its payload. -/
theorem frameSend_begin {f : FrameContext} {server : Bool} {o : Outline} (iocb : Iocb)
    (hstate : f.ostate = .prepHeader) (hrole : server = true → f.effKey = none)
    (hheader : ∀ key, iocb.header key = (o.frame key).header) (hdata : iocb.data = o.payload)
    (hmask : iocb.mask = !server) (hctrl : isCtrlFrame iocb.opcode = o.isCtrl)
    (hfin : o.isCtrl = true → o.fin = true) (io : Io) :
    (¬ iocb.Sendable ∧ frameSend f iocb io = (.error .invalidArgument, f, io)) ∨
    (∃ io', ¬ io.Willing ∧ io'.wire = io.wire ∧
      frameSend f iocb io = (.error .invalidCallback, f, io')) ∨
    ∃ fr : Frame, fr.outline = o ∧ fr.Legit server ∧
      Driven fr.key io o.payload.length 0 o.payload fr.encode (frameSend f iocb io) := by
  have hlen : iocb.payloadLength = o.payload.length := congrArg Header.length (hheader none)
  rcases frameSend_idle (.idle hstate) (show iocb.data.length ≤ iocb.payloadLength by
      rw [hdata, hlen]) io with
    ⟨hno, heq⟩ | ⟨hyes, ⟨hnw, -, heq⟩ | ⟨hsome, n, he⟩⟩
  · exact Or.inl ⟨hno, heq⟩
  · exact Or.inr (Or.inl ⟨_, hnw, wire_keyFor io iocb.mask, heq⟩)
  · refine Or.inr (Or.inr ⟨o.frame (io.keyFor iocb.mask).1, rfl, ⟨rfl, ?_, ?_⟩, ?_⟩)
    · refine ⟨by rw [Frame.header_length]; exact hlen ▸ hyes.1, fun hc => ?_⟩
      exact ⟨hfin hc, by rw [Frame.header_length]; exact hlen ▸ hyes.2 (hctrl.trans hc)⟩
    · exact hsome.trans hmask
    · have hkey : (f.prepared iocb (io.keyFor iocb.mask).1).effKey = (io.keyFor iocb.mask).1 := by
        rw [FrameContext.effKey_prepared]
        by_cases hs : (io.keyFor iocb.mask).1.isSome = true
        · rw [if_pos hs]
        · rw [if_neg hs]
          rw [hsome, hmask] at hs
          rw [hrole (by simpa using hs)]
          rw [← hmask, ← hsome] at hs
          exact (Option.not_isSome_iff_eq_none.1 hs).symm
      have hd := he.driven (by rw [hdata, hlen, Nat.zero_add]) (wire_keyFor io iocb.mask)
        (willing_keyFor iocb.mask)
      rw [hkey, hheader, hdata, hlen] at hd
      exact hd

/-! ## Sending the message in hand -/

/-- What is true after the second part of a pass, which leaves `h'` in hand.
`close` says whether the message sent was a Close, and `ok` whether the callbacks
have kept their contracts. -/
structure After (c : EventContext) (ok close : Prop) (h' : Hand)
    (x : Step (EventContext × Io) Int) : Prop where
  sendQueue : x.state.1.sendQueue = c.sendQueue
  sendCtrlQueue : x.state.1.sendCtrlQueue = c.sendCtrlQueue
  server : x.state.1.server = c.server
  queued : x.state.1.closeStatus.queued = c.closeStatus.queued
  alive : x.state.1.writeEnabled = true → c.writeEnabled = true ∧ Holds x.state.1 h' ∧
    h'.Settled ∧ (c.server = true → x.state.1.frameCtx.effKey = none)
  owes : h'.Owes
  isClose : close → h'.IsClose ∧ x.state.1.closeStatus.sent = c.closeStatus.sent ∨
    h' = .empty ∧ x.state.1.closeStatus.sent = true ∧ x.state.1.writeEnabled = false
  notClose : ¬ close → ¬ h'.IsClose ∧ x.state.1.closeStatus.sent = c.closeStatus.sent
  good : ok → x.state.2.Willing ∧ (∀ r t, x = .leave r t → r = 0) ∧
    (¬ close → x.state.1.writeEnabled = c.writeEnabled)

/-- A fatal error ends sending. -/
theorem sendFrameError_fatal {e : Err} {c : EventContext} {io : Io}
    (h : e ≠ .wantWrite ∨ (io.error ≠ Err.wouldblock.code ∧ io.error ≠ 0)) :
    sendFrameError e c io =
      .leave Err.callbackFailure.code ({ c with writeEnabled := false }, io) := by
  rw [sendFrameError, if_pos h]

/-- After a fatal error what is in hand stays there. -/
theorem After.fatal {c c' : EventContext} {ok close : Prop} {h' : Hand} {r : Int} {io : Io}
    (hqueue : c'.sendQueue = c.sendQueue) (hctrl : c'.sendCtrlQueue = c.sendCtrlQueue)
    (hserver : c'.server = c.server) (hstatus : c'.closeStatus = c.closeStatus)
    (hwrite : c'.writeEnabled = false) (howes : h'.Owes) (hclose : close ↔ h'.IsClose)
    (hok : ¬ ok) : After c ok close h' (.leave r (c', io)) where
  sendQueue := hqueue
  sendCtrlQueue := hctrl
  server := hserver
  queued := by rw [← hstatus]; rfl
  alive := fun h => by rw [Step.state_leave, hwrite] at h; cases h
  owes := howes
  isClose := fun h => Or.inl ⟨hclose.1 h, by rw [← hstatus]; rfl⟩
  notClose := fun h => ⟨fun h' => h (hclose.2 h'), by rw [← hstatus]; rfl⟩
  good := fun h => absurd h hok

/-- When nothing more can be sent now, the rest of the frame stays in hand. -/
theorem After.wait {c c' : EventContext} {ok close : Prop} {h' : Hand} {io : Io}
    (hqueue : c'.sendQueue = c.sendQueue) (hctrl : c'.sendCtrlQueue = c.sendCtrlQueue)
    (hserver : c'.server = c.server) (hstatus : c'.closeStatus = c.closeStatus)
    (hwrite : c'.writeEnabled = c.writeEnabled) (hh : Holds c' h') (hsettled : h'.Settled)
    (hrole : c.server = true → c'.frameCtx.effKey = none) (howes : h'.Owes)
    (hclose : close ↔ h'.IsClose) (hok : ok → io.Willing) :
    After c ok close h' (.leave 0 (c', io)) where
  sendQueue := hqueue
  sendCtrlQueue := hctrl
  server := hserver
  queued := by rw [← hstatus]; rfl
  alive := fun h => ⟨hwrite ▸ h, hh, hsettled, hrole⟩
  owes := howes
  isClose := fun h => Or.inl ⟨hclose.1 h, by rw [← hstatus]; rfl⟩
  notClose := fun h => ⟨fun h' => h (hclose.2 h'), by rw [← hstatus]; rfl⟩
  good := fun h => ⟨hok h, fun r t heq => by cases heq; rfl, fun _ => hwrite⟩

/-- A blocked callback is no error, another failure is. -/
theorem After.blocked {c : EventContext} {ok close : Prop} {h' : Hand} {f : FrameContext} {io : Io}
    (hwait : After c ok close h' (.leave 0 ({ c with frameCtx := f }, io))) (howes : h'.Owes)
    (hclose : close ↔ h'.IsClose) :
    After c ok close h' (sendFrameError .wantWrite { c with frameCtx := f } io) ∧
      (sendFrameError .wantWrite { c with frameCtx := f } io).state.2 = io := by
  by_cases hfatal : Err.wantWrite ≠ .wantWrite ∨
      (io.error ≠ Err.wouldblock.code ∧ io.error ≠ 0)
  · rw [sendFrameError_fatal hfatal]
    refine ⟨.fatal rfl rfl rfl rfl rfl howes hclose fun hok => ?_, rfl⟩
    have herror := (hwait.good hok).1.error
    rcases hfatal with h | ⟨h1, h2⟩
    · exact h rfl
    · exact herror.elim h2 h1
  · rw [sendFrameError, if_neg hfatal]
    exact ⟨hwait, rfl⟩

theorem continuation_isData : isCtrlFrame continuationFrame = false := by decide

/-- A frame in progress owes something. -/
theorem EncView.owes {f : FrameContext} {len off : Nat} {hrest : List UInt8}
    (hv : EncView f (.busy len hrest off)) {data : List UInt8} (hlen : data.length = len)
    (key : Option Key) : hrest ++ maskWith key off (data.drop off) ≠ [] := by
  intro hnil
  have h := congrArg List.length hnil
  rw [List.length_append, length_maskWith, List.length_drop, List.length_nil] at h
  cases hv with
  | header _ _ _ _ hne => exact hne (List.length_eq_zero_iff.1 (by omega))
  | payload _ _ _ _ _ hlt => omega

theorem EncView.off_le {f : FrameContext} {len off : Nat} {hrest : List UInt8}
    (hv : EncView f (.busy len hrest off)) : off ≤ len := by
  cases hv with
  | header => exact Nat.zero_le _
  | payload _ _ _ _ _ hlt => exact Nat.le_of_lt hlt

theorem sendNonFragmented_after {c : EventContext} {m : EventOmsg} {io : Io} {key : Option Key}
    {owed : List UInt8} (homsg : c.omsg = some m) (hfit : m.FitWhole)
    (hlen : c.opayloadlen = m.data.length) (hoff : c.opayloadoff ≤ m.data.length)
    (hobuf : c.obuf = []) (hmark : c.obufmark = 0) (hrole : c.server = true → key = none)
    (hd : Driven key io m.data.length c.opayloadoff (m.data.drop c.opayloadoff) owed
      (frameSend c.frameCtx (nonFragmentedIocb c m) io)) :
    ∃ h', After c io.Willing (m.opcode = connectionClose) h' (sendNonFragmented c m io) ∧
      io.wire <+: (sendNonFragmented c m io).state.2.wire ∧
      (sendNonFragmented c m io).state.2.wire ++ h'.owed = io.wire ++ owed ∧
      (h' = .empty ∨ ∃ rest, h' = .whole m rest) := by
  unfold sendNonFragmented
  obtain ⟨r, hr⟩ : ∃ r, frameSend c.frameCtx (nonFragmentedIocb c m) io = r := ⟨_, rfl⟩
  rw [hr] at hd ⊢
  have hrest : (m.data.drop c.opayloadoff).length = m.data.length - c.opayloadoff :=
    List.length_drop
  cases hd with
  | done f io' hstate hkey hwire hwill =>
    have hend : c.opayloadoff + (m.data.drop c.opayloadoff).length = c.opayloadlen := by omega
    refine ⟨.empty, ?_, ?_, ?_, Or.inl rfl⟩
    · simp only [if_pos hend]
      unfold finishNonFragmented
      by_cases hclose : m.opcode = connectionClose
      · rw [if_pos hclose]
        exact
          { sendQueue := rfl, sendCtrlQueue := rfl, server := rfl, queued := rfl
            alive := fun h => by cases h
            owes := trivial
            isClose := fun _ => Or.inr ⟨rfl, rfl, rfl⟩
            notClose := fun h => absurd hclose h
            good := fun h => ⟨hwill h, (fun _ _ heq => by cases heq), fun h' => absurd hclose h'⟩ }
      · rw [if_neg hclose]
        exact
          { sendQueue := rfl, sendCtrlQueue := rfl, server := rfl, queued := rfl
            alive := fun h => ⟨h, .empty rfl hstate hobuf hmark, trivial,
              fun hs => hkey.trans (hrole hs)⟩
            owes := trivial
            isClose := fun h => absurd h hclose
            notClose := fun _ => ⟨fun h => h, rfl⟩
            good := fun h => ⟨hwill h, (fun _ _ heq => by cases heq), fun _ => rfl⟩ }
    · simp only [if_pos hend]
      rw [Step.state_again, hwire]
      exact List.prefix_append _ _
    · simp only [if_pos hend]
      rw [Step.state_again, hwire]
      simp [Hand.owed]
  | part k hrest' bs res f io' hres hk hview hkey hwire hsplit hwill =>
    obtain ⟨rest, hrest_def⟩ : ∃ rest, hrest' ++ maskWith key (c.opayloadoff + k)
        ((m.data.drop c.opayloadoff).drop k) = rest := ⟨_, rfl⟩
    have hdrop : (m.data.drop c.opayloadoff).drop k = m.data.drop (c.opayloadoff + k) := by
      rw [List.drop_drop]
    have hh : Holds { c with frameCtx := f, opayloadoff := c.opayloadoff + k } (.whole m rest) := by
      rw [← hrest_def, hdrop, ← hkey]
      exact .whole m hrest' homsg hfit hview hlen hobuf hmark
    have howes : rest ≠ [] := by
      rw [← hrest_def, hdrop]
      exact hview.owes rfl key
    have hwait : After c io.Willing (m.opcode = connectionClose) (.whole m rest)
        (.leave 0 ({ c with frameCtx := f, opayloadoff := c.opayloadoff + k }, io')) :=
      .wait rfl rfl rfl rfl rfl hh trivial (fun hs => hkey.trans (hrole hs)) howes Iff.rfl hwill
    have hgrows : io.wire <+: io'.wire := by
      rw [hwire]
      exact List.prefix_append _ _
    have hsum : io'.wire ++ rest = io.wire ++ owed := by
      rw [hwire, List.append_assoc, ← hrest_def, hsplit]
    refine ⟨.whole m rest, ?_⟩
    rcases hres with ⟨rfl, hshort⟩ | ⟨rfl, rfl⟩
    · have hne : ¬ c.opayloadoff + k = c.opayloadlen := by rw [hlen]; exact hshort
      simp only [if_neg hne]
      exact ⟨hwait, hgrows, hsum, Or.inr ⟨rest, rfl⟩⟩
    · obtain ⟨hafter, hio⟩ := hwait.blocked howes Iff.rfl
      refine ⟨hafter, ?_, ?_, Or.inr ⟨rest, rfl⟩⟩
      · simp only
        rw [hio]
        exact hgrows
      · simp only
        rw [hio]
        exact hsum
  | broken e bs rest f io' he hnw hwire hne hsplit =>
    refine ⟨.whole m rest, ?_, ?_, ?_, Or.inr ⟨rest, rfl⟩⟩
    · simp only [sendFrameError_fatal (Or.inl he)]
      exact .fatal rfl rfl rfl rfl rfl hne Iff.rfl hnw
    · simp only [sendFrameError_fatal (Or.inl he), Step.state_leave]
      rw [hwire]
      exact List.prefix_append _ _
    · simp only [sendFrameError_fatal (Or.inl he), Step.state_leave]
      rw [hwire, Hand.owed, List.append_assoc, hsplit]

theorem sendFragment_after {c : EventContext} {m : EventOmsg} {io : Io} {key : Option Key}
    {owed : List UInt8} (homsg : c.omsg = some m) (htype : m.type = .fragmented)
    (hfin : m.fin = 0 ∨ m.fin = 1) (hdata : isCtrlFrame m.opcode = false)
    (hlen : c.opayloadlen = c.obuf.length) (hmark : c.obufmark < c.obuf.length)
    (hrole : c.server = true → key = none)
    (hd : Driven key io c.obuf.length c.obufmark (c.obuf.drop c.obufmark) owed
      (frameSend c.frameCtx (fragmentIocb c m) io)) :
    ∃ h', After c io.Willing False h' (sendFragment c m io) ∧
      io.wire <+: (sendFragment c m io).state.2.wire ∧
      (sendFragment c m io).state.2.wire ++ h'.owed = io.wire ++ owed ∧
      (h' = .empty ∧ m.fin ≠ 0 ∨ h' = .between { m with opcode := continuationFrame } ∧ m.fin = 0 ∨
        ∃ rest, h' = .fragment m rest) := by
  unfold sendFragment
  obtain ⟨r, hr⟩ : ∃ r, frameSend c.frameCtx (fragmentIocb c m) io = r := ⟨_, rfl⟩
  rw [hr] at hd ⊢
  have hrest : (c.obuf.drop c.obufmark).length = c.obuf.length - c.obufmark := List.length_drop
  cases hd with
  | done f io' hstate hkey hwire hwill =>
    have hend : c.obufmark + (c.obuf.drop c.obufmark).length = c.obuf.length := by omega
    simp only [if_pos hend]
    by_cases hlast : m.fin = 0
    · rw [if_neg (not_not.2 hlast)]
      refine ⟨.between { m with opcode := continuationFrame }, ?_, ?_, ?_,
        Or.inr (Or.inl ⟨rfl, hlast⟩)⟩
      · exact
          { sendQueue := rfl, sendCtrlQueue := rfl, server := rfl, queued := rfl
            alive := fun h => ⟨h, .between _ rfl htype hlast continuation_isData hstate rfl rfl, trivial,
              fun hs => hkey.trans (hrole hs)⟩
            owes := trivial
            isClose := fun h => h.elim
            notClose := fun _ => ⟨fun h => h, rfl⟩
            good := fun h => ⟨hwill h, (fun _ _ heq => by cases heq), fun _ => rfl⟩ }
      · rw [Step.state_again, hwire]
        exact List.prefix_append _ _
      · rw [Step.state_again, hwire]
        simp [Hand.owed]
    · rw [if_pos hlast]
      refine ⟨.empty, ?_, ?_, ?_, Or.inl ⟨rfl, hlast⟩⟩
      · exact
          { sendQueue := rfl, sendCtrlQueue := rfl, server := rfl, queued := rfl
            alive := fun h => ⟨h, .empty rfl hstate rfl rfl, trivial,
              fun hs => hkey.trans (hrole hs)⟩
            owes := trivial
            isClose := fun h => h.elim
            notClose := fun _ => ⟨fun h => h, rfl⟩
            good := fun h => ⟨hwill h, (fun _ _ heq => by cases heq), fun _ => rfl⟩ }
      · rw [Step.state_again, hwire]
        exact List.prefix_append _ _
      · rw [Step.state_again, hwire]
        simp [Hand.owed]
  | part k hrest' bs res f io' hres hk hview hkey hwire hsplit hwill =>
    obtain ⟨rest, hrest_def⟩ : ∃ rest, hrest' ++ maskWith key (c.obufmark + k)
        ((c.obuf.drop c.obufmark).drop k) = rest := ⟨_, rfl⟩
    have hdrop : (c.obuf.drop c.obufmark).drop k = c.obuf.drop (c.obufmark + k) := by
      rw [List.drop_drop]
    have hshort : c.obufmark + k < c.obuf.length := by
      rcases hres with ⟨-, hne⟩ | ⟨-, rfl⟩ <;> omega
    have hh : Holds { c with frameCtx := f, obufmark := c.obufmark + k } (.fragment m rest) := by
      rw [← hrest_def, hdrop, ← hkey]
      exact .fragment m hrest' homsg htype hfin hdata hview hshort hlen
    have howes : rest ≠ [] := by
      rw [← hrest_def, hdrop]
      exact hview.owes rfl key
    have hwait : After c io.Willing False (.fragment m rest)
        (.leave 0 ({ c with frameCtx := f, obufmark := c.obufmark + k }, io')) :=
      .wait rfl rfl rfl rfl rfl hh trivial (fun hs => hkey.trans (hrole hs)) howes Iff.rfl hwill
    have hgrows : io.wire <+: io'.wire := by
      rw [hwire]
      exact List.prefix_append _ _
    have hsum : io'.wire ++ rest = io.wire ++ owed := by
      rw [hwire, List.append_assoc, ← hrest_def, hsplit]
    refine ⟨.fragment m rest, ?_⟩
    rcases hres with ⟨rfl, hne⟩ | ⟨rfl, rfl⟩
    · simp only [if_neg hne]
      exact ⟨hwait, hgrows, hsum, Or.inr (Or.inr ⟨rest, rfl⟩)⟩
    · obtain ⟨hafter, hio⟩ := hwait.blocked howes Iff.rfl
      refine ⟨hafter, ?_, ?_, Or.inr (Or.inr ⟨rest, rfl⟩)⟩
      · simp only
        rw [hio]
        exact hgrows
      · simp only
        rw [hio]
        exact hsum
  | broken e bs rest f io' he hnw hwire hne hsplit =>
    refine ⟨.fragment m rest, ?_, ?_, ?_, Or.inr (Or.inr ⟨rest, rfl⟩)⟩
    · simp only [sendFrameError_fatal (Or.inl he)]
      exact .fatal rfl rfl rfl rfl rfl hne Iff.rfl hnw
    · simp only [sendFrameError_fatal (Or.inl he), Step.state_leave]
      rw [hwire]
      exact List.prefix_append _ _
    · simp only [sendFrameError_fatal (Or.inl he), Step.state_leave]
      rw [hwire, Hand.owed, List.append_assoc, hsplit]

theorem After.congr {c c' : EventContext} {ok close : Prop} {h' : Hand}
    {x : Step (EventContext × Io) Int} (h : After c' ok close h' x)
    (hqueue : c'.sendQueue = c.sendQueue) (hctrl : c'.sendCtrlQueue = c.sendCtrlQueue)
    (hserver : c'.server = c.server) (hstatus : c'.closeStatus = c.closeStatus)
    (hwrite : c'.writeEnabled = c.writeEnabled) : After c ok close h' x where
  sendQueue := h.sendQueue.trans hqueue
  sendCtrlQueue := h.sendCtrlQueue.trans hctrl
  server := h.server.trans hserver
  queued := by rw [h.queued, hstatus]
  alive := by rw [← hwrite, ← hserver]; exact h.alive
  owes := h.owes
  isClose := by rw [← hstatus]; exact h.isClose
  notClose := by rw [← hstatus]; exact h.notClose
  good := by rw [← hwrite]; exact h.good

/-- The outlines of the data frames among some frames. -/
def dataOutlines (fs : List Frame) : List Outline :=
  (fs.map Frame.outline).filter fun o => !o.isCtrl

/-- The outlines of the control frames among some frames. -/
def ctrlOutlines (fs : List Frame) : List Outline := (fs.map Frame.outline).filter Outline.isCtrl

/-- The second part of a pass with `h` in hand begins the frames `begun`, of
which there is at most one, and leaves `h'` in hand: what is owed is sent from
its front, and no outline is lost. -/
structure Sends (c : EventContext) (io : Io) (h : Hand) (x : Step (EventContext × Io) Int)
    (begun : List Frame) (h' : Hand) : Prop where
  legit : ∀ f ∈ begun, f.Legit c.server
  wire : x.state.2.wire ++ h'.owed = io.wire ++ h.owed ++ begun.flatMap Frame.encode
  grows : io.wire <+: x.state.2.wire
  data : ∀ later, h.data later = dataOutlines begun ++ h'.data later
  ctrl : h.ctrl = ctrlOutlines begun ++ h'.ctrl
  fine : h.Fine → h'.Fine
  after : After c (io.Willing ∧ h.Fine) h.IsClose h' x
  begins : begun = [] ∨ ∃ f, begun = [f] ∧ h.owed = [] ∧
    (h.IsClose → f.outline.opcode = wireOpcode connectionClose)
  starts : ∀ m, h = .start m → begun = [] → x.state.1.writeEnabled = false

theorem After.weaken {c : EventContext} {ok ok' close : Prop} {h' : Hand}
    {x : Step (EventContext × Io) Int} (h : After c ok close h' x) (hok : ok' → ok) :
    After c ok' close h' x :=
  { h with good := fun h' => h.good (hok h') }

/-- Nothing is sent. -/
theorem Sends.nothing {c : EventContext} {io : Io} {h h' : Hand}
    {x : Step (EventContext × Io) Int} (hwire : x.state.2.wire = io.wire) (howed : h'.owed = h.owed)
    (hdata : h'.data = h.data) (hctrl : h'.ctrl = h.ctrl) (hfine : h.Fine → h'.Fine)
    (hstart : ∀ m, h = .start m → x.state.1.writeEnabled = false) (hafter : After c (io.Willing ∧ h.Fine) h.IsClose h' x) : Sends c io h x [] h' where
  legit := by simp
  wire := by rw [hwire, howed]; simp
  grows := by rw [hwire]
  data := fun later => by rw [hdata]; rfl
  ctrl := hctrl.symm
  fine := hfine
  after := hafter
  begins := Or.inl rfl
  starts := fun m hm _ => hstart m hm

/-- The message in hand is sent in one frame, which is begun. -/
theorem sendOmsg_start {c : EventContext} {m : EventOmsg} (hh : Holds c (.start m))
    (hrole : c.server = true → c.frameCtx.effKey = none) (io : Io) :
    ∃ begun h', Sends c io (.start m) (sendOmsg (c, io)) begun h' := by
  cases hh with
  | start _ homsg hfit hstate hlen hoff hobuf hmark =>
    have hdata : (nonFragmentedIocb c m).data = m.data := by
      simp [nonFragmentedIocb, hlen, hoff]
    have hsend : sendOmsg (c, io) = sendNonFragmented c m io := by
      unfold sendOmsg
      simp only [homsg, if_pos hfit.1]
    have hheader : ∀ key, (nonFragmentedIocb c m).header key = (m.outline.frame key).header := by
      intro key
      simp only [nonFragmentedIocb, Iocb.header, hlen]
      rfl
    rw [hsend]
    rcases frameSend_begin (nonFragmentedIocb c m) hstate hrole hheader hdata rfl
      m.outline_isCtrl.symm (fun _ => rfl) io with ⟨hno, heq⟩ | ⟨io', hnw, hwire, heq⟩ |
      ⟨f, hf, hlegit, hd⟩
    · refine ⟨[], .start m, .nothing ?_ rfl rfl rfl id (fun _ _ => ?_) ?_⟩
      · rw [sendNonFragmented, heq]
        simp only [sendFrameError_fatal (Or.inl (by simp : Err.invalidArgument ≠ .wantWrite))]
        rfl
      · rw [sendNonFragmented, heq]
        simp only [sendFrameError_fatal (Or.inl (by simp : Err.invalidArgument ≠ .wantWrite))]
        rfl
      · rw [sendNonFragmented, heq]
        simp only [sendFrameError_fatal (Or.inl (by simp : Err.invalidArgument ≠ .wantWrite))]
        have hpl : (nonFragmentedIocb c m).payloadLength = m.data.length := hlen
        refine .fatal rfl rfl rfl rfl rfl trivial Iff.rfl fun hok => hno ?_
        rw [Iocb.Sendable, hpl]
        exact ⟨(hok.2 m rfl).1, hfit.2.2⟩
    · refine ⟨[], .start m, .nothing ?_ rfl rfl rfl id (fun _ _ => ?_) ?_⟩
      · rw [sendNonFragmented, heq]
        simp only [sendFrameError_fatal (Or.inl (by simp : Err.invalidCallback ≠ .wantWrite))]
        exact hwire
      · rw [sendNonFragmented, heq]
        simp only [sendFrameError_fatal (Or.inl (by simp : Err.invalidCallback ≠ .wantWrite))]
        rfl
      · rw [sendNonFragmented, heq]
        simp only [sendFrameError_fatal (Or.inl (by simp : Err.invalidCallback ≠ .wantWrite))]
        exact .fatal rfl rfl rfl rfl rfl trivial Iff.rfl fun hok => hnw hok.1
    · have hkey : c.server = true → f.key = none := by
        intro hs
        have h := hlegit.mask
        rw [hs] at h
        exact Option.not_isSome_iff_eq_none.1 (by rw [h]; simp)
      have hd' : Driven f.key io m.data.length c.opayloadoff (m.data.drop c.opayloadoff) f.encode
          (frameSend c.frameCtx (nonFragmentedIocb c m) io) := by
        rw [hoff]
        exact hd
      obtain ⟨h', hafter, hgrows, hwire, hh'⟩ := sendNonFragmented_after homsg hfit hlen (by omega) hobuf
        hmark hkey hd'
      have hspent : (∀ later, h'.data later = later) ∧ h'.ctrl = [] ∧
          (h'.msg? = none ∨ h'.msg? = some m) := by
        rcases hh' with rfl | ⟨rest, rfl⟩ <;> exact ⟨fun _ => rfl, rfl, by simp [Hand.msg?]⟩
      refine ⟨[f], h', ⟨by simpa using hlegit, ?_, hgrows, ?_, ?_, ?_, hafter.weaken And.left,
        Or.inr ⟨f, rfl, rfl, fun hc => ?_⟩, fun _ _ hnil => by cases hnil⟩⟩
      · rw [hwire]
        simp [Hand.owed]
      · intro later
        rw [hspent.1, dataOutlines, List.map_singleton, hf, List.filter_singleton,
          m.outline_isCtrl, Hand.data]
        cases isCtrlFrame m.opcode <;> rfl
      · rw [hspent.2.1, ctrlOutlines, List.map_singleton, hf, List.filter_singleton,
          m.outline_isCtrl, Hand.ctrl]
        cases isCtrlFrame m.opcode <;> rfl
      · intro hfine m' hm'
        rcases hspent.2.2 with h | h
        · rw [h] at hm'
          cases hm'
        · exact hfine m' (by rw [← hm', h]; rfl)
      · rw [hf]
        exact congrArg wireOpcode hc

/-- The frame in hand goes on. -/
theorem sendOmsg_whole {c : EventContext} {m : EventOmsg} {owed : List UInt8}
    (hh : Holds c (.whole m owed)) (hrole : c.server = true → c.frameCtx.effKey = none) (io : Io) :
    ∃ begun h', Sends c io (.whole m owed) (sendOmsg (c, io)) begun h' := by
  cases hh with
  | whole _ hrest homsg hfit hview hlen hobuf hmark =>
    have hle := hview.off_le
    have hdata : (nonFragmentedIocb c m).data = m.data.drop c.opayloadoff := by
      simp only [nonFragmentedIocb, hlen]
      exact List.take_of_length_le (by rw [List.length_drop])
    have hdlen : (nonFragmentedIocb c m).data.length = m.data.length - c.opayloadoff := by
      rw [hdata, List.length_drop]
    have hpl : (nonFragmentedIocb c m).payloadLength = m.data.length := hlen
    have hsend : sendOmsg (c, io) = sendNonFragmented c m io := by
      unfold sendOmsg
      simp only [homsg, if_pos hfit.1]
    have hd := frameSend_resume hview (nonFragmentedIocb c m) (by omega) (by omega) io
    rw [hdata] at hd
    obtain ⟨h', hafter, hgrows, hwire, hh'⟩ := sendNonFragmented_after homsg hfit hlen hle hobuf hmark hrole
      hd
    rw [hsend]
    have hspent : (∀ later, h'.data later = later) ∧ h'.ctrl = [] ∧
        (h'.msg? = none ∨ h'.msg? = some m) := by
      rcases hh' with rfl | ⟨rest, rfl⟩ <;> exact ⟨fun _ => rfl, rfl, by simp [Hand.msg?]⟩
    refine ⟨[], h', ⟨by simp, ?_, hgrows, fun later => (hspent.1 later).symm, hspent.2.1.symm, ?_,
      hafter.weaken And.left, Or.inl rfl, fun _ hm => by cases hm⟩⟩
    · rw [hwire]
      simp [Hand.owed]
    · intro hfine m' hm'
      rcases hspent.2.2 with h | h
      · rw [h] at hm'
        cases hm'
      · exact hfine m' (by rw [← hm', h]; rfl)

/-- What of the source is left to be sent once a fragment has been read. -/
theorem fragment_data {opcode : UInt8} {bs : List UInt8} {eof : Bool} {fits : bs.length ≤ 4096}
    {rs : List ReadResult} (hne : bs ≠ []) (later : List Outline) :
    fragments opcode (.data bs eof fits :: rs) later =
      ⟨eof, wireOpcode opcode, bs⟩ ::
        if eof then later else fragments continuationFrame rs later := by
  rw [fragments, if_neg hne]
  cases eof <;> rfl

/-- What `sendFragmented` does once a fragment has been read. -/
def sendNextFragment (s : EventContext × Io) : Step (EventContext × Io) Int :=
  match s.1.omsg with
  | some m => sendFragment s.1 m s.2
  | none => .leave 0 s

/-- From the message `m` in hand of `c` the octets `bs` have been read into the output
buffer; this leaves `m'` and `c'`. -/
structure FragmentRead (c : EventContext) (m : EventOmsg) (bs : List UInt8) (eof : Bool)
    (rs : List ReadResult) (c' : EventContext) (m' : EventOmsg) : Prop where
  message : m' = { m with source := rs, fin := if eof = true then 1 else m.fin }
  context : c' = { c with
    omsg := some m', obuf := bs, opayloadlen := bs.length, opayloadoff := 0 }

section

variable {c c' : EventContext} {m m' : EventOmsg} {bs : List UInt8} {eof : Bool}
  {rs : List ReadResult}

/-- The header of the fragment. -/
theorem FragmentRead.header (h : FragmentRead c m bs eof rs c' m') (hfin : m.fin = 0)
    (key : Option Key) : (fragmentIocb c' m').header key =
      ((⟨eof, wireOpcode m.opcode, bs⟩ : Outline).frame key).header := by
  rw [h.context, h.message, fragmentIocb, hfin]
  cases eof <;> rfl

/-- When `wslay_frame_send` refuses the fragment, the message stays in hand. -/
theorem FragmentRead.refused (h : FragmentRead c m bs eof rs c' m') {io io' : Io} {e : Err}
    {f : FrameContext} (he : e ≠ .wantWrite)
    (heq : frameSend c'.frameCtx (fragmentIocb c' m') io = (.error e, f, io'))
    (hwire : io'.wire = io.wire) (hok : ¬ (io.Willing ∧ (Hand.between m).Fine)) :
    Sends c io (.between m) (sendFragment c' m' io) [] (.between m) := by
  rw [sendFragment, heq]
  simp only [sendFrameError_fatal (Or.inl he)]
  refine .nothing hwire rfl rfl rfl id (fun _ hm => by cases hm) ?_
  exact .fatal (by rw [h.context]) (by rw [h.context]) (by rw [h.context]) (by rw [h.context]) rfl
    trivial Iff.rfl hok

/-- What is in hand behind the fragment, and what of the message is left. -/
theorem FragmentRead.spent (h : FragmentRead c m bs eof rs c' m') (hfin : m.fin = 0) {h' : Hand}
    (hh : h' = .empty ∧ m'.fin ≠ 0 ∨
      h' = .between { m' with opcode := continuationFrame } ∧ m'.fin = 0 ∨
      ∃ rest, h' = .fragment m' rest) :
    (∀ later, h'.data later = if eof then later else fragments continuationFrame rs later) ∧
      h'.ctrl = [] ∧ ∀ m'', h'.msg? = some m'' → m''.data = m.data ∧ m''.source = rs := by
  have hfin' : m'.fin = if eof = true then 1 else 0 := by
    rw [h.message, hfin]
  have hkept : m'.data = m.data ∧ m'.source = rs := by
    rw [h.message]
    exact ⟨rfl, rfl⟩
  rcases hh with ⟨rfl, hlast⟩ | ⟨rfl, hlast⟩ | ⟨rest, rfl⟩
  · rw [hfin'] at hlast
    refine ⟨fun later => ?_, rfl, by simp [Hand.msg?]⟩
    cases eof <;> simp_all [Hand.data]
  · rw [hfin'] at hlast
    refine ⟨fun later => ?_, rfl, ?_⟩
    · cases eof <;> simp_all [Hand.data]
    · rintro m'' ⟨⟩
      exact hkept
  · refine ⟨fun later => ?_, rfl, ?_⟩
    · simp only [Hand.data, hfin', hkept.2]
      cases eof <;> simp
    · rintro m'' ⟨⟩
      exact hkept

/-- **The fragment is begun**, unless `wslay_frame_send` refuses it. -/
theorem FragmentRead.sends (h : FragmentRead c m bs eof rs c' m') {fits : bs.length ≤ 4096}
    (hsource : m.source = .data bs eof fits :: rs) (hnil : bs ≠ []) (htype : m.type = .fragmented)
    (hfin : m.fin = 0) (hctrl : isCtrlFrame m.opcode = false)
    (hstate : c.frameCtx.ostate = .prepHeader) (hmark : c.obufmark = 0)
    (hrole : c.server = true → c.frameCtx.effKey = none) (io : Io) :
    ∃ begun h', Sends c io (.between m) (sendFragment c' m' io) begun h' := by
  have hpos : 0 < bs.length := List.length_pos_of_ne_nil hnil
  have hlen' : c'.opayloadlen = c'.obuf.length := by rw [h.context]
  have hmark' : c'.obufmark = 0 := by rw [h.context]; exact hmark
  have hobuf' : c'.obuf = bs := by rw [h.context]
  have hopcode : m'.opcode = m.opcode := by rw [h.message]
  have hctrl' : isCtrlFrame m'.opcode = false := hopcode ▸ hctrl
  have hdata : (fragmentIocb c' m').data = bs := by
    rw [fragmentIocb, hmark', hobuf']
    rfl
  have houtline : (⟨eof, wireOpcode m.opcode, bs⟩ : Outline).isCtrl = false := by
    rw [← hctrl, isCtrlFrame_eq, Outline.isCtrl]
  have hstate' : c'.frameCtx.ostate = .prepHeader := by rw [h.context]; exact hstate
  have hrole' : c'.server = true → c'.frameCtx.effKey = none := by rw [h.context]; exact hrole
  rcases frameSend_begin (fragmentIocb c' m') hstate' hrole' (h.header hfin) hdata rfl
    (hctrl'.trans houtline.symm) (by simp [houtline]) io with ⟨hno, heq⟩ | ⟨io', hnw, hwire, heq⟩ | ⟨f, hf, hlegit, hd⟩
  · refine ⟨[], .between m, h.refused (by simp) heq rfl fun _ => hno ?_⟩
    have hpl : (fragmentIocb c' m').payloadLength = bs.length := hlen'.trans (by rw [hobuf'])
    rw [Iocb.Sendable, hpl]
    exact ⟨by omega, fun hc => absurd (hctrl'.symm.trans hc) (by decide)⟩
  · exact ⟨[], .between m, h.refused (by simp) heq hwire fun hok => hnw hok.1⟩
  · have hkey : c'.server = true → f.key = none := by
      intro hs
      have h := hlegit.mask
      rw [hs] at h
      exact Option.not_isSome_iff_eq_none.1 (by rw [h]; simp)
    obtain ⟨h', hafter, hgrows, hwire, hh'⟩ := sendFragment_after (by rw [h.context])
      (by rw [h.message]; exact htype) (by rw [h.message, hfin]; cases eof <;> simp) hctrl' hlen'
      (by rw [hmark', hobuf']; exact hpos) hkey (by rw [hmark', hobuf']; exact hd)
    have hafter' : After c io.Willing False h' (sendFragment c' m' io) :=
      hafter.congr (by rw [h.context]) (by rw [h.context]) (by rw [h.context]) (by rw [h.context])
        (by rw [h.context])
    obtain ⟨hleft, hnone, hmsg⟩ := h.spent hfin hh'
    refine ⟨[f], h', ⟨?_, ?_, hgrows, ?_, ?_, ?_, hafter'.weaken And.left,
      Or.inr ⟨f, rfl, rfl, fun hc => hc.elim⟩, fun _ hm => by cases hm⟩⟩
    · rw [h.context] at hlegit
      simpa using hlegit
    · rw [hwire]
      simp [Hand.owed]
    · intro later
      rw [hleft, dataOutlines, List.map_singleton, hf, List.filter_singleton, houtline,
        Hand.data, hsource, fragment_data hnil]
      rfl
    · rw [hnone, ctrlOutlines, List.map_singleton, hf, List.filter_singleton, houtline]
      rfl
    · intro hfine m'' hm''
      obtain ⟨h1, h2⟩ := hmsg m'' hm''
      refine ⟨by rw [h1]; exact (hfine m rfl).1, fun q hq => (hfine m rfl).2 q ?_⟩
      rw [hsource]
      exact List.mem_cons_of_mem _ (h2 ▸ hq)

end

/-- The next fragment is read, and begun if there is one. -/
theorem sendOmsg_between {c : EventContext} {m : EventOmsg} (hh : Holds c (.between m))
    (hrole : c.server = true → c.frameCtx.effKey = none) (io : Io) :
    ∃ begun h', Sends c io (.between m) (sendOmsg (c, io)) begun h' := by
  cases hh with
  | between _ homsg htype hfin hctrl hstate hobuf hmark =>
    have hsend : sendOmsg (c, io) = (readFragment c m io).andThen sendNextFragment := by
      unfold sendOmsg
      simp only [homsg, htype, if_neg (by simp : ¬ MsgType.fragmented = .nonFragmented)]
      rw [sendFragmented]
      exact if_pos ⟨hfin, by rw [hobuf, hmark]; rfl⟩
    rw [hsend]
    unfold readFragment
    cases hsource : m.source with
    | nil =>
      refine ⟨[], .between m, .nothing rfl rfl rfl rfl id (fun _ hm => by cases hm) ?_⟩
      exact .wait rfl rfl rfl rfl rfl (.between m homsg htype hfin hctrl hstate hobuf hmark) trivial
        hrole trivial Iff.rfl And.left
    | cons r rs =>
      cases r with
      | fail e =>
        refine ⟨[], .between m, .nothing rfl rfl rfl rfl id (fun _ hm => by cases hm) ?_⟩
        refine .fatal rfl rfl rfl rfl rfl trivial Iff.rfl fun hok => ?_
        exact (hok.2 m rfl).2 (.fail e) (by rw [hsource]; exact List.mem_cons_self ..)
      | data bs eof fits =>
        by_cases hnil : bs = []
        · -- a pause
          simp only [if_pos hnil, Step.andThen_leave]
          refine ⟨[], .between { m with source := rs }, .nothing rfl rfl ?_ rfl ?_
            (fun _ hm => by cases hm) ?_⟩
          · funext later
            simp only [Hand.data, hsource, fragments, if_pos hnil]
          · rintro hfine _ ⟨⟩
            obtain ⟨h1, h2⟩ := hfine m rfl
            exact ⟨h1, fun q hq => h2 q (by rw [hsource]; exact List.mem_cons_of_mem _ hq)⟩
          · exact .wait rfl rfl rfl rfl rfl
              (.between _ rfl htype hfin hctrl hstate hobuf hmark) trivial hrole trivial Iff.rfl
              And.left
        · simp only [if_neg hnil, Step.andThen_again]
          exact FragmentRead.sends ⟨rfl, rfl⟩ hsource hnil htype hfin hctrl hstate hmark hrole io

/-- The fragment in hand goes on. -/
theorem sendOmsg_fragment {c : EventContext} {m : EventOmsg} {owed : List UInt8}
    (hh : Holds c (.fragment m owed)) (hrole : c.server = true → c.frameCtx.effKey = none)
    (io : Io) : ∃ begun h', Sends c io (.fragment m owed) (sendOmsg (c, io)) begun h' := by
  cases hh with
  | fragment _ hrest homsg htype hfin hctrl hview hmark hlen =>
    have hsend : sendOmsg (c, io) = sendFragment c m io := by
      unfold sendOmsg
      simp only [homsg, htype, if_neg (by simp : ¬ MsgType.fragmented = .nonFragmented)]
      rw [sendFragmented, if_neg (by omega)]
    have hdata : (fragmentIocb c m).data = c.obuf.drop c.obufmark := rfl
    have hdlen : (fragmentIocb c m).data.length = c.obuf.length - c.obufmark := by
      rw [hdata, List.length_drop]
    have hpl : (fragmentIocb c m).payloadLength = c.obuf.length := hlen
    have hd := frameSend_resume hview (fragmentIocb c m) (by omega) (by omega) io
    obtain ⟨h', hafter, hgrows, hwire, hh'⟩ := sendFragment_after homsg htype hfin hctrl hlen hmark hrole hd
    rw [hsend]
    have hspent : (∀ later, h'.data later = (Hand.fragment m []).data later) ∧ h'.ctrl = [] ∧
        ∀ m', h'.msg? = some m' → m'.data = m.data ∧ m'.source = m.source := by
      rcases hh' with ⟨rfl, hlast⟩ | ⟨rfl, hlast⟩ | ⟨rest, rfl⟩
      · exact ⟨fun later => by simp [Hand.data, hlast], rfl, by simp [Hand.msg?]⟩
      · refine ⟨fun later => by simp [Hand.data, hlast], rfl, ?_⟩
        rintro m' ⟨⟩
        exact ⟨rfl, rfl⟩
      · refine ⟨fun later => rfl, rfl, ?_⟩
        rintro m' ⟨⟩
        exact ⟨rfl, rfl⟩
    refine ⟨[], h', ⟨by simp, ?_, hgrows, fun later => (hspent.1 later).symm, hspent.2.1.symm, ?_,
      hafter.weaken And.left, Or.inl rfl, fun _ hm => by cases hm⟩⟩
    · rw [hwire, hdata]
      simp [Hand.owed]
    · intro hfine m' hm'
      obtain ⟨h1, h2⟩ := hspent.2.2 m' hm'
      exact ⟨by rw [h1]; exact (hfine m rfl).1, by rw [h2]; exact (hfine m rfl).2⟩

/-- **The second part of a pass**, whatever is in hand. -/
theorem sendOmsg_spec {c : EventContext} {h : Hand} (hh : Holds c h)
    (hrole : c.server = true → c.frameCtx.effKey = none) (io : Io) :
    ∃ begun h', Sends c io h (sendOmsg (c, io)) begun h' := by
  cases h with
  | empty =>
    have homsg := hh.omsg_eq_none.2 rfl
    have hsend : sendOmsg (c, io) = .leave 0 (c, io) := by
      unfold sendOmsg
      simp only [homsg]
    rw [hsend]
    refine ⟨[], .empty, .nothing rfl rfl rfl rfl id (fun _ hm => by cases hm) ?_⟩
    exact .wait rfl rfl rfl rfl rfl hh trivial hrole trivial Iff.rfl And.left
  | start m => exact sendOmsg_start hh hrole io
  | between m => exact sendOmsg_between hh hrole io
  | whole m owed => exact sendOmsg_whole hh hrole io
  | fragment m owed => exact sendOmsg_fragment hh hrole io

end Wslay
