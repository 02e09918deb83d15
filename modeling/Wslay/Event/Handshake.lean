import Wslay.Event.LeaveTaking
import Wslay.Event.LateClose
import Wslay.Event.Farewell
import Wslay.Event.Pair

/-!
# The closing handshake

Two contexts, one of each side, make calls in any order, and the octets that the one has
received so far are the first of those that the other has written.

* `QueuedMsg.Civil` — the messages that the other side can take, Closes among them.
* `Leaves.leaveTaking` — the frames that a context has sent are such as a peer may send.
* `Hearing` — **the invariant of a receiver among other calls**.
* `HandedOver` — the Close of the one has come to the other.
* `close_is_handed_over`, `closing_handshake` — the results.
-/

namespace Wslay

/-! ## What a context has sent -/

/-- **A message that the other side can take**, or a Close that it accepts. -/
def QueuedMsg.Civil (limit : Nat) (q : QueuedMsg) : Prop :=
  (∃ own, q.Proper limit own) ∨
    ∃ body, q = .msg ⟨connectionClose, body⟩ ∧ GoodBody limit body

/-- Only the last frame can be a Close: it is put apart. -/
theorem exists_parting {sent : List Frame} (honly : ∀ f ∈ sent.dropLast, ¬ f.IsClose) :
    ∃ pre close, sent = pre ++ Option.toList close ∧ (∀ f ∈ pre, ¬ f.IsClose) ∧
      ∀ f, close = some f → f.IsClose := by
  cases hlast : sent.getLast? with
  | none =>
    rw [List.getLast?_eq_none_iff] at hlast
    subst hlast
    refine ⟨[], none, rfl, ?_, ?_⟩
    · intro f hf
      cases hf
    · intro f hf
      cases hf
  | some f =>
    have hsent : sent.dropLast ++ [f] = sent := List.dropLast_append_getLast? f hlast
    by_cases hclose : f.IsClose
    · refine ⟨sent.dropLast, some f, hsent.symm, honly, ?_⟩
      intro g hg
      cases hg
      exact hclose
    · refine ⟨sent, none, (List.append_nil sent).symm, ?_, ?_⟩
      · intro g hg
        rw [← hsent] at hg
        rcases List.mem_append.1 hg with hg | hg
        · exact honly g hg
        · rw [List.mem_singleton.1 hg]
          exact hclose
      · intro g hg
        cases hg

section

variable {cfg : RxConfig} {s : EventContext × Io} {sent : List Frame} {owed : List UInt8}

/-- **A control frame that has been sent** is one that the other side knows, or a Close
that it accepts. -/
theorem Leaves.control (h : Leaves s sent owed) (hcivil : ∀ q ∈ s.2.queued, q.Civil cfg.limit)
    {f : Frame} (hf : f ∈ sent) (h8 : 8 ≤ f.opcode.val) :
    isKnownCtrl f.opcode = true ∧ f.payload.length ≤ cfg.limit ∧
      (f.IsClose → GoodBody cfg.limit f.payload) := by
  obtain ⟨arg, harg, -, houtline⟩ := h.ctrl _ (mem_ctrlOutlines hf h8)
  have hopcode : wireOpcode arg.opcode = f.opcode := congrArg Outline.opcode houtline
  have hpayload : arg.msg = f.payload := congrArg Outline.payload houtline
  have hctrl : isCtrlFrame (QueuedMsg.msg arg).omsg.opcode = true := by
    rw [isCtrlFrame_eq, decide_eq_true_eq]
    show 8 ≤ (wireOpcode arg.opcode).val
    rw [hopcode]
    exact h8
  unfold Frame.IsClose
  rw [← hopcode, ← hpayload]
  rcases hcivil _ harg with ⟨own, hproper⟩ | ⟨body, heq, hgood⟩
  · obtain ⟨-, hkind, -, hfits⟩ := hproper.ctrl hctrl
    refine ⟨?_, hfits, ?_⟩
    · rcases hkind with ⟨hping, -⟩ | hpong
      · rw [show arg.opcode = ping from hping]
        rfl
      · rw [show arg.opcode = pong from hpong]
        rfl
    · intro hclose
      rcases hkind with ⟨hping, -⟩ | hpong
      · rw [show arg.opcode = ping from hping] at hclose
        cases hclose
      · rw [show arg.opcode = pong from hpong] at hclose
        cases hclose
  · cases heq
    exact ⟨rfl, hgood.fits, fun _ => hgood⟩

/-- What is civil and no control message arrives. -/
theorem queuedData_acceptable (hcivil : ∀ q ∈ s.2.queued, q.Civil cfg.limit) :
    ∀ m ∈ s.2.queuedData, ∃ x, m.message = some x ∧ Assembly.Acceptable cfg.limit x := by
  intro m hm
  obtain ⟨q, hq, rfl, hdata⟩ := mem_queuedData hm
  rcases hcivil q hq with ⟨own, hproper⟩ | ⟨body, rfl, -⟩
  · exact hproper.data hdata
  · have hctrl : isCtrlFrame connectionClose = true := by decide
    exact absurd (hctrl.symm.trans hdata) (by decide)

/-- **What a context has sent can be taken by the other side**, and it makes a front of
the messages that have been queued. -/
theorem Leaves.leaveTaking (h : Leaves s sent owed) (hrole : (!s.1.server) = cfg.server)
    (hcivil : ∀ q ∈ s.2.queued, q.Civil cfg.limit) :
    ∃ pre close, sent = pre ++ Option.toList close ∧ LeaveTaking cfg pre close ∧
      (Assembly.idle.allMessages pre).filter isDataMessage <+:
        s.2.queuedData.filterMap EventOmsg.message := by
  obtain ⟨hmakes, hplans⟩ := plans_welcome (queuedData_acceptable hcivil)
  obtain ⟨pre, close, rfl, hpre, hlast⟩ := exists_parting h.only
  have hin : ∀ f ∈ pre, f ∈ pre ++ close.toList := fun f hf => List.mem_append_left _ hf
  have hvalid : ∀ f ∈ pre, f.header.Valid := fun f hf => (h.legit f (hin f hf)).valid
  have hkey : ∀ f ∈ pre ++ close.toList, f.rsv = 0 ∧ f.key.isSome = cfg.server := by
    intro f hf
    have hlegit := h.legit f hf
    exact ⟨hlegit.rsv, hlegit.mask.trans hrole⟩
  have hfront : dataOutlines pre <+: plans s.2.queuedData [] := by
    refine List.IsPrefix.trans ?_ h.data
    unfold dataOutlines
    rw [List.map_append, List.filter_append]
    exact List.prefix_append _ _
  have hlegal : Assembly.idle.All
      (fun a f => Assembly.Legal cfg.server a f ∧ Assembly.Fits cfg a f) pre := by
    refine Assembly.all_legal (fun f hf => hkey f (hin f hf))
      (Assembly.All.front_of (hfront.map _) hplans) ?_
    intro o ho
    obtain ⟨hmem, hctrl⟩ := List.mem_filter.1 ho
    obtain ⟨f, hf, rfl⟩ := List.mem_map.1 hmem
    obtain ⟨hknown, hfits, -⟩ := h.control hcivil (hin f hf) (of_decide_eq_true hctrl)
    exact ⟨hknown, hfits⟩
  have hsendable : Sendable cfg pre :=
    ⟨hvalid, hpre, hlegal.mono fun a f hf => hf.1, hlegal.mono fun a f hf => hf.2⟩
  refine ⟨pre, close, rfl, ⟨hsendable, ?_⟩, ?_⟩
  · rintro f rfl
    have hclose : f.IsClose := hlast f rfl
    have hf : f ∈ pre ++ Option.toList (some f) :=
      List.mem_append_right _ (List.mem_singleton_self f)
    have hopcode : f.opcode = 8 := hclose
    have h8 : 8 ≤ f.opcode.val := by
      rw [hopcode]
      decide
    obtain ⟨-, -, hgood⟩ := h.control hcivil hf h8
    obtain ⟨hrsv, hmask⟩ := hkey f hf
    exact ⟨hgood hclose, ⟨hopcode, (h.legit f hf).valid, hrsv, hmask⟩⟩
  · obtain ⟨hdata, -⟩ := Assembly.allMessages_filter Assembly.ok_idle hsendable.legal
      fun f hf hc => (hvalid f hf).2 (decide_eq_true hc) |>.1
    rw [hdata, ← Assembly.dataMessages_outlines, ← hmakes]
    exact Assembly.dataMessages_prefix (hfront.map _)

end

/-! ## A receiver among other calls -/

/-- A Close among the replies closes the queue. -/
theorem answerAll_close {rs : List Reply} {code : Nat} {reason : List UInt8}
    (hr : Reply.close code reason ∈ rs) (s : EventContext × Io) :
    eventIsMsgQueueable (answerAll s rs).1 = false := by
  have hstay : ∀ (rs : List Reply) (u : EventContext × Io), u.1.closeStatus.queued = true →
      (answerAll u rs).1.closeStatus.queued = true := by
    intro rs
    induction rs with
    | nil => exact fun _ hu => hu
    | cons r rs ih =>
      intro u hu
      refine ih _ ?_
      cases r with
      | pong msg =>
        show (u.1.withMsg ⟨pong, msg⟩).closeStatus.queued = true
        unfold EventContext.withMsg
        cases isCtrlFrame pong <;> exact hu
      | close code reason => rfl
  obtain ⟨before, later, rfl⟩ := List.append_of_mem hr
  rw [answerAll_append]
  have hqueued := hstay later (answer (answerAll s before) (.close code reason)) rfl
  change (answerAll (answerAll s before) (.close code reason :: later)).1.closeStatus.queued = true
    at hqueued
  unfold eventIsMsgQueueable
  rw [hqueued, Bool.not_true, Bool.and_false]

/-- A receiver that hears of a Close answers it. -/
theorem Rx.run_answers {cfg : RxConfig} {rx : Rx} {items : List Item} {code : Nat} {r : Int}
    (h : (rx.run true cfg items).fate = .off (some code) r) :
    ∃ reason, Reply.close code reason ∈ (rx.run true cfg items).replies := by
  induction items generalizing rx with
  | nil => cases h
  | cons i items ih =>
    change ((rx.react true cfg i).andThen fun rx => rx.run true cfg items).fate = _ at h
    change ∃ reason, Reply.close code reason ∈
      ((rx.react true cfg i).andThen fun rx => rx.run true cfg items).replies
    cases hfate : (rx.react true cfg i).fate with
    | live rx' =>
      rw [Report.andThen_live hfate] at h ⊢
      obtain ⟨reason, hreason⟩ := ih h
      exact ⟨reason, List.mem_append_right _ hreason⟩
    | off heard r' =>
      rw [Report.andThen_off hfate] at h ⊢
      cases i with
      | malformed => cases h
      | piece hd data =>
        change ((rx.piece 2 cfg hd data).report true).fate = _ at h
        change ∃ reason, _ ∈ ((rx.piece 2 cfg hd data).report true).replies
        unfold Reaction.report at h ⊢
        cases hv : (rx.piece 2 cfg hd data).verdict with
        | more rx => rw [hv] at h; cases h
        | reject code => rw [hv] at h; cases h
        | overflow => rw [hv] at h; cases h
        | done opcode msg rx =>
          rw [hv] at h
          by_cases h8 : opcode = 8
          · simp only [if_pos h8] at h ⊢
            cases h
            exact ⟨_, List.mem_singleton_self _⟩
          · simp only [if_neg h8] at h
            cases h

/-- Only of a Close it is not told when nothing can be queued. -/
theorem Rx.react_data (cfg : RxConfig) (rx : Rx) (i : Item) :
    (rx.react false cfg i).data = (rx.react true cfg i).data := by
  cases i with
  | malformed => rfl
  | piece h data =>
    show ((rx.piece 2 cfg h data).report false).data = ((rx.piece 2 cfg h data).report true).data
    generalize rx.piece 2 cfg h data = R
    unfold Reaction.report
    cases R.verdict with
    | more rx => rfl
    | reject code => rfl
    | overflow => rfl
    | done opcode msg rx =>
      by_cases h8 : opcode = 8
      · subst h8
        show (R.calls.filterMap Call.message).filter isDataMessage =
          ((R.calls ++ [msgCall 8 msg]).filterMap Call.message).filter isDataMessage
        rw [List.filterMap_append, List.filter_append]
        exact (List.append_nil _).symm
      · simp only [if_neg h8]
        rfl

theorem Rx.run_data (cfg : RxConfig) (rx : Rx) (items : List Item) :
    (rx.run false cfg items).data = (rx.run true cfg items).data := by
  induction items generalizing rx with
  | nil => rfl
  | cons i items ih =>
    change ((rx.react false cfg i).andThen fun rx => rx.run false cfg items).data =
      ((rx.react true cfg i).andThen fun rx => rx.run true cfg items).data
    cases hfate : (rx.react true cfg i).fate with
    | live rx' =>
      obtain ⟨hcalls, -, hlive⟩ := (rx.react_unqueued cfg i).live rx' hfate
      have hrest := ih rx'
      rw [Report.andThen_live hlive, Report.andThen_live hfate, hcalls]
      unfold Report.data Report.messages at hrest ⊢
      rw [List.filterMap_append, List.filterMap_append, List.filter_append, List.filter_append,
        hrest]
    | off heard r =>
      obtain ⟨r', hoff, -⟩ := (rx.react_unqueued cfg i).off heard r hfate
      rw [Report.andThen_off hoff, Report.andThen_off hfate]
      exact rx.react_data cfg i

/-- The report `R'` tells of the same data messages and of the same end as `R`. -/
structure Report.Tells (R R' : Report) : Prop where
  data : R'.data = R.data
  live : ∀ rx, R.fate = .live rx → R'.fate = .live rx
  off : ∀ heard r, R.fate = .off heard r → ∃ r', R'.fate = .off heard r'

/-- **Whether a message can be queued does not matter** for what is heard. -/
theorem Rx.run_tells (q : Bool) (cfg : RxConfig) (rx : Rx) (items : List Item) :
    (rx.run true cfg items).Tells (rx.run q cfg items) := by
  cases q with
  | true => exact ⟨rfl, fun _ h => h, fun _ r h => ⟨r, h⟩⟩
  | false =>
    obtain ⟨hlive, hoff⟩ := rx.run_unqueued cfg items
    refine ⟨rx.run_data cfg items, fun rx' h => (hlive rx' h).2.2, ?_⟩
    intro heard r h
    obtain ⟨r', h', -⟩ := hoff heard r h
    exact ⟨r', h'⟩

/-- **The context has been given the octets received so far as `items`**, waits for more
with `look` in hand, and has taken note of a Close if there was one. -/
structure Hearing (cfg : RxConfig) (s : EventContext × Io) (items : List Item) (d : Dec)
    (look : List UInt8) : Prop where
  reads : Reads .head s.2.received items d look
  waits : ∀ rx, (Rx.fresh.run true cfg items).fate = .live rx →
    d.Ok ∧ takePiece d look = .wait d look
  live : s.1.readEnabled = true → ∃ rx, (Rx.fresh.run true cfg items).fate = .live rx ∧
    Listens cfg s rx d look ∧ rx.Sound cfg
  heard : s.1.closeStatus.received = (Rx.fresh.run true cfg items).fate.heard.isSome
  code : s.1.statusCodeRecv = ((Rx.fresh.run true cfg items).fate.heard.map
    fun code => if code = 0 then codeNoStatusRcvd else code).getD codeAbnormalClosure
  data : s.2.deliveredData = (Rx.fresh.run true cfg items).data
  answered : s.1.closeStatus.received = true → eventIsMsgQueueable s.1 = false

section

variable {cfg : RxConfig} {s : EventContext × Io} {items : List Item} {d : Dec} {look : List UInt8}

/-- A call of the application leaves the receiver alone. -/
theorem Hearing.call (h : Hearing cfg s items d look) (a : AppCall) :
    Hearing cfg (appCall s.1 s.2 a).2 items d look := by
  have hsp := appCall_spares s.1 s.2 a
  have hpart := hsp.context
  simp only [EventContext.rxPart, Prod.mk.injEq] at hpart
  obtain ⟨-, -, -, -, -, hreceived, hcode, -⟩ := hpart
  refine ⟨?_, h.waits, ?_, hreceived.trans h.heard, hcode.trans h.code, ?_, ?_⟩
  · rw [hsp.received]
    exact h.reads
  · intro hon
    obtain ⟨rx, hfate, hl, hsound⟩ := h.live (hsp.enabled hon)
    exact ⟨rx, hfate, hl.spares hsp, hsound⟩
  · unfold Io.deliveredData
    rw [hsp.calls]
    exact h.data
  · intro hheard
    have hended : Ended s.2.queued s := ⟨h.answered (hreceived.symm.trans hheard), rfl⟩
    exact ((ended_kept s.2.queued).call (a := a) trivial hended).1

/-- **Receiving** goes on with what has been given so far. -/
theorem Hearing.recv (h : Hearing cfg s items d look) (hp : Parting cfg s)
    (hdel : cfg.delivers = true) :
    ∃ items' d' look', Hearing cfg (eventRecv s.1 s.2).2 items' d' look' := by
  by_cases hon : s.1.readEnabled = true
  · obtain ⟨rx, hlive, hl, hsound⟩ := h.live hon
    have hruns : Runs cfg (eventIsMsgQueueable s.1) s rx d look :=
      ⟨hl, hsound, hon, hp.apps, hp.mem, hp.quiet, rfl⟩
    obtain ⟨new, added, d', look', ht, hends⟩ := eventRecv_trace hruns
    have hf := ht.follows
    have htells := Rx.run_tells (eventIsMsgQueueable s.1) cfg rx added
    have hrun : Rx.fresh.run true cfg (items ++ added) =
        ⟨(Rx.fresh.run true cfg items).calls ++ (rx.run true cfg added).calls,
          (Rx.fresh.run true cfg items).replies ++ (rx.run true cfg added).replies,
          (rx.run true cfg added).fate⟩ := by
      rw [Rx.run_append, Report.andThen_live hlive]
    have hunheard : s.1.closeStatus.received = false := by
      rw [h.heard, hlive]
      rfl
    have hsame : (rx.run (eventIsMsgQueueable s.1) cfg added).fate.heard =
        (rx.run true cfg added).fate.heard := by
      cases hfate : (rx.run true cfg added).fate with
      | live rx' => rw [htells.live rx' hfate]
      | off heard r =>
        obtain ⟨r', hoff⟩ := htells.off heard r hfate
        rw [hoff]
        rfl
    refine ⟨items ++ added, d', look', ?_, ?_, ?_, ?_, ?_, ?_, ?_⟩
    · rw [ht.received]
      exact (h.reads.extend new).trans (Rx.run_live hlive) ht.reads
    · rw [hrun]
      intro rx' hfate
      have hfate' := htells.live rx' hfate
      rw [hfate'] at hends
      exact ⟨(ht.listens rx' hfate').1.ready.ok, hends.2.1⟩
    · rw [hrun]
      intro hon'
      cases hfate : (rx.run true cfg added).fate with
      | live rx' => exact ⟨rx', rfl, ht.listens rx' (htells.live rx' hfate)⟩
      | off heard r =>
        obtain ⟨r', hoff⟩ := htells.off heard r hfate
        rw [hf.enabled, hoff] at hon'
        cases hon'
    · rw [hf.heard, hunheard, Bool.or_false, hsame, hrun]
    · rw [hf.code, hsame, hrun, h.code, hlive]
      rfl
    · have hset := hl.models.settings.delivers.trans hdel
      have hbefore := h.data
      have hadded := htells.data
      unfold Io.deliveredData Report.data Report.messages at *
      rw [hf.calls, hrun, List.filterMap_append, List.filterMap_append, List.filter_append,
        List.filter_append, filterMap_takes hset, hbefore, hadded]
    · intro hheard
      cases hq : eventIsMsgQueueable s.1 with
      | false =>
        have hended : Ended s.2.queued s := ⟨hq, rfl⟩
        exact ((ended_kept s.2.queued).eventRecv hended).1
      | true =>
        rw [hf.heard, hunheard, Bool.or_false, hsame] at hheard
        cases hfate : (rx.run true cfg added).fate with
        | live rx' =>
          rw [hfate] at hheard
          cases hheard
        | off heard r =>
          rw [hfate] at hheard
          obtain ⟨code, rfl⟩ := Option.isSome_iff_exists.1 hheard
          obtain ⟨reason, hreason⟩ := Rx.run_answers hfate
          rw [queueable_sendPart hf.send, hq]
          exact answerAll_close hreason s
  · rw [eventRecv_off (Bool.eq_false_iff.2 hon)]
    exact ⟨items, d, look, h⟩

end

/-- What holds of a context in any run of the calls that are made. -/
theorem hearing_run (server : Bool) (callbacks : EventCallbacks) (hset : callbacks.onMsgRecv = true)
    (noBuffering : Bool) (limit : Nat) {io : Io} (hio : io.Fresh) (hcalm : io.Calm)
    (hwilling : io.Willing) {ops : List Op} (hops : ∀ op ∈ ops, op.Polite) :
    ∃ items d look, Hearing (.of server callbacks noBuffering limit)
      (runOps (configured server callbacks noBuffering limit, io) ops) items d look := by
  have hstart : Hearing (.of server callbacks noBuffering limit)
      (configured server callbacks noBuffering limit, io) [] .head [] := by
    have hruns := configured_runs server callbacks noBuffering limit hcalm
    refine ⟨?_, ?_, ?_, rfl, rfl, ?_, ?_⟩
    · show Reads .head io.received [] .head []
      rw [hcalm.received]
      exact .stop _ _
    · intro rx _
      exact ⟨hruns.listens.ready.ok, rfl⟩
    · intro _
      exact ⟨_, rfl, hruns.listens, hruns.sound⟩
    · show io.deliveredData = _
      unfold Io.deliveredData
      rw [hcalm.calls]
      rfl
    · intro hheard
      cases hheard
  have hstep : ∀ (s : EventContext × Io) (op : Op), op.Polite →
      (Parting (.of server callbacks noBuffering limit) s ∧
        ∃ items d look, Hearing (.of server callbacks noBuffering limit) s items d look) →
      Parting (.of server callbacks noBuffering limit) (step s op).2 ∧
        ∃ items d look, Hearing (.of server callbacks noBuffering limit) (step s op).2 items d
          look := by
    rintro s op hop ⟨hp, items, d, look, h⟩
    refine ⟨hp.step hop, ?_⟩
    cases op with
    | call a => exact ⟨items, d, look, h.call a⟩
    | recv => exact h.recv hp hset
  exact (runOps_inv hstep hops
    ⟨configured_parting server callbacks noBuffering limit hio hcalm hwilling, _, _, _, hstart⟩).2

/-! ## The Close is handed over -/

/-- What a report says is heard is what is noted of a Close that has been sent. -/
theorem codeOf_statusOf (body : List UInt8) :
    codeOf body = if statusOf body = 0 then codeNoStatusRcvd else statusOf body := rfl

/-- **The Close that `s` has sent has come to `t`**, which has read all octets, has
delivered the messages before the Close, knows the status code that `s` has noted, and
takes no more messages to be sent. -/
structure HandedOver (s t : EventContext × Io) : Prop where
  off : s.1.writeEnabled = false
  octets : t.2.received = s.2.wire
  code : t.1.statusCodeRecv = s.1.statusCodeSent
  whole : ∃ sent f, s.2.wire = (sent ++ [f]).flatMap Frame.encode ∧ f.IsClose ∧
    t.2.deliveredData = (Assembly.idle.allMessages sent).filter isDataMessage
  answered : eventIsMsgQueueable t.1 = false

section

variable {cfg : RxConfig} {s t : EventContext × Io} {pre : List Frame} {close : Option Frame}
  {owed look rest : List UInt8} {items : List Item} {d : Dec}

/-- **A Close that has been received** has been handed over. -/
theorem Hearing.handedOver (h : Hearing cfg t items d look)
    (hleaves : Leaves s (pre ++ close.toList) owed) (hclose : ∀ f, close = some f → f.IsClose)
    (hrest : t.2.received ++ rest = s.2.wire)
    (htakes : TakesLeave pre close (rest ++ owed) (Rx.fresh.run true cfg items))
    (hheard : t.1.closeStatus.received = true) : HandedOver s t := by
  have hsome := h.heard.symm.trans hheard
  cases hfate : (Rx.fresh.run true cfg items).fate with
  | live rx =>
    rw [hfate] at hsome
    cases hsome
  | off heard r =>
    obtain ⟨f, rfl, hnil, rfl, hdata⟩ := htakes.gone heard r hfate
    obtain ⟨rfl, rfl⟩ := List.append_eq_nil_iff.1 hnil
    have hlast : (pre ++ Option.toList (some f)).getLast? = some f := List.getLast?_concat
    have hshut : s.1.writeEnabled = false := hleaves.ends.2 ⟨⟨f, hlast, hclose f rfl⟩, rfl⟩
    have hwire := hleaves.wire
    rw [List.append_nil] at hrest hwire
    refine ⟨hshut, hrest, ?_, ⟨pre, f, hwire, hclose f rfl, h.data.trans hdata⟩, h.answered hheard⟩
    obtain ⟨g, hg, -, hcode⟩ := hleaves.code hshut
    rw [hlast] at hg
    cases hg
    rw [hcode, h.code, hfate, codeOf_statusOf]
    rfl

/-- **What one context has sent and the other has received.** -/
theorem Parting.handsOver {own : RxConfig} (hs : Parting own s) (h : Hearing cfg t items d look)
    (hbuf : cfg.noBuffering = false) (hdel : cfg.delivers = true) (hlimit : cfg.limit < 2 ^ 64)
    (hrole : (!s.1.server) = cfg.server) (hcivil : ∀ q ∈ s.2.queued, q.Civil cfg.limit)
    (hway : t.2.received <+: s.2.wire) :
    t.2.deliveredData <+: s.2.queuedData.filterMap EventOmsg.message ∧
      (t.1.closeStatus.received = true → HandedOver s t) ∧
      (t.2.received = s.2.wire → s.1.writeEnabled = false →
        t.1.closeStatus.received = true) := by
  obtain ⟨sent, owed, hd⟩ := hs.dispatch
  have hleaves := hd.leaves
  obtain ⟨pre, close, rfl, htaking, hdata⟩ := hleaves.leaveTaking hrole hcivil
  have hclose : ∀ f, close = some f → f.IsClose := fun f hf => (htaking.good f hf).frame.opcode
  obtain ⟨rest, hrest⟩ := hway
  have hmore : t.2.received ++ (rest ++ owed) = (pre ++ close.toList).flatMap Frame.encode := by
    rw [← hleaves.wire, ← hrest, List.append_assoc]
  have htakes := h.reads.of_leaving hbuf hdel hlimit htaking hmore
  refine ⟨?_, h.handedOver hleaves hclose hrest htakes, ?_⟩
  · rw [h.data]
    exact htakes.data.trans hdata
  · intro hall hoff
    obtain ⟨⟨f, hlast, hf⟩, rfl⟩ := hleaves.ends.1 hoff
    cases close with
    | none =>
      rw [Option.toList_none, List.append_nil] at hlast
      exact absurd hf (htaking.sendable.noClose f (List.mem_of_getLast? hlast))
    | some g =>
      have hwire := hleaves.wire
      rw [List.append_nil] at hwire
      rw [h.heard]
      cases hfate : (Rx.fresh.run true cfg items).fate with
      | live rx =>
        obtain ⟨hok, hwait⟩ := h.waits rx hfate
        have hstop := htaking.stops hbuf hdel hlimit h.reads (hall.trans hwire) hok hwait
        rw [hfate] at hstop
        cases hstop
      | off heard r =>
        obtain ⟨-, -, -, rfl, -⟩ := htakes.gone heard r hfate
        rfl

end

/-- **A Close is handed over.**  Two contexts, one of each side, queue, send and receive in
any order, all that the one has queued can be taken by the other, and the octets that the
other has received so far are the first of those that the one has written, cut in any way.
Then the other delivers data messages in the order in which they have been queued.  It
receives a Close only with the last octet that the one writes, and if it has received
all octets it has received a Close as soon as the one has stopped writing. -/
theorem close_is_handed_over (server : Bool) (callbacks callbacks' : EventCallbacks)
    (hset : callbacks'.onMsgRecv = true) (noBuffering : Bool) (limit limit' : Nat)
    (hlimit' : limit' < 2 ^ 64) {io io' : Io} (hio : io.Fresh) (hcalm : io.Calm)
    (hwilling : io.Willing) (hio' : io'.Fresh) (hcalm' : io'.Calm) (hwilling' : io'.Willing)
    {ops ops' : List Op} (hops : ∀ op ∈ ops, op.Polite) (hops' : ∀ op ∈ ops', op.Polite) :
    let s := runOps (configured server callbacks noBuffering limit, io) ops
    let t := runOps (configured (!server) callbacks' false limit', io') ops'
    (∀ q ∈ s.2.queued, q.Civil limit') → t.2.received <+: s.2.wire →
      t.2.deliveredData <+: s.2.queuedData.filterMap EventOmsg.message ∧
        (t.1.closeStatus.received = true → HandedOver s t) ∧
        (t.2.received = s.2.wire → s.1.writeEnabled = false →
          t.1.closeStatus.received = true) := by
  intro s t hcivil hway
  have hs : Parting (.of server callbacks noBuffering limit) s :=
    (configured_parting server callbacks noBuffering limit hio hcalm hwilling).run hops
  obtain ⟨items, d, look, h⟩ := hearing_run (!server) callbacks' hset false limit' hio' hcalm'
    hwilling' hops'
  exact hs.handsOver h rfl hset hlimit' (congrArg not (runOps_server _ ops)) hcivil hway

/-! ## The closing handshake -/

/-- The context of the side `p` after its calls. -/
def Ends.after (e : Ends) (io : Bool → Io) (ops : Bool → List Op) (p : Bool) : EventContext × Io :=
  runOps ((e.start io).side p) (ops p)

/-- A context that takes no more messages and has nothing to send has sent its Close. -/
theorem Parting.closed {cfg : RxConfig} {s : EventContext × Io} (h : Parting cfg s)
    (hq : eventIsMsgQueueable s.1 = false) (hwant : eventWantWrite s.1 = false) :
    s.1.writeEnabled = false := by
  by_contra hon
  have hlive : s.1.writeEnabled = true := by simpa using hon
  have hqueued : s.1.closeStatus.queued = true := by
    unfold eventIsMsgQueueable at hq
    rw [hlive, Bool.true_and] at hq
    simpa using hq
  have hclosing : OnCourse True (fun _ => True) s := ⟨fun _ => hqueued, h.onCourse.2⟩
  exact hon (hclosing.unwanted hwant)

/-- **The closing handshake comes to its end.**  On both sides the calls are made in any
order, and what is queued can be taken by the other side.  When one side takes no more
messages because of a Close, all octets that have been written have been received, and
there is nothing left to be written, then each side has sent a Close and received that of
the other, and knows its status code. -/
theorem closing_handshake (e : Ends) (he : e.Ok) (io : Bool → Io)
    (hio : ∀ p, (io p).Fresh ∧ (io p).Calm ∧ (io p).Willing) (ops : Bool → List Op)
    (hops : ∀ p, ∀ op ∈ ops p, op.Polite) (p : Bool) :
    let side := e.after io ops
    (∀ p, ∀ q ∈ (side p).2.queued, q.Civil (e.limit !p)) →
      (∀ p, (side p).2.received = (side !p).2.wire) →
      (∀ p, eventWantWrite (side p).1 = false) → eventIsMsgQueueable (side p).1 = false →
      ∀ p, (side p).1.closeStatus.received = true ∧ HandedOver (side !p) (side p) := by
  intro side hcivil hall hwant hq
  have hparting : ∀ p, Parting (e.cfg p) (side p) := fun p =>
    (configured_parting p (e.callbacks p) false (e.limit p) (hio p).1 (hio p).2.1 (hio p).2.2).run
      (hops p)
  have hpass : ∀ p, ((side p).1.closeStatus.received = true → HandedOver (side !p) (side p)) ∧
      ((side !p).1.writeEnabled = false → (side p).1.closeStatus.received = true) := by
    intro p
    obtain ⟨items, d, look, h⟩ := hearing_run p (e.callbacks p) (he.set p) false (e.limit p)
      (hio p).1 (hio p).2.1 (hio p).2.2 (hops p)
    have hrole : (!(side !p).1.server) = (e.cfg p).server :=
      (congrArg not (runOps_server _ (ops !p))).trans (Bool.not_not p)
    have hqueued : ∀ q ∈ (side !p).2.queued, q.Civil (e.cfg p).limit := by
      have hother := hcivil !p
      rw [Bool.not_not] at hother
      exact hother
    have hway : (side p).2.received <+: (side !p).2.wire := by
      rw [hall p]
    obtain ⟨-, hover, hheard⟩ := (hparting !p).handsOver h rfl (he.set p) (he.limit p) hrole hqueued
      hway
    exact ⟨hover, hheard (hall p)⟩
  -- the side that takes no more messages has sent its Close, and then the other one has too
  have hoff := (hparting p).closed hq (hwant p)
  have hother : (side !p).1.closeStatus.received = true := (hpass !p).2 (by rwa [Bool.not_not])
  have hover := (hpass !p).1 hother
  have hself := (hpass p).2 ((hparting !p).closed hover.answered (hwant !p))
  intro p'
  rcases Bool.eq_or_eq_not p' p with rfl | rfl
  · exact ⟨hself, (hpass p').1 hself⟩
  · exact ⟨hother, hover⟩

/-! ## A farewell on both sides -/

/-- The server says something and takes its leave, and the client answers.  The octets come
in portions. -/
def partingIo (p : Bool) : Io :=
  if p then
    { recvs := [.data [0x88, 0x83, 1, 2, 3], .fail (some Err.wouldblock.code),
        .data [4, 2, 0xeb, 0x61]]
      sends := .accept 3 :: List.replicate 9 (.accept 100) }
  else
    { recvs := [.data [0x81, 2, 104], .fail (some Err.wouldblock.code), .data [105, 0x88, 3, 3],
        .data [0xe9, 98]]
      sends := List.replicate 9 (.accept 100)
      masks := [some ⟨1, 2, 3, 4⟩] }

def partingCalls (p : Bool) : List Op :=
  if p then
    [.call (.queueMsg ⟨textFrame, [104, 105]⟩), .call .send, .call (.queueClose 1001 [98]),
      .call .send, .recv, .recv]
  else [.recv, .recv, .call .send, .recv, .call .send]

theorem partingIo_ready (p : Bool) :
    (partingIo p).Fresh ∧ (partingIo p).Calm ∧ (partingIo p).Willing := by
  have herror : (partingIo p).error = 0 := by cases p <;> rfl
  have hrecvs : ∀ err, RecvResult.fail (some err) ∈ (partingIo p).recvs →
      err = 0 ∨ err = Err.wouldblock.code := by
    intro err herr
    refine Or.inr ?_
    cases p <;> simpa [partingIo] using herr
  have hsends : ∀ r ∈ (partingIo p).sends, r.Willing := by
    intro r hr
    cases p with
    | true =>
      rcases List.mem_cons.1 hr with rfl | hr
      · trivial
      · rw [(List.mem_replicate.1 hr).2]
        trivial
    | false =>
      rw [(List.mem_replicate.1 hr).2]
      trivial
  have hmem : (partingIo p).MemOk := by
    unfold Io.MemOk
    cases p <;> decide
  have hmasks : none ∉ (partingIo p).masks := by cases p <;> decide
  refine ⟨⟨?_, ?_, ?_, ?_, ?_, ?_⟩, ⟨?_, hmem, ⟨Or.inl herror, hrecvs⟩, ?_, ?_, ?_⟩,
    ⟨Or.inl herror, hsends, hmasks⟩⟩
  all_goals cases p <;> rfl

theorem partingCalls_polite (p : Bool) : ∀ op ∈ partingCalls p, op.Polite := by
  intro op hop
  cases p with
  | true =>
    simp only [partingCalls, if_true, List.mem_cons, List.not_mem_nil, or_false] at hop
    rcases hop with rfl | rfl | rfl | rfl | rfl | rfl
    · exact ⟨by decide, by decide⟩
    all_goals trivial
  | false =>
    simp only [partingCalls, Bool.false_eq_true, if_false, List.mem_cons, List.not_mem_nil,
      or_false] at hop
    rcases hop with rfl | rfl | rfl | rfl | rfl <;> trivial

/-- What the two sides have queued. -/
theorem parting_civil (p : Bool) :
    ∀ q ∈ (talkers.after partingIo partingCalls p).2.queued, q.Civil 100 := by
  have hascii : ∀ b ∈ ([3, 0xe9, 98] : List UInt8).drop 2, b ≤ 0x7f := by
    intro b hb
    rw [List.mem_singleton.1 hb]
    decide
  have hclose : (QueuedMsg.msg ⟨connectionClose, [3, 0xe9, 98]⟩).Civil 100 :=
    Or.inr ⟨_, rfl, ⟨Or.inr (by decide), hascii, by decide⟩⟩
  have htext : (QueuedMsg.msg ⟨textFrame, [104, 105]⟩).Civil 100 :=
    Or.inl ⟨100, by decide, by decide, Or.inl ⟨rfl, by decide⟩⟩
  intro q hq
  cases p with
  | true =>
    have hqueued : (talkers.after partingIo partingCalls true).2.queued =
        [.msg ⟨textFrame, [104, 105]⟩, .msg ⟨connectionClose, [3, 0xe9, 98]⟩] := by
      decide +kernel
    rw [hqueued] at hq
    simp only [List.mem_cons, List.not_mem_nil, or_false] at hq
    rcases hq with rfl | rfl
    · exact htext
    · exact hclose
  | false =>
    have hqueued : (talkers.after partingIo partingCalls false).2.queued =
        [.msg ⟨connectionClose, [3, 0xe9, 98]⟩] := by
      decide +kernel
    rw [hqueued] at hq
    rw [List.mem_singleton.1 hq]
    exact hclose

theorem talkers_after (p : Bool) : talkers.after partingIo partingCalls p =
    runOps (configured p ⟨false, false, false, true⟩ false 100, partingIo p) (partingCalls p) := rfl

/-- What the client has of the server. -/
theorem close_is_handed_over_parting :
    let s := runOps (configured true ⟨false, false, false, true⟩ false 100, partingIo true)
      (partingCalls true)
    let t := runOps (configured (!true) ⟨false, false, false, true⟩ false 100, partingIo false)
      (partingCalls false)
    t.2.deliveredData <+: s.2.queuedData.filterMap EventOmsg.message ∧
      (t.1.closeStatus.received = true → HandedOver s t) ∧
      (t.2.received = s.2.wire → s.1.writeEnabled = false → t.1.closeStatus.received = true) := by
  obtain ⟨hfresh, hcalm, hwilling⟩ := partingIo_ready true
  obtain ⟨hfresh', hcalm', hwilling'⟩ := partingIo_ready false
  have hcivil := parting_civil true
  rw [talkers_after] at hcivil
  exact close_is_handed_over true ⟨false, false, false, true⟩ ⟨false, false, false, true⟩ rfl false
    100 100 (by decide) hfresh hcalm hwilling hfresh' hcalm' hwilling' (partingCalls_polite true)
    (partingCalls_polite false) hcivil (by decide +kernel)

/-- Each has received the Close of the other. -/
theorem closing_handshake_parting :
    let side := talkers.after partingIo partingCalls
    ((side true).1.closeStatus.received = true ∧ HandedOver (side !true) (side true)) ∧
      (side false).1.closeStatus.received = true ∧ HandedOver (side !false) (side false) := by
  intro side
  have h := closing_handshake talkers talkers_ok partingIo partingIo_ready partingCalls
    partingCalls_polite true parting_civil (by decide +kernel) (by decide +kernel)
    (by decide +kernel)
  exact ⟨h true, h false⟩

/-- The status code. -/
example : ∀ p, (talkers.after partingIo partingCalls p).1.statusCodeRecv = 1001 := by
  decide +kernel

end Wslay
