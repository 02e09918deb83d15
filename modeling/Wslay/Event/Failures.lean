import Wslay.Event.Exits
import Wslay.Event.Ledger
import Wslay.Event.RecvLoop
import Wslay.Frame.Failures

/-!
# Whose failure it is

`ctx->error` belongs to both directions, and only the delivery of a message
clears it.  So a call may take an old error for the reason why its own transfer
was short.  Apart from that, `WSLAY_ERR_CALLBACK_FAILURE` is about the call that
returns it.

* `SendFault`, `RecvFault` — something has failed in a pass.
* `SendStumbles`, `RecvStumbles` — a header is cut short while an old error is set.
* `sendPass_failure`, `recvPass_failure` — a pass that fails has a fault or stumbles.
* `failures_attributed` — the result for whole calls, in every run.
* `stumbling_call_fails` — the converse: a call with a pass that stumbles fails.
-/

namespace Wslay

open Loop (Step)

/-! ## Faults -/

/-- `ctx->error` holds an error other than `WSLAY_ERR_WOULDBLOCK`. -/
def Io.Spoilt (io : Io) : Prop := io.error ≠ Err.wouldblock.code ∧ io.error ≠ 0

/-- A pass of `wslay_event_send` reaches the `read_callback` of the message, which
returns `-1`. -/
def ReadFails (s : EventContext × Io) : Prop :=
  eventWantWrite s.1 = true ∧ ∃ c io m e rs, sendPick s.1 s.2 = .again (c, io) ∧ c.omsg = some m ∧
    m.type = .fragmented ∧ (m.fin = 0 ∧ c.obufmark = c.obuf.length) ∧ m.source = .fail e :: rs

/-- A callback fails in the pass of `wslay_event_send` that begins in `s`. -/
inductive SendFault (s : EventContext × Io) : Prop
  /-- `send_callback` returns a value `<= 0`, and the error is not `WSLAY_ERR_WOULDBLOCK`. -/
  | refused : SendRefused s.2 (sendPass s).state.2 →
      (sendPass s).state.2.error ≠ Err.wouldblock.code → SendFault s
  /-- `send_callback` returns more than it was offered. -/
  | overran : SendOverran s.2 (sendPass s).state.2 → SendFault s
  | genmask : MaskFailed s.2 (sendPass s).state.2 → SendFault s
  | read : ReadFails s → SendFault s

/-- What the pass of `wslay_event_send` that begins in `s` hands to
`wslay_frame_send`. -/
def frameToSend (s : EventContext × Io) : Option (FrameContext × Iocb × Io) :=
  if eventWantWrite s.1 then
    match sendPick s.1 s.2 with
    | .leave _ _ => none
    | .again (c, io) =>
      match c.omsg with
      | none => none
      | some m =>
        if m.type = .nonFragmented then some (c.frameCtx, nonFragmentedIocb c m, io)
        else if m.fin = 0 ∧ c.obufmark = c.obuf.length then
          match readFragment c m io with
          | .leave _ _ => none
          | .again (c, io) => c.omsg.map fun m => (c.frameCtx, fragmentIocb c m, io)
        else some (c.frameCtx, fragmentIocb c m, io)
  else none

/-- The pass of `wslay_event_send` that begins in `s` fails although no callback
does: a header is cut short while an error is set, or a frame is begun whose
length no header can express. -/
def SendStumbles (s : EventContext × Io) : Prop :=
  ∃ f iocb io, frameToSend s = some (f, iocb, io) ∧
    (ShortWrite f iocb io ∧ s.2.Spoilt ∨ f.ostate = .prepHeader ∧ 2 ^ 63 ≤ iocb.payloadLength)

/-- What the pass of `wslay_event_recv` that begins in `s` gets from
`wslay_frame_recv`: the world after it. -/
def afterFrameRecv (s : EventContext × Io) : Io := (frameRecv s.1.frameCtx s.2).2.2

/-- Something fails in the pass of `wslay_event_recv` that begins in `s`. -/
inductive RecvFault (s : EventContext × Io) : Prop
  /-- `recv_callback` returns a value `<= 0`, and the error is not `WSLAY_ERR_WOULDBLOCK`. -/
  | refused : RecvRefused s.2 (afterFrameRecv s) →
      (afterFrameRecv s).error ≠ Err.wouldblock.code → RecvFault s
  /-- The octets in hand and those that `recv_callback` stores are a malformed header. -/
  | malformed (look bs : List UInt8) : Ready s.1.frameCtx .head look →
      Delivers s.2 bs (afterFrameRecv s) → parseHeader (look ++ bs) = .malformed → RecvFault s

/-- In the pass of `wslay_event_recv` that begins in `s` a header falls short
while an error is set. -/
def RecvStumbles (s : EventContext × Io) : Prop := ShortRead s.1.frameCtx s.2 ∧ s.2.Spoilt

/-! ## One pass of `wslay_event_send` -/

/-- The world in which a message has been chosen. -/
theorem Picks.io {c c₁ : EventContext} {io io₁ : Io} {h : Hand}
    (hp : Picks c io h (.again (c₁, io₁))) :
    io₁.sends = io.sends ∧ io₁.masks = io.masks ∧ io₁.error = io.error := by
  cases hp with
  | keep => exact ⟨rfl, rfl, rfl⟩
  | data => exact ⟨rfl, rfl, rfl⟩
  | ctrl dropped m rest io' _ _ ha =>
    rw [ha.eq]
    exact ⟨rfl, rfl, rfl⟩

/-- What a pass that fails in `wslay_frame_send` comes to. -/
theorem frame_failure {f : FrameContext} {e : Enc} (hv : EncView f e) {iocb : Iocb}
    (hle : iocb.data.length ≤ iocb.payloadLength)
    (hctrl : isCtrlFrame iocb.opcode = true → iocb.payloadLength ≤ 125) (io : Io) {err : Err}
    (he : (frameSend f iocb io).1 = .error err) {c : EventContext} {u : EventContext × Io}
    (hx : sendFrameError err c (frameSend f iocb io).2.2 = .leave Err.callbackFailure.code u) :
    (SendRefused io u.2 ∧ u.2.error ≠ Err.wouldblock.code ∨ SendOverran io u.2 ∨
        MaskFailed io u.2) ∨
      ShortWrite f iocb io ∧ io.Spoilt ∨
      f.ostate = .prepHeader ∧ 2 ^ 63 ≤ iocb.payloadLength := by
  -- a pass that leaves so has an error set, unless it was more than a short transfer
  have hu : u.2 = (frameSend f iocb io).2.2 ∧ (err = .wantWrite → u.2.Spoilt) := by
    unfold sendFrameError at hx
    split_ifs at hx with hbad
    · cases hx
      exact ⟨rfl, fun hw => (hbad.resolve_left (not_not.2 hw))⟩
    · simp only [Step.leave.injEq] at hx
      exact absurd hx.1 (by decide)
  obtain ⟨hu, hspoilt⟩ := hu
  have hfail := frameSend_failure hv hle io he
  rw [← hu] at hfail
  rcases hfail with ⟨rfl, (href | hblock) | ⟨hshort, herr⟩⟩ | ⟨rfl, ho | hm⟩ | ⟨rfl, rfl, hno⟩
  · exact Or.inl (Or.inl ⟨href, (hspoilt rfl).1⟩)
  · exact absurd hblock (hspoilt rfl).1
  · refine Or.inr (Or.inl ⟨hshort, ?_⟩)
    rw [Io.Spoilt, ← herr]
    exact hspoilt rfl
  · exact Or.inl (Or.inr (Or.inl ho))
  · exact Or.inl (Or.inr (Or.inr hm))
  · refine Or.inr (Or.inr ⟨?_, ?_⟩)
    · cases hv with
      | idle h => exact h
    · by_contra hlt
      exact hno ⟨by omega, hctrl⟩

/-- The two ways of sending, for a pass that comes to `wslay_frame_send`. -/
theorem sendPass_of_frame {s u : EventContext × Io} {c : EventContext} {f : FrameContext} {e : Enc}
    {iocb : Iocb} {io : Io} (hv : EncView f e) (hle : iocb.data.length ≤ iocb.payloadLength)
    (hctrl : isCtrlFrame iocb.opcode = true → iocb.payloadLength ≤ 125)
    (hsends : io.sends = s.2.sends) (hmasks : io.masks = s.2.masks) (herror : io.error = s.2.error)
    (hframe : frameToSend s = some (f, iocb, io))
    (hx : sendPass s = .leave Err.callbackFailure.code u) {err : Err} 
    (he : (frameSend f iocb io).1 = .error err)
    (herr : sendFrameError err c (frameSend f iocb io).2.2 = .leave Err.callbackFailure.code u) :
    SendFault s ∨ SendStumbles s := by
  have hstate : (sendPass s).state = u := by rw [hx]; rfl
  rcases frame_failure hv hle hctrl io he herr with (⟨⟨r, hr, hs⟩, hwb⟩ | ⟨n, ho⟩ | hm) |
    ⟨hshort, hspoilt⟩ | hlong
  · rw [hsends] at hs
    exact Or.inl (.refused (hstate ▸ ⟨r, hr, hs⟩) (hstate ▸ hwb))
  · rw [hsends] at ho
    exact Or.inl (.overran (hstate ▸ ⟨n, ho⟩))
  · rw [MaskFailed, hmasks] at hm
    exact Or.inl (.genmask (hstate ▸ hm))
  · rw [Io.Spoilt, herror] at hspoilt
    exact Or.inr ⟨f, iocb, io, hframe, Or.inl ⟨hshort, hspoilt⟩⟩
  · exact Or.inr ⟨f, iocb, io, hframe, Or.inr hlong⟩

theorem sendNonFragmented_leave {c : EventContext} {m : EventOmsg} {io : Io} {u : EventContext × Io}
    (hx : sendNonFragmented c m io = .leave Err.callbackFailure.code u) :
    ∃ err c', (frameSend c.frameCtx (nonFragmentedIocb c m) io).1 = .error err ∧
      sendFrameError err c' (frameSend c.frameCtx (nonFragmentedIocb c m) io).2.2 =
        .leave Err.callbackFailure.code u := by
  unfold sendNonFragmented at hx
  obtain ⟨r, f, io', hcall⟩ : ∃ r f io', frameSend c.frameCtx (nonFragmentedIocb c m) io =
      (r, f, io') := ⟨_, _, _, rfl⟩
  rw [hcall] at hx ⊢
  cases r with
  | error err => exact ⟨err, _, rfl, hx⟩
  | ok n =>
    simp only at hx
    split_ifs at hx
    simp only [Step.leave.injEq] at hx
    exact absurd hx.1 (by decide)

theorem sendFragment_leave {c : EventContext} {m : EventOmsg} {io : Io} {u : EventContext × Io}
    (hx : sendFragment c m io = .leave Err.callbackFailure.code u) :
    ∃ err c', (frameSend c.frameCtx (fragmentIocb c m) io).1 = .error err ∧
      sendFrameError err c' (frameSend c.frameCtx (fragmentIocb c m) io).2.2 =
        .leave Err.callbackFailure.code u := by
  unfold sendFragment at hx
  obtain ⟨r, f, io', hcall⟩ : ∃ r f io', frameSend c.frameCtx (fragmentIocb c m) io =
      (r, f, io') := ⟨_, _, _, rfl⟩
  rw [hcall] at hx ⊢
  cases r with
  | error err => exact ⟨err, _, rfl, hx⟩
  | ok n =>
    simp only at hx
    split_ifs at hx
    simp only [Step.leave.injEq] at hx
    exact absurd hx.1 (by decide)

/-- A pass that has taken a message in hand fails at `wslay_frame_send`, or at the
`read_callback`. -/
theorem sendPass_failure {s u : EventContext × Io} (hs : Accounted s)
    (hx : sendPass s = .leave Err.callbackFailure.code u) : SendFault s ∨ SendStumbles s := by
  have hx' := hx
  unfold sendPass at hx'
  by_cases hwant : eventWantWrite s.1 = true
  · rw [if_pos hwant] at hx'
    have hlive : s.1.writeEnabled = true := by
      simp only [eventWantWrite, Bool.and_eq_true] at hwant
      exact hwant.1
    obtain ⟨sent, owed, data, ctrl, ha⟩ := hs
    obtain ⟨h, hh, -, hfit, -⟩ := ha.live hlive
    have hp := sendPick_spec hh hfit s.2
    obtain ⟨x, hpick⟩ : ∃ x, sendPick s.1 s.2 = x := ⟨_, rfl⟩
    rw [hpick] at hp hx'
    cases x with
    | leave r t =>
      exfalso
      simp only [Step.andThen_leave, Step.leave.injEq] at hx'
      cases hp <;> exact absurd hx'.1 (by decide)
    | again t =>
      obtain ⟨c, io⟩ := t
      obtain ⟨h₁, hc⟩ := hp.chosen hh hfit
      obtain ⟨hsends, hmasks, herror⟩ := hp.io
      rw [Step.andThen_again] at hx'
      have hholds := hc.holds
      -- a message that is sent in one frame
      have hwhole : ∀ {m : EventOmsg} {e : Enc}, c.omsg = some m → m.FitWhole →
          EncView c.frameCtx e → c.opayloadlen = m.data.length → SendFault s ∨ SendStumbles s := by
        intro m e homsg hfits hv hlen
        have hframe : frameToSend s = some (c.frameCtx, nonFragmentedIocb c m, io) := by
          simp only [frameToSend, hwant, hpick, homsg, hfits.1, if_true]
        have hsend : sendOmsg (c, io) = sendNonFragmented c m io := by
          simp only [sendOmsg, homsg, hfits.1, if_true]
        rw [hsend] at hx'
        obtain ⟨err, c', he, herr⟩ := sendNonFragmented_leave hx'
        refine sendPass_of_frame hv ?_ ?_ hsends hmasks herror hframe hx he herr
        · simp only [nonFragmentedIocb, List.length_take, List.length_drop]
          omega
        · intro hctrl
          exact hlen.le.trans (hfits.2.2 hctrl)
      cases hholds with
      | empty homsg =>
        simp only [sendOmsg, homsg, Step.leave.injEq] at hx'
        exact absurd hx'.1 (by decide)
      | start m homsg hfits hstate hlen => exact hwhole homsg hfits (.idle hstate) hlen
      | whole m hrest homsg hfits hv hlen => exact hwhole homsg hfits hv hlen
      | fragment m hrest homsg htype hfin hdata hv hlt hlen =>
        have hne : ¬ (m.fin = 0 ∧ c.obufmark = c.obuf.length) := fun h => by omega
        have hframe : frameToSend s = some (c.frameCtx, fragmentIocb c m, io) := by
          simp [frameToSend, hwant, hpick, homsg, htype, hne]
        have hsend : sendOmsg (c, io) = sendFragment c m io := by
          simp [sendOmsg, homsg, htype, sendFragmented, hne]
        rw [hsend] at hx'
        obtain ⟨err, c', he, herr⟩ := sendFragment_leave hx'
        refine sendPass_of_frame hv ?_ ?_ hsends hmasks herror hframe hx he herr
        · simp only [fragmentIocb, List.length_drop, hlen]
          omega
        · intro hctrl
          rw [show (fragmentIocb c m).opcode = m.opcode from rfl, hdata] at hctrl
          cases hctrl
      | between m homsg htype hfin hdata hstate hobuf hmark =>
        have hread : m.fin = 0 ∧ c.obufmark = c.obuf.length := ⟨hfin, by rw [hmark, hobuf]; rfl⟩
        have hsend : sendOmsg (c, io) = (readFragment c m io).andThen sendNextFragment := by
          simp only [sendOmsg, homsg, htype, sendFragmented, reduceCtorEq, if_false]
          exact if_pos hread
        rw [hsend] at hx'
        unfold readFragment at hx'
        cases hsource : m.source with
        | nil =>
          simp only [hsource, Step.andThen_leave, Step.leave.injEq] at hx'
          exact absurd hx'.1 (by decide)
        | cons r rs =>
          cases r with
          | fail e => exact Or.inl (.read ⟨hwant, c, io, m, e, rs, hpick, homsg, htype, hread, hsource⟩)
          | data bs eof hbs =>
            by_cases hnil : bs = []
            · simp only [hsource, hnil, if_true, Step.andThen_leave, Step.leave.injEq] at hx'
              exact absurd hx'.1 (by decide)
            · simp only [hsource, hnil, if_false, Step.andThen_again] at hx'
              obtain ⟨err, c', he, herr⟩ := sendFragment_leave hx'
              have hframe : frameToSend s = some (c.frameCtx, fragmentIocb { c with
                  omsg := some { m with source := rs, fin := if eof then 1 else m.fin },
                  obuf := bs, opayloadlen := bs.length, opayloadoff := 0 }
                  { m with source := rs, fin := if eof then 1 else m.fin }, io) := by
                simp [frameToSend, hwant, hpick, homsg, htype, hread, readFragment, hsource, hnil]
              refine sendPass_of_frame (.idle hstate) ?_ ?_ hsends hmasks herror hframe hx he herr
              · simp only [fragmentIocb, List.length_drop]
                omega
              · intro hctrl
                simp only [fragmentIocb, hdata, Bool.false_eq_true] at hctrl
  · rw [if_neg hwant] at hx'
    simp only [Step.leave.injEq] at hx'
    exact absurd hx'.1 (by decide)

/-- What every pass of a call of `wslay_event_send` begins with. -/
theorem accounted_reaches {s t : EventContext × Io} (ha : Accounted s)
    (ht : Loop.Reaches sendPass s t) : Accounted t := by
  refine ht.inv ?_ ha
  rintro a b ⟨sent, owed, data, ctrl, ha⟩ hab
  have hnext := ha.sendPass
  rwa [hab] at hnext

/-- A call of `wslay_event_send` fails in a pass that has a fault or stumbles. -/
theorem eventSend_failure {s : EventContext × Io} (hs : Accounted s)
    (hr : (eventSend s.1 s.2).1 = Err.callbackFailure.code) :
    ∃ t, Loop.Reaches sendPass s t ∧ (SendFault t ∨ SendStumbles t) := by
  obtain ⟨x, hx⟩ := Option.isSome_iff_exists.1 (eventSend_isSome s.1 s.2)
  rw [eventSend, hx, Option.getD_some] at hr
  obtain ⟨r, u⟩ := x
  simp only at hr
  subst hr
  obtain ⟨t, ht, hlast⟩ := Loop.run_leaves hx
  exact ⟨t, ht, sendPass_failure (accounted_reaches hs ht) hlast⟩

/-! ## One pass of `wslay_event_recv` -/

theorem Ready.asksFew {f : FrameContext} {d : Dec} {look : List UInt8} (hr : Ready f d look) :
    AsksFew f := by
  intro hs
  cases hr.view with
  | header1 _ hreq => omega
  | ext b0 b1 _ _ _ _ hreq => omega
  | maskkey g hb _ hreq => omega
  | payload h off hp => exact absurd hp.istate hs

/-- A pass of `wslay_event_recv` fails when `wslay_frame_recv` does. -/
theorem recvPass_failure {cfg : RxConfig} {s u : EventContext × Io} (hs : Hears cfg s)
    (hx : recvPass s = .leave Err.callbackFailure.code u) : RecvFault s ∨ RecvStumbles s := by
  cases hon : s.1.readEnabled with
  | false =>
    simp only [recvPass, hon, Bool.false_eq_true, if_false, Step.leave.injEq] at hx
    exact absurd hx.1 (by decide)
  | true =>
    obtain ⟨rx, d, look, hl⟩ := hs hon
    obtain ⟨bs, hdel, -, -, hcases⟩ := frameRecv_step hl.ready s.2
    rcases hcases with ⟨he, -⟩ | ⟨he, hbad⟩ | ⟨h, off, data, d', look', -, hok, -⟩
    · obtain ⟨r, f, io', hcall⟩ : ∃ r f io', frameRecv s.1.frameCtx s.2 = (r, f, io') :=
        ⟨_, _, _, rfl⟩
      have hwaits := frameRecv_waits hl.ready.asksFew s.2 he
      have hafter : afterFrameRecv s = io' := congrArg (fun x => x.2.2) hcall
      simp only [hcall] at he hwaits
      subst he
      have hpass : recvPass s = recvFrameError .wantRead { s.1 with frameCtx := f } io' :=
        recvPass_error hon hcall
      -- waiting is a failure only while an error is set
      have hspoilt : io'.Spoilt := by
        rw [hpass, recvFrameError] at hx
        by_contra hclean
        rw [if_neg (by
          rintro (h | h)
          · exact h rfl
          · exact hclean h)] at hx
        simp only [Step.leave.injEq] at hx
        exact absurd hx.1 (by decide)
      rcases hwaits with (href | hblock) | ⟨hshort, hg⟩
      · exact Or.inl (.refused (hafter ▸ href) (hafter ▸ hspoilt.1))
      · exact absurd hblock hspoilt.1
      · rw [Io.Spoilt, hg.error] at hspoilt
        exact Or.inr ⟨hshort, hspoilt⟩
    · obtain ⟨rfl, hparse⟩ := takePiece_bad hbad
      exact Or.inl (.malformed look bs hl.ready hdel hparse)
    · exfalso
      obtain ⟨r, f, io', hcall⟩ : ∃ r f io', frameRecv s.1.frameCtx s.2 = (r, f, io') :=
        ⟨_, _, _, rfl⟩
      rw [hcall] at hok
      simp only at hok
      subst hok
      have hpass : recvPass s = recvPiece (h.iocb data) { s.1 with frameCtx := f } io' :=
        recvPass_ok hon hcall
      exact ((recvPiece_exits _ _ _) _ u (hpass.symm.trans hx)).1 rfl

theorem hears_reaches {cfg : RxConfig} {s t : EventContext × Io} (hs : Hears cfg s)
    (h : Loop.Reaches recvPass s t) : Hears cfg t := by
  refine h.inv (fun a b ha hab => ?_) hs
  have hnext := (recvPass_hears ha).1
  rwa [hab] at hnext

/-- A call of `wslay_event_recv` fails in a pass that has a fault or stumbles. -/
theorem eventRecv_failure {cfg : RxConfig} {s : EventContext × Io} (hs : Hears cfg s)
    (hr : (eventRecv s.1 s.2).1 = Err.callbackFailure.code) :
    ∃ t, Loop.Reaches recvPass s t ∧ (RecvFault t ∨ RecvStumbles t) := by
  have hrun := eventRecv_run hs
  obtain ⟨r, u, hcall⟩ : ∃ r u, eventRecv s.1 s.2 = (r, u) := ⟨_, _, rfl⟩
  rw [hcall] at hr hrun
  simp only at hr
  subst hr
  obtain ⟨t, ht, hlast⟩ := Loop.run_leaves hrun
  exact ⟨t, ht, recvPass_failure (hears_reaches hs ht) hlast⟩

/-! ## Passes that stumble -/

/-- What makes a pass stumble makes `wslay_frame_send` fail, and for good. -/
theorem frameSend_stumbles {f : FrameContext} {iocb : Iocb} {io : Io}
    (h : ShortWrite f iocb io ∧ io.Spoilt ∨ f.ostate = .prepHeader ∧ 2 ^ 63 ≤ iocb.payloadLength) :
    ∃ e f' io', frameSend f iocb io = (.error e, f', io') ∧ (e ≠ .wantWrite ∨ io'.Spoilt) := by
  by_cases hle : iocb.payloadLength < iocb.data.length
  · refine ⟨.invalidArgument, f, io, ?_, Or.inl (by simp)⟩
    rw [frameSend, if_pos hle]
  · rcases h with ⟨hshort, hspoilt⟩ | ⟨hstate, hlong⟩
    · obtain ⟨he, herror⟩ := hshort.fails (Nat.not_lt.1 hle)
      refine ⟨.wantWrite, _, _, Prod.ext he rfl, Or.inr ?_⟩
      rw [Io.Spoilt, herror]
      exact hspoilt
    · refine ⟨.invalidArgument, f, io, ?_, Or.inl (by simp)⟩
      have hlen : headerLength iocb.mask iocb.payloadLength = none := by
        rw [headerLength, if_neg (by omega), if_neg (by omega), if_neg (by omega)]
      rw [frameSend, if_neg hle, sendPrepHeader, if_pos hstate, hlen]
      split_ifs <;> rfl

theorem readFragment_again {c c' : EventContext} {m : EventOmsg} {io io' : Io}
    (h : readFragment c m io = .again (c', io')) : io' = io := by
  unfold readFragment at h
  cases hsource : m.source with
  | nil =>
    rw [hsource] at h
    cases h
  | cons r rs =>
    rw [hsource] at h
    cases r with
    | fail e => cases h
    | data bs eof fits =>
      by_cases hnil : bs = []
      · simp only [if_pos hnil] at h
        cases h
      · simp only [if_neg hnil, Step.again.injEq, Prod.mk.injEq] at h
        exact h.2.symm

theorem sendNonFragmented_fatal {c : EventContext} {m : EventOmsg} {io io' : Io} {e : Err}
    {f : FrameContext}
    (heq : frameSend c.frameCtx (nonFragmentedIocb c m) io = (.error e, f, io'))
    (hfatal : e ≠ .wantWrite ∨ io'.Spoilt) :
    ∃ u, sendNonFragmented c m io = .leave Err.callbackFailure.code u := by
  rw [sendNonFragmented, heq]
  exact ⟨_, sendFrameError_fatal hfatal⟩

theorem sendFragment_fatal {c : EventContext} {m : EventOmsg} {io io' : Io} {e : Err}
    {f : FrameContext} (heq : frameSend c.frameCtx (fragmentIocb c m) io = (.error e, f, io'))
    (hfatal : e ≠ .wantWrite ∨ io'.Spoilt) :
    ∃ u, sendFragment c m io = .leave Err.callbackFailure.code u := by
  rw [sendFragment, heq]
  exact ⟨_, sendFrameError_fatal hfatal⟩

/-- **A pass of `wslay_event_send` that stumbles fails.** -/
theorem SendStumbles.fails {s : EventContext × Io} (hs : Accounted s) (h : SendStumbles s) :
    ∃ u, sendPass s = .leave Err.callbackFailure.code u := by
  obtain ⟨f, iocb, io, hframe, hwhy⟩ := h
  unfold frameToSend at hframe
  by_cases hwant : eventWantWrite s.1 = true
  · rw [if_pos hwant] at hframe
    have hlive : s.1.writeEnabled = true := by
      simp only [eventWantWrite, Bool.and_eq_true] at hwant
      exact hwant.1
    obtain ⟨sent, owed, data, ctrl, ha⟩ := hs
    obtain ⟨h, hh, -, hfit, -⟩ := ha.live hlive
    have hp := sendPick_spec hh hfit s.2
    rw [sendPass, if_pos hwant]
    cases hpick : sendPick s.1 s.2 with
    | leave r t =>
      rw [hpick] at hframe
      cases hframe
    | again t =>
      obtain ⟨c, io₁⟩ := t
      rw [hpick] at hframe hp
      obtain ⟨-, -, herror⟩ := hp.io
      rw [Step.andThen_again]
      -- the error has not been touched before the call of `wslay_frame_send`
      have hcall : io.error = io₁.error → ∃ e f' io', frameSend f iocb io = (.error e, f', io') ∧
          (e ≠ .wantWrite ∨ io'.Spoilt) := fun hsame => by
        refine frameSend_stumbles (hwhy.imp_left fun h => ⟨h.1, ?_⟩)
        rw [Io.Spoilt, hsame, herror]
        exact h.2
      cases homsg : c.omsg with
      | none => simp [homsg] at hframe
      | some m =>
        simp only [homsg] at hframe
        by_cases htype : m.type = .nonFragmented
        · rw [if_pos htype] at hframe
          cases hframe
          obtain ⟨e, f', io', heq, hfatal⟩ := hcall rfl
          simp only [sendOmsg, homsg, htype, if_true]
          exact sendNonFragmented_fatal heq hfatal
        · rw [if_neg htype] at hframe
          by_cases hread : m.fin = 0 ∧ c.obufmark = c.obuf.length
          · rw [if_pos hread] at hframe
            cases hfill : readFragment c m io₁ with
            | leave r t =>
              rw [hfill] at hframe
              cases hframe
            | again t =>
              obtain ⟨c', io₂⟩ := t
              rw [hfill] at hframe
              simp only [Option.map_eq_some_iff] at hframe
              obtain ⟨m', homsg', hcases⟩ := hframe
              cases hcases
              obtain rfl := readFragment_again hfill
              obtain ⟨e, f', io', heq, hfatal⟩ := hcall rfl
              simp only [sendOmsg, homsg, if_neg htype, sendFragmented, if_pos hread, hfill,
                Step.andThen_again, homsg']
              exact sendFragment_fatal heq hfatal
          · rw [if_neg hread] at hframe
            cases hframe
            obtain ⟨e, f', io', heq, hfatal⟩ := hcall rfl
            simp only [sendOmsg, homsg, if_neg htype, sendFragmented, if_neg hread]
            exact sendFragment_fatal heq hfatal
  · rw [if_neg hwant] at hframe
    cases hframe

/-- **A pass of `wslay_event_recv` that stumbles fails**, and ends reading. -/
theorem RecvStumbles.fails {cfg : RxConfig} {s : EventContext × Io} (hs : Hears cfg s)
    (hon : s.1.readEnabled = true) (h : RecvStumbles s) :
    ∃ r u, recvPass s = .leave r u ∧ r ≠ 0 ∧ u.1.readEnabled = false := by
  obtain ⟨rx, d, look, hl⟩ := hs hon
  obtain ⟨he, herror⟩ := h.1.waits hl.ready.asksFew
  obtain ⟨r, f, io', hcall⟩ : ∃ r f io', frameRecv s.1.frameCtx s.2 = (r, f, io') := ⟨_, _, _, rfl⟩
  simp only [hcall] at he herror
  subst he
  have hspoilt : io'.Spoilt := by
    rw [Io.Spoilt, herror]
    exact h.2
  have hfail : Err.wantRead ≠ .wantRead ∨ (io'.error ≠ Err.wouldblock.code ∧ io'.error ≠ 0) :=
    Or.inr hspoilt
  rw [recvPass_error hon hcall, recvFrameError, if_pos hfail]
  obtain ⟨-, hoff⟩ := eventQueueCloseWrapper_spares { s.1 with frameCtx := f } 0 [] io'
  obtain ⟨r, c, io₂, heq⟩ : ∃ r c io₂, eventQueueCloseWrapper { s.1 with frameCtx := f } 0 [] io' =
      (r, c, io₂) := ⟨_, _, _, rfl⟩
  rw [heq] at hoff
  simp only [heq]
  by_cases hr : r = 0
  · rw [if_neg (not_not.2 hr)]
    exact ⟨_, _, rfl, by decide, hoff⟩
  · rw [if_pos hr]
    exact ⟨_, _, rfl, hr, hoff⟩

/-- A call of `wslay_event_send` in which a pass stumbles fails. -/
theorem eventSend_stumbles {s t : EventContext × Io} (hs : Accounted s)
    (ht : Loop.Reaches sendPass s t) (h : SendStumbles t) :
    (eventSend s.1 s.2).1 = Err.callbackFailure.code := by
  obtain ⟨u, hfail⟩ := h.fails (accounted_reaches hs ht)
  obtain ⟨⟨r, v⟩, hx⟩ := Option.isSome_iff_exists.1 (eventSend_isSome s.1 s.2)
  obtain ⟨w, hreach, hlast⟩ := ht.run_leaves hx
  rw [hreach.of_leave hfail, hfail] at hlast
  cases hlast
  rw [eventSend, hx]
  rfl

/-- A call of `wslay_event_recv` in which a pass stumbles fails. -/
theorem eventRecv_stumbles {cfg : RxConfig} {s t : EventContext × Io} (hs : Hears cfg s)
    (ht : Loop.Reaches recvPass s t) (hon : t.1.readEnabled = true) (h : RecvStumbles t) :
    (eventRecv s.1 s.2).1 ≠ 0 := by
  obtain ⟨r, u, hfail, hr, -⟩ := h.fails (hears_reaches hs ht) hon
  have hrun := eventRecv_run hs
  obtain ⟨r', v, hcall⟩ : ∃ r' v, eventRecv s.1 s.2 = (r', v) := ⟨_, _, rfl⟩
  rw [hcall] at hrun ⊢
  obtain ⟨w, hreach, hlast⟩ := ht.run_leaves hrun
  rw [hreach.of_leave hfail, hfail] at hlast
  cases hlast
  exact hr

/-! ## Runs -/

/-- The states in which the application can make a call, those inside a receive
callback among them: every call leads to one, and so does whatever leaves the
sending half alone. -/
inductive Visits (start : EventContext × Io) : EventContext × Io → Prop
  | start : Visits start start
  | call {s : EventContext × Io} (a : AppCall) : Visits start s → Visits start (appCall s.1 s.2 a).2
  | aside {s s' : EventContext × Io} : Visits start s → SendSame s s' → Visits start s'

/-- Whatever a run does, it goes through such states, also inside of the callbacks. -/
theorem visits_kept (start : EventContext × Io) : Kept (fun _ => True) (Visits start) where
  same := fun h hs => .aside hs h
  call := fun _ hs => .call _ hs
  apps := fun _ _ _ _ _ => trivial
  pong := fun _ => trivial
  close := fun _ _ => trivial

theorem Visits.inv {P : EventContext × Io → Prop} (hP : Kept (fun _ => True) P)
    {start s : EventContext × Io} (h : Visits start s) (hs : P start) : P s := by
  induction h with
  | start => exact hs
  | call a _ ih => exact hP.call trivial ih
  | aside _ hsame ih => exact hP.same hsame ih

/-- **Failures are attributed to the call in which they happen**, except by a pass
that stumbles.  When no pass of a call of `wslay_event_send` stumbles, the call
returns `WSLAY_ERR_CALLBACK_FAILURE` only if a callback of the sending direction
has failed in one of its passes, whether the application makes the call between two
others or from inside a receive callback; and likewise for a call of
`wslay_event_recv`, with the receiving direction. -/
theorem failures_attributed (server : Bool) (callbacks : EventCallbacks) (noBuffering : Bool)
    (maxRecvMsgLength : Nat) (io : Io) (hio : io.Fresh) :
    (∀ s, Visits (configured server callbacks noBuffering maxRecvMsgLength, io) s →
      (∀ t, Loop.Reaches sendPass s t → ¬ SendStumbles t) →
      (eventSend s.1 s.2).1 = Err.callbackFailure.code →
        ∃ t, Loop.Reaches sendPass s t ∧ SendFault t) ∧
    ∀ ops s, runOps (configured server callbacks noBuffering maxRecvMsgLength, io) ops = s →
      Visits (configured server callbacks noBuffering maxRecvMsgLength, io) s ∧
      ((∀ t, Loop.Reaches recvPass s t → ¬ RecvStumbles t) →
        (eventRecv s.1 s.2).1 = Err.callbackFailure.code →
          ∃ t, Loop.Reaches recvPass s t ∧ RecvFault t) := by
  constructor
  · intro s hs hclean hr
    have ha : Accounted s := hs.inv accounted_kept
      (accounted_configured server callbacks noBuffering maxRecvMsgLength hio)
    obtain ⟨t, ht, hfault | hstumble⟩ := eventSend_failure ha hr
    · exact ⟨t, ht, hfault⟩
    · exact absurd hstumble (hclean t ht)
  · rintro ops s rfl
    refine ⟨(visits_kept _).runOps .start fun _ _ => trivial, fun hclean hr => ?_⟩
    have hh := runOps_hears
      (configured_hears server callbacks noBuffering maxRecvMsgLength io) ops
    obtain ⟨t, ht, hfault | hstumble⟩ := eventRecv_failure hh hr
    · exact ⟨t, ht, hfault⟩
    · exact absurd hstumble (hclean t ht)

/-- A text message, and a `send_callback` that fails. -/
def brokenSend : EventContext × Io :=
  runOps (configured true ⟨false, false, false, false⟩ false 100, { sends := [.fail (some 7)] })
    [.call (.queueMsg ⟨textFrame, [97]⟩)]

/-- The failure of `wslay_event_send` is put down to its own callback. -/
theorem failures_attributed_brokenSend :
    ∃ t, Loop.Reaches sendPass brokenSend t ∧ SendFault t := by
  obtain ⟨hsend, hruns⟩ := failures_attributed true ⟨false, false, false, false⟩ false 100
    { sends := [.fail (some 7)] } ⟨rfl, rfl, rfl, rfl, rfl, rfl⟩
  have hleave : sendPass brokenSend = .leave (-400) (sendPass brokenSend).state := by
    decide +kernel
  refine hsend brokenSend (hruns _ _ rfl).1 (fun t ht => ?_) (by decide +kernel)
  rw [ht.of_leave hleave]
  rintro ⟨f, iocb, io, hframe, ⟨-, hspoilt⟩ | ⟨-, hlong⟩⟩
  · exact hspoilt.2 (by decide +kernel)
  · have hlen : (frameToSend brokenSend).map (fun x => x.2.1.payloadLength) = some 1 := by
      decide +kernel
    rw [hframe] at hlen
    simp only [Option.map_some, Option.some.injEq] at hlen
    omega

/-- **A call in which a pass stumbles does fail**, in every run, also the call of
`wslay_event_send` that is made from inside a receive callback. -/
theorem stumbling_call_fails (server : Bool) (callbacks : EventCallbacks) (noBuffering : Bool)
    (maxRecvMsgLength : Nat) (io : Io) (hio : io.Fresh) :
    (∀ s t, Visits (configured server callbacks noBuffering maxRecvMsgLength, io) s →
      Loop.Reaches sendPass s t → SendStumbles t →
        (eventSend s.1 s.2).1 = Err.callbackFailure.code) ∧
    ∀ ops s t, runOps (configured server callbacks noBuffering maxRecvMsgLength, io) ops = s →
      Loop.Reaches recvPass s t → t.1.readEnabled = true → RecvStumbles t →
        (eventRecv s.1 s.2).1 ≠ 0 := by
  constructor
  · intro s t hs ht hstumble
    have ha : Accounted s := hs.inv accounted_kept
      (accounted_configured server callbacks noBuffering maxRecvMsgLength hio)
    exact eventSend_stumbles ha ht hstumble
  · rintro ops s t rfl ht hon hstumble
    have hh := runOps_hears
      (configured_hears server callbacks noBuffering maxRecvMsgLength io) ops
    exact eventRecv_stumbles hh ht hon hstumble

/-- `recv_callback` fails, the automatic Close is queued, and `send_callback` takes
the first of the two octets of its header. -/
def sharedError : EventContext × Io :=
  runOps (configured true ⟨false, false, false, false⟩ false 100,
    { recvs := [.fail (some 7)], sends := [.accept 1] }) [.recv]

/-- The short write fails, and no callback has failed in the call. -/
theorem sharedError_fails :
    (eventSend sharedError.1 sharedError.2).1 = Err.callbackFailure.code ∧
      ∀ t, Loop.Reaches sendPass sharedError t → ¬ SendFault t := by
  have hleave : sendPass sharedError = .leave (-400) (sendPass sharedError).state := by
    decide +kernel
  refine ⟨by decide +kernel, fun t ht => ?_⟩
  rw [ht.of_leave hleave]
  have hsends : sharedError.2.sends = [.accept 1] ∧ (sendPass sharedError).state.2.sends = [] := by
    decide +kernel
  have hmasks : sharedError.2.masks = [] := by decide +kernel
  rintro (⟨⟨r, hr, hs⟩, -⟩ | ⟨n, hs⟩ | hm | ⟨-, c, io, m, e, rs, hpick, homsg, htype, -⟩)
  · rw [hsends.1, hsends.2] at hs
    have hone := hs.eq_of_length rfl
    cases hone
    exact absurd hr Nat.one_ne_zero
  · rw [hsends.1, hsends.2] at hs
    cases hs.eq_of_length rfl
  · rw [MaskFailed, hmasks] at hm
    simpa using hm.length_le
  · have hwhole : (match sendPick sharedError.1 sharedError.2 with
        | .again t => t.1.omsg.map EventOmsg.type
        | .leave _ _ => none) = some .nonFragmented := by decide +kernel
    rw [hpick] at hwhole
    simp only [homsg, Option.map_some, htype, Option.some.injEq, reduceCtorEq] at hwhole

end Wslay
