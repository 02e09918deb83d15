import Wslay.Event.Failures

/-!
# The two loops end

Neither loop of the event layer has a counter.  A pass of the loop of
`wslay_event_recv` that goes round has consumed an octet; a pass of the loop of
`wslay_event_send` that goes round has finished a message or a fragment, and a
message that it puts back costs nothing.

* `supplied`, `inReach` — the octets that a call of `wslay_event_recv` can consume.
* `recvPass_inReach` — every pass that goes round consumes one of them.
* `PassFinishes`, `sendPass_finishes` — what the other loop has done in a pass.
* `event_loops_end` — both loops, in every reachable state.
-/

namespace Wslay

open Loop (Step)

/-! ## The loop of `wslay_event_recv` -/

/-- The octets that `recv_callback` supplies before it first gives a result `<= 0`. -/
def supplied : List RecvResult → Nat
  | [] => 0
  | .fail _ :: _ => 0
  | .data bs :: rs => if bs = [] then 0 else bs.length + supplied rs

/-- The octets that a call of `wslay_event_recv` can consume: those in the buffer
and those that are supplied. -/
def inReach (s : EventContext × Io) : Nat := s.1.frameCtx.avail.length + supplied s.2.recvs

theorem Stores.supplied {rs rs' : List RecvResult} (h : Stores rs rs') :
    supplied rs + (pendingOctets rs').length = supplied rs' + (pendingOctets rs).length := by
  induction h with
  | refl rs => rfl
  | whole hne _ ih =>
    simp only [Wslay.supplied, if_neg hne, pendingOctets, List.flatMap_cons,
      List.length_append] at ih ⊢
    omega
  | part hne hne' =>
    simp only [Wslay.supplied, if_neg hne, if_neg hne', pendingOctets, List.flatMap_cons,
      List.length_append]
    omega

/-- A pass that goes round has got a piece from `wslay_frame_recv`. -/
theorem frameRecv_of_again {s t : EventContext × Io} (h : recvPass s = .again t) :
    s.1.readEnabled = true ∧ ∃ iocb, (frameRecv s.1.frameCtx s.2).1 = .ok iocb := by
  have hon : s.1.readEnabled = true := by
    by_contra hoff
    rw [recvPass, if_neg hoff] at h
    cases h
  refine ⟨hon, ?_⟩
  obtain ⟨r, f, io, heq⟩ : ∃ r f io, frameRecv s.1.frameCtx s.2 = (r, f, io) := ⟨_, _, _, rfl⟩
  cases r with
  | ok iocb => exact ⟨iocb, by rw [heq]⟩
  | error e =>
    rw [recvPass_error hon heq] at h
    obtain ⟨r', s', hleave, -⟩ := recvFrameError_state e { s.1 with frameCtx := f } io
    rw [hleave] at h
    cases h

/-- **A pass that goes round consumes an octet**, one of those in reach. -/
theorem recvPass_inReach {cfg : RxConfig} {s t : EventContext × Io} (hs : Hears cfg s)
    (h : recvPass s = .again t) : unread t < unread s ∧ inReach t < inReach s := by
  obtain ⟨hon, iocb, hok⟩ := frameRecv_of_again h
  obtain ⟨rx, d, look, hl⟩ := hs hon
  have hfewer := (recvPass_hears hs).2 t h
  have hgives := frameRecv_gives hl.ready.asksFew s.2 hok
  have hsame : SameInput (fed s) t := by
    obtain ⟨bs, -, -, -, ⟨d', look', -, heq, -⟩ | ⟨-, heq⟩ | ⟨hdr, off, hd, raw, d', look', -, -, ht⟩⟩ :=
      recvPass_steps hl hon
    · obtain ⟨r, s', hleave, -⟩ := recvFrameError_state .wantRead (fed s).1 (fed s).2
      rw [heq, hleave] at h
      cases h
    · obtain ⟨r, s', hleave, -⟩ := recvFrameError_state .proto (fed s).1 (fed s).2
      rw [heq, hleave] at h
      cases h
    · rcases ht.outcome with ⟨-, r, s', heq, -⟩ | hout
      · rw [heq] at h
        cases h
      · rcases hout.cases with ⟨s', rx', heq, hsame, -⟩ | ⟨r, s', heq, -⟩
        · rw [heq] at h
          cases h
          exact hsame
        · rw [heq] at h
          cases h
  have hcount := hgives.stores.supplied
  rw [show (frameRecv s.1.frameCtx s.2).2.2.recvs = t.2.recvs from hsame.recvs.symm] at hcount
  refine ⟨hfewer, ?_⟩
  unfold unread at hfewer
  unfold inReach
  omega

/-- A call of `wslay_event_recv` ends within one pass for each octet in reach, and
one more. -/
theorem eventRecv_ends {cfg : RxConfig} {s : EventContext × Io} (hs : Hears cfg s) :
    Loop.run recvPass (inReach s + 1) s = some (eventRecv s.1 s.2) := by
  have hends : (Loop.run recvPass (inReach s + 1) s).isSome := by
    refine Loop.run_isSome (P := Hears cfg) (μ := inReach) (fun a b ha hab => ?_) hs (by omega)
    have hnext := (recvPass_hears ha).1
    rw [hab] at hnext
    exact ⟨hnext, (recvPass_inReach ha hab).2⟩
  rcases Nat.le_total (inReach s + 1) (recvFuel s.1 s.2) with hle | hle
  · obtain ⟨x, hx⟩ := Option.isSome_iff_exists.1 hends
    have hfull := Loop.run_mono hle hx
    rw [eventRecv_run hs] at hfull
    rw [hx, hfull]
  · exact Loop.run_mono hle (eventRecv_run hs)

/-! ## The loop of `wslay_event_send` -/

/-- From `s`, with `m` in hand, to `t` the sender has finished a message or a fragment. -/
inductive PassFinishes (m : EventOmsg) (t : EventContext × Io) : Prop
  /-- The message has been sent to its end. -/
  | message : t.1.omsg = none → PassFinishes m t
  /-- A fragment has been sent to its end; the message goes on. -/
  | fragment (m' : EventOmsg) : m.type = .fragmented → t.1.omsg = some m' → m'.type = .fragmented →
      m'.opcode = continuationFrame → t.1.obufmark = t.1.obuf.length → PassFinishes m t

theorem sendFragment_finishes {c : EventContext} {m m' : EventOmsg} {io : Io}
    {t : EventContext × Io} (htype : m.type = .fragmented) (htype' : m'.type = .fragmented)
    (h : sendFragment c m' io = .again t) : PassFinishes m t := by
  obtain ⟨-, -, hmark, ⟨-, homsg⟩ | ⟨-, homsg⟩⟩ := sendFragment_again h
  · exact .message homsg
  · exact .fragment _ htype homsg htype' rfl hmark

theorem sendOmsg_finishes {s t : EventContext × Io} (h : sendOmsg s = .again t) :
    ∃ m, s.1.omsg = some m ∧ PassFinishes m t := by
  unfold sendOmsg at h
  cases homsg : s.1.omsg with
  | none =>
    rw [homsg] at h
    cases h
  | some m =>
    rw [homsg] at h
    refine ⟨m, rfl, ?_⟩
    simp only at h
    cases htype : m.type with
    | nonFragmented =>
      rw [if_pos htype] at h
      unfold sendNonFragmented at h
      obtain ⟨r, f, io₁, heq⟩ : ∃ r f io₁, frameSend s.1.frameCtx (nonFragmentedIocb s.1 m) s.2 =
          (r, f, io₁) := ⟨_, _, _, rfl⟩
      rw [heq] at h
      cases r with
      | error e =>
        simp only [sendFrameError] at h
        split_ifs at h
      | ok length =>
        simp only at h
        split_ifs at h with hend
        cases h
        refine .message ?_
        unfold finishNonFragmented
        simp only
        split_ifs <;> rfl
    | fragmented =>
      rw [if_neg (by simp [htype])] at h
      unfold sendFragmented at h
      split_ifs at h with hcond
      · unfold readFragment at h
        cases hsource : m.source with
        | nil =>
          rw [hsource] at h
          cases h
        | cons r rs =>
          rw [hsource] at h
          cases r with
          | fail e => cases h
          | data bs eof fits =>
            by_cases hnil : bs = []
            · simp only [if_pos hnil] at h
              cases h
            · simp only [if_neg hnil, Step.andThen_again] at h
              have htype' : ({ m with source := rs, fin := if eof then 1 else m.fin } :
                  EventOmsg).type = .fragmented := htype
              exact sendFragment_finishes htype htype' h
      · exact sendFragment_finishes htype htype h

/-- **A pass that goes round has finished a message or a fragment** of the message
that it has chosen, and leaves less to do. -/
theorem sendPass_finishes {s t : EventContext × Io} (h : sendPass s = .again t) :
    (∃ c io m, sendPick s.1 s.2 = .again (c, io) ∧ c.omsg = some m ∧ PassFinishes m t) ∧
      t.1.workLeft < s.1.workLeft := by
  refine ⟨?_, sendPass_workLeft h⟩
  unfold sendPass at h
  split_ifs at h
  cases hp : sendPick s.1 s.2 with
  | leave r u =>
    rw [hp] at h
    cases h
  | again u =>
    rw [hp, Step.andThen_again] at h
    obtain ⟨m, homsg, hfin⟩ := sendOmsg_finishes h
    exact ⟨u.1, u.2, m, rfl, homsg, hfin⟩

/-! ## Runs -/

/-- **The event loops end.**  In every run, and for every stream, each pass of the
loop of `wslay_event_recv` that goes round has consumed an octet, and the call ends
within one pass for each octet that is in the buffer or supplied before
`recv_callback` first gives a result `<= 0`, and one more.  In whatever state
`wslay_event_send` is called, each pass that goes round has finished a message or a
fragment and leaves less to do, and the call ends within one pass for each frame
that the messages may still need, and one more. -/
theorem event_loops_end (server : Bool) (callbacks : EventCallbacks) (noBuffering : Bool)
    (maxRecvMsgLength : Nat) (io : Io) (ops : List Op) (v : EventContext × Io) :
    let s := runOps (configured server callbacks noBuffering maxRecvMsgLength, io) ops
    (∀ t u, Loop.Reaches recvPass s t → recvPass t = .again u →
        unread u < unread t ∧ inReach u < inReach t) ∧
      Loop.run recvPass (inReach s + 1) s = some (eventRecv s.1 s.2) ∧
      (∀ t u, Loop.Reaches sendPass v t → sendPass t = .again u →
        (∃ c io m, sendPick t.1 t.2 = .again (c, io) ∧ c.omsg = some m ∧ PassFinishes m u) ∧
          u.1.workLeft < t.1.workLeft) ∧
      Loop.run sendPass (v.1.workLeft + 1) v = some (eventSend v.1 v.2) := by
  intro s
  have hs := runOps_hears (configured_hears server callbacks noBuffering maxRecvMsgLength io) ops
  refine ⟨fun t u ht hu => recvPass_inReach (hears_reaches hs ht) hu, eventRecv_ends hs,
    fun t u _ hu => sendPass_finishes hu, ?_⟩
  have hends : (Loop.run sendPass (v.1.workLeft + 1) v).isSome :=
    Loop.run_isSome (P := fun _ => True) (μ := fun s => s.1.workLeft)
      (fun _ _ _ h => ⟨trivial, sendPass_workLeft h⟩) trivial (by omega)
  obtain ⟨x, hx⟩ := Option.isSome_iff_exists.1 hends
  have hfuel := Loop.run_mono (workLeft_lt_sendFuel v.1) hx
  rw [hx, eventSend, hfuel]
  rfl

end Wslay
