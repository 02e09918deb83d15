import Wslay.Event.Recv
import Wslay.Frame.Halves

/-!
# Runs of the event layer

A run is a list of calls of the application on one context.  What the callbacks
do during the run, one call of a callback after the other, is laid down in the
`Io` it starts from.

`wslay_event_recv` calls `wslay_event_send` only through the application, and
touches the sending half of the context only to queue something.  So whatever
is true of the sending half and survives the calls of the application survives
`wslay_event_recv` (`Kept.eventRecv`).

* `step`, `runOps` — one call, and a run.
* `configured` — the contexts that runs start from.
* `SendSame`, `Aside` — nothing has happened to the sending half.
* `Survives`, `Kept` — what survives the work of the receiver, and the calls of the application.
-/

namespace Wslay

open Loop (Step)

/-! ## Operations and runs -/

/-- A call of the event layer by the application. -/
inductive Op where
  | call (a : AppCall)
  | recv
  deriving DecidableEq, Repr

/-- One call: its result, and the state after it. -/
def step (s : EventContext × Io) : Op → Int × EventContext × Io
  | .call a => appCall s.1 s.2 a
  | .recv => eventRecv s.1 s.2

/-- The state after some calls. -/
def runOps (s : EventContext × Io) (ops : List Op) : EventContext × Io :=
  ops.foldl (fun s op => (step s op).2) s

/-- A context as `wslay_event_context_new` builds it, with its two settings. -/
def configured (server : Bool) (callbacks : EventCallbacks) (noBuffering : Bool)
    (maxRecvMsgLength : Nat) : EventContext :=
  eventConfigSetMaxRecvMsgLength (eventConfigSetNoBuffering (freshContext server callbacks)
    noBuffering) maxRecvMsgLength

theorem runOps_append (s : EventContext × Io) (ops ops' : List Op) :
    runOps s (ops ++ ops') = runOps (runOps s ops) ops' := by
  rw [runOps, List.foldl_append]
  rfl

/-- What every call keeps, a run keeps. -/
theorem runOps_inv {P : EventContext × Io → Prop} {ok : Op → Prop}
    (hstep : ∀ s op, ok op → P s → P (step s op).2) {s : EventContext × Io} {ops : List Op}
    (hok : ∀ op ∈ ops, ok op) (hs : P s) : P (runOps s ops) := by
  induction ops generalizing s with
  | nil => exact hs
  | cons op ops ih =>
    exact ih (fun o ho => hok o (List.mem_cons_of_mem _ ho))
      (hstep s op (hok op (List.mem_cons_self ..)) hs)

/-- Some pass of `wslay_event_send` in a run begins in `t`. -/
def SendsFrom (s : EventContext × Io) (ops : List Op) (t : EventContext × Io) : Prop :=
  ∃ before, before ++ [.call .send] <+: ops ∧ Loop.Reaches sendPass (runOps s before) t

theorem sendsFrom_nil (s t : EventContext × Io) : ¬ SendsFrom s [] t := by
  rintro ⟨before, hp, -⟩
  simpa using hp.length_le

/-- The passes of a run are those of its first call, and those of the others. -/
theorem sendsFrom_cons (s t : EventContext × Io) (op : Op) (ops : List Op) :
    SendsFrom s (op :: ops) t ↔
      op = .call .send ∧ Loop.Reaches sendPass s t ∨ SendsFrom (step s op).2 ops t := by
  constructor
  · rintro ⟨before, hp, ht⟩
    cases before with
    | nil =>
      rw [List.nil_append, List.cons_prefix_cons] at hp
      exact Or.inl ⟨hp.1.symm, ht⟩
    | cons op' before =>
      rw [List.cons_append, List.cons_prefix_cons] at hp
      obtain ⟨rfl, hp⟩ := hp
      exact Or.inr ⟨before, hp, ht⟩
  · rintro (⟨rfl, ht⟩ | ⟨before, hp, ht⟩)
    · exact ⟨[], by simp, ht⟩
    · exact ⟨op :: before, by rwa [List.cons_append, List.cons_prefix_cons, and_iff_right rfl], ht⟩

/-! ## The sending half -/

/-- The fields of the sending half of a context. -/
def EventContext.sendHalf (c : EventContext) :=
  (c.server, c.closeStatus.queued, c.closeStatus.sent, c.writeEnabled, c.statusCodeSent,
    c.frameCtx.sendHalf, c.omsg, c.sendQueue, c.sendCtrlQueue, c.queuedMsgCount,
    c.queuedMsgLength, c.obuf, c.obufmark, c.opayloadlen, c.opayloadoff)

/-- Nothing has happened to the sending half. -/
structure SendSame (s s' : EventContext × Io) : Prop where
  context : s'.1.sendHalf = s.1.sendHalf
  io : s'.2.sendHalf = s.2.sendHalf
  apps : ∀ calls ∈ s'.2.apps, calls ∈ s.2.apps

theorem SendSame.refl (s : EventContext × Io) : SendSame s s := ⟨rfl, rfl, fun _ h => h⟩

theorem SendSame.trans {s s' s'' : EventContext × Io} (h : SendSame s s') (h' : SendSame s' s'') :
    SendSame s s'' :=
  ⟨h'.context.trans h.context, h'.io.trans h.io, fun l hl => h.apps l (h'.apps l hl)⟩

theorem queueable_congr {s s' : EventContext × Io} (h : SendSame s s') :
    eventIsMsgQueueable s'.1 = eventIsMsgQueueable s.1 ∧ s'.2.queued = s.2.queued := by
  have hc := h.context
  have hio := h.io
  simp only [EventContext.sendHalf, Prod.mk.injEq] at hc
  simp only [Io.sendHalf, Prod.mk.injEq] at hio
  exact ⟨by rw [eventIsMsgQueueable, eventIsMsgQueueable, hc.2.1, hc.2.2.2.1], hio.2.2.2.2.1⟩

@[simp] theorem sendHalf_setImsg (c : EventContext) (m : EventImsg) :
    (c.setImsg m).sendHalf = c.sendHalf := by
  unfold EventContext.setImsg
  cases c.imsg <;> rfl

@[simp] theorem frameCtx_setImsg (c : EventContext) (m : EventImsg) :
    (c.setImsg m).frameCtx = c.frameCtx := by
  unfold EventContext.setImsg
  cases c.imsg <;> rfl

/-- From `s` to `s'` the receiver has done some work of its own: no callback of the application
has run, and some memory may have been allocated. -/
structure Aside (s s' : EventContext × Io) : Prop where
  context : s'.1.sendHalf = s.1.sendHalf
  io : s'.2.sendHalf = s.2.sendHalf
  apps : s'.2.apps = s.2.apps
  mem : s'.2.mem <:+ s.2.mem

theorem Aside.sendSame {s s' : EventContext × Io} (h : Aside s s') : SendSame s s' :=
  ⟨h.context, h.io, fun _ hl => h.apps ▸ hl⟩

/-- The sending half is the same, and some memory may have been allocated. -/
theorem Aside.of_allocates {c c' : EventContext} {io io' : Io} (hc : c'.sendHalf = c.sendHalf)
    (h : io.Allocates io') : Aside (c, io) (c', io') := by
  refine ⟨hc, ?_, ?_, h.mem⟩ <;> rw [h.eq]
  rfl

/-! ## A property of the sending half that calls of the application keep -/

/-- `P` speaks of the sending half, and the calls that are `ok` keep it.  Those
that the application makes from its receive callbacks are, and so are the
automatic replies. -/
structure Kept (ok : AppCall → Prop) (P : EventContext × Io → Prop) : Prop where
  same : ∀ {s s'}, SendSame s s' → P s → P s'
  call : ∀ {c io a}, ok a → P (c, io) → P (appCall c io a).2
  apps : ∀ {s}, P s → ∀ calls ∈ s.2.apps, ∀ a ∈ calls, ok a
  pong : ∀ data, ok (.queueMsg ⟨pong, data⟩)
  close : ∀ code reason, ok (.queueClose code reason)

/-- `P` survives what the receiver does: its own work, the callbacks that run meanwhile, and
the automatic replies. -/
structure Survives (P : EventContext × Io → Prop) : Prop where
  aside : ∀ {s s'}, Aside s s' → P s → P s'
  notify : ∀ (isSet : Bool) (call : Call) {c io}, P (c, io) → P (notify isSet call c io)
  pong : ∀ data {c io}, P (c, io) → P (eventQueueMsg c ⟨pong, data⟩ io).2
  close : ∀ code reason {c io}, P (c, io) → P (eventQueueClose c code reason io).2

section

variable {ok : AppCall → Prop} {P : EventContext × Io → Prop}

theorem Kept.mono (h : Kept ok P) {s s' : EventContext × Io} (hs : P s) (hss : SendSame s s') :
    P s' :=
  h.same hss hs

theorem Survives.mono (h : Survives P) {s s' : EventContext × Io} (hs : P s) (ha : Aside s s') :
    P s' :=
  h.aside ha hs

theorem Kept.appCalls (h : Kept ok P) {calls : List AppCall} (hok : ∀ a ∈ calls, ok a)
    {s : EventContext × Io} (hs : P s) : P (appCalls s calls) := by
  induction calls generalizing s with
  | nil => exact hs
  | cons a calls ih =>
    exact ih (fun b hb => hok b (List.mem_cons_of_mem _ hb))
      (h.call (hok a (List.mem_cons_self ..)) hs)

theorem Kept.notify (h : Kept ok P) (isSet : Bool) (call : Call) {c : EventContext} {io : Io}
    (hs : P (c, io)) : P (notify isSet call c io) := by
  unfold Wslay.notify
  cases isSet with
  | false => exact hs
  | true =>
    have happs := h.apps hs
    cases ha : io.apps with
    | nil =>
      simp only [if_true]
      exact h.mono hs ⟨rfl, rfl, fun l hl => by simp at hl⟩
    | cons calls rest =>
      simp only [if_true]
      rw [ha] at happs
      refine h.appCalls (happs calls (List.mem_cons_self ..)) (h.mono hs ⟨rfl, rfl, fun l hl => ?_⟩)
      rw [ha]
      exact List.mem_cons_of_mem _ hl

theorem Kept.survives (h : Kept ok P) : Survives P where
  aside := fun ha => h.same ha.sendSame
  notify := fun isSet call _ _ => h.notify isSet call
  pong := fun data _ _ => h.call (h.pong data)
  close := fun code reason _ _ => h.call (h.close code reason)

/-! ## What the receiver does -/

theorem Survives.closeWrapper (h : Survives P) (code : UInt16) (reason : List UInt8) {c : EventContext}
    {io : Io} (hs : P (c, io)) : P (eventQueueCloseWrapper c code reason io).2 := by
  have hc : P (eventQueueClose { c with readEnabled := false } code reason io).2 :=
    h.close code reason (h.mono hs ⟨rfl, rfl, rfl, List.suffix_rfl⟩)
  unfold eventQueueCloseWrapper
  obtain ⟨r, c', io', heq⟩ : ∃ r c' io',
      eventQueueClose { c with readEnabled := false } code reason io = (r, c', io') := ⟨_, _, _, rfl⟩
  rw [heq] at hc ⊢
  simp only
  split_ifs <;> exact hc

theorem Survives.failWith (h : Survives P) (code : Nat) {c : EventContext} {io : Io} (hs : P (c, io)) :
    (failWith code c io).All P :=
  h.closeWrapper (UInt16.ofNat code) [] hs

theorem allocates_appendChunk (c : EventContext) (m : EventImsg) (len : Nat) (io : Io) :
    io.Allocates (eventImsgAppendChunk c m len io).2.2 := by
  have h0 := io.malloc_allocates.1
  have h1 := io.malloc.2.malloc_allocates.1
  have h2 := io.malloc.2.malloc.2.malloc_allocates.1
  unfold eventImsgAppendChunk
  split_ifs
  · exact .refl io
  · rcases hm : io.malloc with ⟨_ | _, io₁⟩
    · rw [hm] at h0
      exact h0
    · rw [hm] at h0 h1 h2
      simp only at h0 h1 h2 ⊢
      rcases hm₁ : io₁.malloc with ⟨_ | _, io₂⟩
      · rw [hm₁] at h1
        exact h0.trans h1
      · rw [hm₁] at h1 h2
        simp only at h1 h2 ⊢
        rcases hm₂ : io₂.malloc with ⟨_ | _, io₃⟩ <;> rw [hm₂] at h2 <;>
          exact (h0.trans h1).trans h2

theorem allocates_flatten (q : ChunkQueue) (len : Nat) (io : Io) :
    io.Allocates (eventFlattenQueue q len io).2.2 := by
  have h0 := io.malloc_allocates.1
  unfold eventFlattenQueue
  split_ifs
  · exact .refl io
  · rcases hm : io.malloc with ⟨_ | _, io₁⟩ <;> rw [hm] at h0 <;> exact h0

theorem sendHalf_recvNewFrame {c c' : EventContext} {iocb : Iocb} {newFrame : Bool}
    (h : recvNewFrame c iocb = some (c', newFrame)) : c'.sendHalf = c.sendHalf := by
  unfold recvNewFrame at h
  split_ifs at h <;> simp only [Option.some.injEq, Prod.mk.injEq] at h <;> obtain ⟨rfl, -⟩ := h
  · exact sendHalf_setImsg _ _
  · exact sendHalf_setImsg _ _
  · exact sendHalf_setImsg _ _
  · rfl

theorem Survives.beginFrame (h : Survives P) (iocb : Iocb) {c : EventContext} {io : Io}
    (hs : P (c, io)) : (recvBeginFrame iocb c io).All P := by
  unfold recvBeginFrame
  by_cases hbig : c.maxRecvMsgLength < (c.curImsg.msgLength + iocb.payloadLength) % 2 ^ 64
  · rw [if_pos hbig]
    exact h.failWith _ hs
  · rw [if_neg hbig]
    have hn := h.notify c.callbacks.onFrameRecvStart
      (.frameRecvStart iocb.fin iocb.rsv iocb.opcode iocb.payloadLength)
      (h.mono hs ⟨rfl, rfl, rfl, List.suffix_rfl⟩ : P ({ c with ipayloadlen := iocb.payloadLength }, io))
    obtain ⟨c₁, io₁, heq⟩ : ∃ c₁ io₁, Wslay.notify c.callbacks.onFrameRecvStart
        (.frameRecvStart iocb.fin iocb.rsv iocb.opcode iocb.payloadLength)
        { c with ipayloadlen := iocb.payloadLength } io = (c₁, io₁) := ⟨_, _, rfl⟩
    rw [heq] at hn ⊢
    have hmem := allocates_appendChunk c₁ c₁.curImsg (c₁.toSize iocb.payloadLength) io₁
    obtain ⟨r, m, io₂, hap⟩ : ∃ r m io₂, eventImsgAppendChunk c₁ c₁.curImsg
        (c₁.toSize iocb.payloadLength) io₁ = (r, m, io₂) := ⟨_, _, _, rfl⟩
    rw [hap] at hmem
    simp only [hap]
    split_ifs
    · exact h.mono hn (.of_allocates (sendHalf_setImsg _ _) hmem)
    · exact h.mono hn (.of_allocates (sendHalf_setImsg _ _) hmem)
    · exact hn

theorem Survives.checkUtf8 (h : Survives P) (iocb : Iocb) {c : EventContext} {io : Io}
    (hs : P (c, io)) : (recvCheckUtf8 iocb c io).All P := by
  have hset : ∀ m, P (c.setImsg m, io) := fun m =>
    h.mono hs ⟨sendHalf_setImsg c m, rfl, rfl, List.suffix_rfl⟩
  unfold recvCheckUtf8
  by_cases htext : c.curImsg.opcode = textFrame ∨ c.curImsg.opcode = connectionClose
  · rw [if_pos htext]
    simp only
    obtain ⟨st, rejected, heq⟩ : ∃ st rejected, utf8Scan c.curImsg.utf8state
        (iocb.data.drop (if c.curImsg.opcode = connectionClose then 2 else 0)) = (st, rejected) :=
      ⟨_, _, rfl⟩
    rw [heq]
    simp only
    split_ifs
    · exact h.failWith _ (hset _)
    · exact hset _
    · exact hset _
  · rw [if_neg htext]
    split_ifs <;> exact hs

theorem Survives.store (h : Survives P) (iocb : Iocb) {c : EventContext} {io : Io} (hs : P (c, io)) :
    P (recvStore iocb c io) := by
  have hn := h.notify c.callbacks.onFrameRecvChunk (.frameRecvChunk iocb.data) hs
  unfold recvStore
  obtain ⟨c₁, io₁, heq⟩ : ∃ c₁ io₁, Wslay.notify c.callbacks.onFrameRecvChunk
      (.frameRecvChunk iocb.data) c io = (c₁, io₁) := ⟨_, _, rfl⟩
  rw [heq] at hn ⊢
  simp only
  split_ifs
  · exact h.mono hn ⟨sendHalf_setImsg c₁ _, rfl, rfl, List.suffix_rfl⟩
  · exact h.mono hn ⟨rfl, rfl, rfl, List.suffix_rfl⟩
  · exact hn

theorem Survives.recvClose (h : Survives P) (msg : List UInt8) {c : EventContext} {io : Io}
    (hs : P (c, io)) : (recvClose msg c io).All P := by
  have hreply : ∀ x : Int × EventContext × Io, P x.2 →
      Step.All P (if x.1 ≠ 0 then .leave x.1 x.2 else .again x.2) := by
    rintro ⟨r, c', io'⟩ hx
    split_ifs <;> exact hx
  unfold Wslay.recvClose
  by_cases hbad : 2 ≤ c.curImsg.msgLength ∧ (!eventIsValidStatusCode (Octets.beVal (msg.take 2))) =
      true
  · rw [if_pos hbad]
    exact h.failWith _ hs
  · rw [if_neg hbad]
    exact hreply _ (h.closeWrapper _ _ (h.mono hs ⟨rfl, rfl, rfl, List.suffix_rfl⟩))

theorem Survives.recvPing (h : Survives P) (msg : List UInt8) {c : EventContext} {io : Io}
    (hs : P (c, io)) : (recvPing msg c io).All P := by
  have hp : P (eventQueueMsg c ⟨Wslay.pong, msg⟩ io).2 := h.pong msg hs
  unfold Wslay.recvPing
  obtain ⟨r, c₁, io₁, heq⟩ : ∃ r c₁ io₁, eventQueueMsg c ⟨Wslay.pong, msg⟩ io = (r, c₁, io₁) :=
    ⟨_, _, _, rfl⟩
  rw [heq] at hp ⊢
  simp only
  split_ifs
  · exact h.mono hp ⟨rfl, rfl, rfl, List.suffix_rfl⟩
  · exact hp

theorem Survives.recvMessage (h : Survives P) (iocb : Iocb) {c : EventContext} {io : Io}
    (hs : P (c, io)) : (recvMessage iocb c io).All P := by
  unfold Wslay.recvMessage
  by_cases hwanted : (c.callbacks.onMsgRecv || c.curImsg.opcode == connectionClose ||
      c.curImsg.opcode == ping) = true
  · rw [if_pos hwanted]
    -- putting the chunks together does not touch the sending half
    have hflat : P (recvFlatten iocb c io).2 := by
      unfold recvFlatten
      by_cases hbuf : isBuffered c iocb.opcode = true
      · rw [if_pos hbuf]
        have hmem := allocates_flatten c.curImsg.chunks c.curImsg.msgLength io
        obtain ⟨msg, q, io₁, heq⟩ : ∃ msg q io₁, eventFlattenQueue c.curImsg.chunks
            c.curImsg.msgLength io = (msg, q, io₁) := ⟨_, _, _, rfl⟩
        rw [heq] at hmem ⊢
        simp only
        split_ifs
        · exact h.mono hs (.of_allocates (sendHalf_setImsg _ _) hmem)
        · exact h.mono hs (.of_allocates (sendHalf_setImsg _ _) hmem)
      · rw [if_neg hbuf]
        exact hs
    obtain ⟨msg, c₁, io₁, heq⟩ : ∃ msg c₁ io₁, recvFlatten iocb c io = (msg, c₁, io₁) :=
      ⟨_, _, _, rfl⟩
    rw [heq] at hflat ⊢
    cases msg with
    | none => exact hflat
    | some msg =>
      refine Step.All.andThen (P := P) ?_ (fun _ hp => hp) ?_
      · split_ifs
        · exact h.recvClose msg hflat
        · exact h.recvPing msg hflat
        · exact hflat
      · intro s hp
        split_ifs
        · exact h.notify _ _ (h.mono hp ⟨rfl, rfl, rfl, List.suffix_rfl⟩)
        · exact hp
  · rw [if_neg hwanted]
    exact hs

theorem Survives.complete (h : Survives P) (iocb : Iocb) {c : EventContext} {io : Io}
    (hs : P (c, io)) : (recvComplete iocb c io).All P := by
  unfold recvComplete
  split_ifs
  · exact h.failWith _ hs
  · have hn := h.notify c.callbacks.onFrameRecvEnd .frameRecvEnd hs
    obtain ⟨c₁, io₁, heq⟩ : ∃ c₁ io₁, Wslay.notify c.callbacks.onFrameRecvEnd .frameRecvEnd c io =
        (c₁, io₁) := ⟨_, _, rfl⟩
    rw [heq] at hn ⊢
    simp only
    refine Step.All.andThen (P := P) ?_ (fun _ hp => hp)
      (fun s hp => h.mono hp ⟨rfl, rfl, rfl, List.suffix_rfl⟩)
    split_ifs
    · refine (h.recvMessage iocb hn).andThen (fun _ hp => hp) fun s hp => ?_
      exact h.mono hp ⟨sendHalf_setImsg _ _, rfl, rfl, List.suffix_rfl⟩
    · exact hn
  · exact hs

theorem Survives.recvPiece (h : Survives P) (iocb : Iocb) {c : EventContext} {io : Io}
    (hs : P (c, io)) : (recvPiece iocb c io).All P := by
  unfold Wslay.recvPiece
  split_ifs
  · exact h.failWith _ hs
  · cases hnew : recvNewFrame c iocb with
    | none => exact h.failWith _ hs
    | some x =>
      obtain ⟨c₁, newFrame⟩ := x
      have hs₁ : P (c₁, io) := h.mono hs ⟨sendHalf_recvNewFrame hnew, rfl, rfl, List.suffix_rfl⟩
      simp only
      refine Step.All.andThen (P := P) ?_ (fun _ hp => hp) fun s hp =>
        (h.checkUtf8 iocb hp).andThen (fun _ hp => hp) fun s hp => h.complete iocb (h.store iocb hp)
      cases newFrame with
      | true => exact h.beginFrame iocb hs₁
      | false => exact hs₁

/-! ## The whole of `wslay_event_recv` -/

theorem sendHalf_frameCtx {c : EventContext} {f : FrameContext}
    (h : f.sendHalf = c.frameCtx.sendHalf) : { c with frameCtx := f }.sendHalf = c.sendHalf := by
  simp only [EventContext.sendHalf, h]

theorem Survives.recvPass (h : Survives P) {s : EventContext × Io} (hs : P s) :
    (recvPass s).All P := by
  obtain ⟨c, io⟩ := s
  have hsame := frameSendSame_frameRecv c.frameCtx io
  unfold Wslay.recvPass
  simp only
  obtain ⟨r, f, io', heq⟩ : ∃ r f io', frameRecv c.frameCtx io = (r, f, io') := ⟨_, _, _, rfl⟩
  rw [heq] at hsame ⊢
  obtain ⟨hf, hio, happs, hmem⟩ := hsame
  have hkeep : io'.mem <:+ io.mem := hmem ▸ List.suffix_rfl
  have hs' : P ({ c with frameCtx := f }, io') :=
    h.mono hs ⟨sendHalf_frameCtx hf, hio, happs, hkeep⟩
  split_ifs
  · cases r with
    | ok iocb => exact h.recvPiece iocb hs'
    | error e =>
      simp only
      unfold recvFrameError
      have hw := h.closeWrapper 0 [] hs'
      obtain ⟨r, c₂, io₂, heq₂⟩ : ∃ r c₂ io₂,
          eventQueueCloseWrapper { c with frameCtx := f } 0 [] io' = (r, c₂, io₂) := ⟨_, _, _, rfl⟩
      rw [heq₂] at hw ⊢
      simp only
      split_ifs
      · exact hw
      · exact hw
      · exact hs'
  · exact hs

/-- **What survives the work of the receiver, the callbacks and the replies survives
`wslay_event_recv`.** -/
theorem Survives.eventRecv (h : Survives P) {s : EventContext × Io} (hs : P s) :
    P (eventRecv s.1 s.2).2 := by
  unfold Wslay.eventRecv
  cases hrun : Loop.run Wslay.recvPass (recvFuel s.1 s.2) (s.1, s.2) with
  | none => exact hs
  | some x =>
    obtain ⟨r, s'⟩ := x
    exact Loop.run_inv (fun t ht => h.recvPass ht) hs hrun

/-- **What the calls of the application keep, `wslay_event_recv` keeps.** -/
theorem Kept.eventRecv (h : Kept ok P) {s : EventContext × Io} (hs : P s) :
    P (eventRecv s.1 s.2).2 :=
  h.survives.eventRecv hs

theorem Kept.runOps (h : Kept ok P) {s : EventContext × Io} (hs : P s) {ops : List Op}
    (hok : ∀ a, .call a ∈ ops → ok a) : P (runOps s ops) := by
  have hstep : ∀ s op, (∀ a, op = .call a → ok a) → P s → P (step s op).2 := by
    intro s op ho hp
    cases op with
    | call a => exact h.call (ho a rfl) hp
    | recv => exact h.eventRecv hp
  exact runOps_inv hstep (fun op hop a ha => hok a (ha ▸ hop)) hs

end

end Wslay
