import Wslay.Event.Receiving

/-!
# The loop body of `wslay_event_recv` runs the receiver

What one pass does with a piece is what the automaton of the receiver does with
it; each block of the loop body is one part of `Rx.piece`.

* `recvNewFrame_between`, `recvBeginFrame_spec` — the beginning of a frame.
* `recvCheckUtf8_spec`, `recvStore_spec` — its payload.
* `recvMessage_spec`, `recvComplete_spec` — the end of a message and of a frame.
* `recvPiece_spec` — the loop body.
-/

namespace Wslay

open Loop (Step)
open Octets (beVal)

/-! ## The beginning of a frame -/

/-- A frame with header `h` has been let in as part of the message `k`; its length
has not been looked at. -/
structure Opening (cfg : RxConfig) (c : EventContext) (waiting : Option Draft) (k : Draft)
    (h : Header) : Prop where
  beside : Beside cfg c waiting
  bears : Bears cfg c.curImsg k
  fin : c.curImsg.fin = UInt8.ofNat h.fin.toNat
  kind : 8 ≤ h.opcode.val ↔ 8 ≤ k.opcode.val
  known : isData k.opcode = true ∨ isKnownCtrl k.opcode = true
  stored : Stored c.curImsg.chunks.cells k.body
  off : c.ipayloadoff = 0
  alone : waiting ≠ none → 8 ≤ k.opcode.val

/-- A message begins in a free slot. -/
theorem Vacant.set {m : EventImsg} (hv : Vacant m) (cfg : RxConfig) (fin : UInt8)
    (opcode : Fin 16) :
    Bears cfg (m.set fin 0 (UInt8.ofNat opcode.val)) (.start opcode) ∧
      Stored (m.set fin 0 (UInt8.ofNat opcode.val)).chunks.cells (Draft.start opcode).body := by
  refine ⟨⟨rfl, rfl, rfl, Nat.two_pow_pos 64, ?_, fun _ _ => rfl, fun _ => rfl⟩, ?_⟩
  · change Waits m.utf8state []
    rw [hv.utf8state]
    exact waits_accept
  · change Stored m.chunks.cells []
    rw [hv.cells]
    exact ⟨fun _ h => (by cases h), rfl⟩

/-- **Which frames may begin between two frames.** -/
theorem recvNewFrame_between {cfg : RxConfig} {c : EventContext} {waiting : Option Draft}
    (hb : Between cfg c waiting) {h : Header} (hrsv : h.rsv = 0) (data : List UInt8) :
    match belongs waiting h.opcode with
    | none => recvNewFrame c (h.iocb data) = none
    | some (k, rest) => ∃ c', recvNewFrame c (h.iocb data) = some (c', true) ∧
        (∀ io, Works (c, io) (c', io) []) ∧ Opening cfg c' rest k h := by
  have hrsv' : (h.iocb data).rsv = 0 := by
    change UInt8.ofNat h.rsv.val = 0
    rw [hrsv]
    rfl
  have hcur : c.curImsg = c.imsgs0 := by rw [EventContext.curImsg, hb.imsg]
  have hcurrent := hb.current
  cases waiting with
  | none =>
    have hfree : Vacant c.curImsg := hcur ▸ hcurrent
    have hop : opensMessage (h.iocb data).opcode = (isData h.opcode || isKnownCtrl h.opcode) :=
      opensMessage_iff h.opcode
    unfold belongs recvNewFrame
    rw [if_pos hfree.opcode, hop]
    cases hknown : isData h.opcode || isKnownCtrl h.opcode with
    | false => rfl
    | true =>
      obtain ⟨hbears, hstored⟩ := hfree.set cfg (UInt8.ofNat h.fin.toNat) h.opcode
      refine ⟨_, rfl, fun io => .setImsg c _ io, ?_⟩
      rw [hrsv']
      have hbeside : Beside cfg c none := ⟨hb.imsg, hb.other⟩
      refine ⟨hbeside.setImsg _, ?_, ?_, Iff.rfl, ?_, ?_, ?_, fun hne => absurd rfl hne⟩
      · rw [curImsg_setImsg]
        exact hbears
      · rw [curImsg_setImsg]
        rfl
      · rw [Bool.or_eq_true] at hknown
        exact hknown
      · rw [curImsg_setImsg]
        exact hstored
      · rw [ipayloadoff_setImsg]
        exact hb.off
  | some k =>
    have hk : Suspended cfg c.curImsg k := hcur ▸ hcurrent
    have hbusy : c.curImsg.opcode ≠ noOpcode := by
      rw [hk.opcode]
      exact ofNat_opcode_ne_noOpcode k.opcode
    have hcont : (h.iocb data).opcode = continuationFrame ↔ h.opcode = 0 :=
      ofNat_opcode_eq_iff h.opcode 0
    have hinter : interleaves (h.iocb data).opcode = isKnownCtrl h.opcode :=
      interleaves_iff h.opcode
    have hbetween : c.ipayloadlen = 0 ∧ c.ipayloadoff = 0 := ⟨hb.len, hb.off⟩
    by_cases h0 : h.opcode = 0
    · -- the next frame of the data message
      rw [show belongs (some k) h.opcode = some (k, none) from if_pos h0, recvNewFrame,
        if_neg hbusy, if_pos hbetween, if_pos (hcont.2 h0)]
      refine ⟨_, rfl, fun io => .setImsg c _ io, ?_⟩
      have hbeside : Beside cfg c none := ⟨hb.imsg, hb.other⟩
      refine ⟨hbeside.setImsg _, ?_, ?_, ?_, Or.inl hk.data, ?_, ?_, fun hne => absurd rfl hne⟩
      · rw [curImsg_setImsg]
        exact ⟨hk.opcode, hk.rsv, hk.length, hk.small, hk.text, hk.plain, hk.unkept⟩
      · rw [curImsg_setImsg]
        rfl
      · have := isData_not_ctrl hk.data
        rw [h0]
        exact ⟨fun hc => absurd hc (by decide), fun hc => absurd hc this⟩
      · rw [curImsg_setImsg]
        exact hk.stored
      · rw [ipayloadoff_setImsg]
        exact hb.off
    · rw [show belongs (some k) h.opcode = if isKnownCtrl h.opcode then some (.start h.opcode, some k)
        else none from if_neg h0, recvNewFrame, if_neg hbusy, if_pos hbetween,
        if_neg fun hc => h0 (hcont.1 hc), hinter]
      cases hctrl : isKnownCtrl h.opcode with
      | false => rfl
      | true =>
        -- a control frame, which takes the other slot
        have hcur₁ : ({ c with imsg := Slot.one } : EventContext).curImsg = c.imsgs1 := rfl
        obtain ⟨hbears, hstored⟩ := hb.other.set cfg (UInt8.ofNat h.fin.toNat) h.opcode
        refine ⟨_, rfl, fun io => ?_, ?_⟩
        · have hone : Works (c, io) ({ c with imsg := .one }, io) [] :=
            .of_slots io rfl rfl rfl rfl rfl rfl
          exact hone.trans (.setImsg _ _ io)
        · rw [hrsv', hcur₁]
          have hbeside : Beside cfg { c with imsg := .one } (some k) := ⟨rfl, hcurrent⟩
          refine ⟨hbeside.setImsg _, ?_, ?_, Iff.rfl,
            Or.inr hctrl, ?_, ?_, fun _ => isKnownCtrl_ctrl hctrl⟩
          · rw [curImsg_setImsg]
            exact hbears
          · rw [curImsg_setImsg]
            rfl
          · rw [curImsg_setImsg]
            exact hstored
          · rw [ipayloadoff_setImsg]
            exact hb.off

/-- An allocation fails, the pass leaves the loop, and reading is over; of `calls` no
more than a front has been made. -/
def MemFails (s : EventContext × Io) (x : Step (EventContext × Io) Int) (calls : List Call) : Prop :=
  ¬ s.2.MemOk ∧ ∃ r s', x = .leave r s' ∧ r ≠ 0 ∧ s'.1.readEnabled = false ∧
    ∃ made, made <+: calls ∧ s'.2.calls = s.2.calls ++ made.filter s.1.callbacks.takes ∧
      s'.2.received = s.2.received

theorem Works.memOk {s s' : EventContext × Io} {calls : List Call} (h : Works s s' calls)
    (hm : s.2.MemOk) : s'.2.MemOk :=
  fun hf => hm (h.mem.subset hf)

theorem MemFails.later {s s' : EventContext × Io} {calls calls' : List Call}
    {x : Step (EventContext × Io) Int} (h : MemFails s' x calls') (hw : Works s s' calls) :
    MemFails s x (calls ++ calls') := by
  obtain ⟨hm, r, t, hx, hr, hoff, made, hpre, hmade, hreceived⟩ := h
  refine ⟨fun hok => hm (hw.memOk hok), r, t, hx, hr, hoff, calls ++ made,
    (List.prefix_append_right_inj calls).2 hpre, ?_, hreceived.trans hw.received⟩
  rw [hmade, hw.calls, hw.callbacks, List.filter_append, List.append_assoc]

theorem MemFails.andThen {s : EventContext × Io} {x : Step (EventContext × Io) Int}
    {calls : List Call} (h : MemFails s x calls)
    (f : EventContext × Io → Step (EventContext × Io) Int) : MemFails s (x.andThen f) calls := by
  obtain ⟨hm, r, s', rfl, hrest⟩ := h
  exact ⟨hm, r, s', rfl, hrest⟩

theorem MemFails.mono {s : EventContext × Io} {x : Step (EventContext × Io) Int}
    {calls calls' : List Call} (h : MemFails s x calls) (hpre : calls <+: calls') :
    MemFails s x calls' := by
  obtain ⟨hm, r, s', hx, hr, hoff, made, hmade, hrest⟩ := h
  exact ⟨hm, r, s', hx, hr, hoff, made, hmade.trans hpre, hrest⟩

/-- When the work before it has been done, an allocation fails. -/
theorem Works.memFails {s s' : EventContext × Io} {calls : List Call} (hw : Works s s' calls)
    {x : Step (EventContext × Io) Int} (hm : ¬ s.2.MemOk) {r : Int} {c : EventContext}
    (hx : x = .leave r (c, s'.2)) (hr : r ≠ 0) (hoff : c.readEnabled = false) :
    MemFails s x calls :=
  ⟨hm, r, (c, s'.2), hx, hr, hoff, calls, List.prefix_rfl, hw.calls, hw.received⟩

/-- A new chunk: an allocation fails, or it is there. -/
theorem eventImsgAppendChunk_cases (c : EventContext) (m : EventImsg) {len : Nat} (hlen : len ≠ 0)
    (io : Io) :
    ∃ r m' io', eventImsgAppendChunk c m len io = (r, m', io') ∧ Works (c, io) (c, io') [] ∧
      (r ≠ 0 ∧ ¬ io.MemOk ∨
        r = 0 ∧ m' = { m with
          chunks := { m.chunks with cells := m.chunks.cells ++ [⟨[], len⟩] }
          msgLength := c.toSize (m.msgLength + len) }) := by
  have h₁ := io.malloc_allocates
  have w₁ := Works.malloc c io
  have h₂ := io.malloc.2.malloc_allocates
  have w₂ := w₁.trans (Works.malloc c io.malloc.2)
  have h₃ := io.malloc.2.malloc.2.malloc_allocates
  have w₃ := w₂.trans (Works.malloc c io.malloc.2.malloc.2)
  unfold eventImsgAppendChunk
  rw [if_neg hlen]
  rcases hm₁ : io.malloc with ⟨_ | _, io₁⟩
  · rw [hm₁] at h₁ w₁
    exact ⟨_, _, _, rfl, w₁, Or.inl ⟨by decide, fun hm => hm (h₁.2 rfl)⟩⟩
  · rw [hm₁] at w₂ w₃ h₁ h₂ h₃
    dsimp only
    rcases hm₂ : io₁.malloc with ⟨_ | _, io₂⟩
    · rw [hm₂] at h₂ w₂
      exact ⟨_, _, _, rfl, w₂, Or.inl ⟨by decide, fun hm => h₁.1.memOk hm (h₂.2 rfl)⟩⟩
    · rw [hm₂] at w₃ h₂ h₃
      dsimp only
      rcases hm₃ : io₂.malloc with ⟨_ | _, io₃⟩
      · rw [hm₃] at h₃ w₃
        exact ⟨_, _, _, rfl, w₃, Or.inl ⟨by decide, fun hm =>
          (h₁.1.trans h₂.1).memOk hm (h₃.2 rfl)⟩⟩
      · rw [hm₃] at w₃
        exact ⟨_, _, _, rfl, w₃, Or.inr ⟨rfl, rfl⟩⟩

theorem isBuffered_eq {cfg : RxConfig} {c : EventContext} (hs : Configured cfg c)
    (opcode : Fin 16) : isBuffered c (UInt8.ofNat opcode.val) = cfg.buffers opcode := by
  rw [isBuffered, RxConfig.buffers, hs.noBuffering, isCtrlFrame_ofNat]

theorem RxConfig.buffers_congr {cfg : RxConfig} {a b : Fin 16} (h : 8 ≤ a.val ↔ 8 ≤ b.val) :
    cfg.buffers a = cfg.buffers b := by
  rw [RxConfig.buffers, RxConfig.buffers, decide_eq_decide.2 h]

section

variable {cfg : RxConfig} {c : EventContext} {waiting : Option Draft} {k : Draft} {h : Header}

/-- The frame has been announced, and its length noted. -/
theorem Opening.announced {c' : EventContext} (ho : Opening cfg c waiting k h)
    (hslots : c'.slots = { c with ipayloadlen := h.length }.slots) :
    Opening cfg c' waiting k h ∧ c'.ipayloadlen = h.length := by
  simp only [EventContext.slots, Prod.mk.injEq] at hslots
  obtain ⟨h1, h2, h3, hlen, hoff⟩ := hslots
  have hcur : c'.curImsg = c.curImsg := curImsg_congr h1 h2 h3
  exact ⟨⟨ho.beside.congr h1 h2 h3, hcur ▸ ho.bears, hcur ▸ ho.fin, ho.kind, ho.known,
    hcur ▸ ho.stored, hoff.trans ho.off, ho.alone⟩, hlen⟩

/-- A frame whose payload is not kept. -/
theorem Opening.unkept (ho : Opening cfg c waiting k h) (hlen : c.ipayloadlen = h.length)
    (hbits : h.rsv = 0 ∧ h.key.isSome = cfg.server) (hv : h.Valid)
    (hkept : cfg.buffers h.opcode = false) :
    Inside cfg c waiting ⟨h, 0, k.extend cfg h⟩ := by
  have hkind : cfg.buffers h.opcode = cfg.buffers k.opcode := RxConfig.buffers_congr ho.kind
  have hext : k.extend cfg h = k := by rw [Draft.extend, hkept]; rfl
  refine ⟨ho.beside, ?_, hlen, ho.off, ?_, hbits, hv⟩
  · rw [hext]
    refine ⟨ho.bears, ho.fin, ho.kind, ho.known, ?_⟩
    rw [if_neg (by rw [← hkind, hkept]; simp)]
    exact ho.stored
  · rw [hext]
    exact ho.alone

/-- An empty frame has no chunk. -/
theorem Opening.noChunk (ho : Opening cfg c waiting k h) (hlen : c.ipayloadlen = h.length)
    (hbits : h.rsv = 0 ∧ h.key.isSome = cfg.server) (hv : h.Valid)
    (hkept : cfg.buffers h.opcode = true) (hzero : h.length = 0) :
    Inside cfg (c.setImsg c.curImsg) waiting ⟨h, 0, k.extend cfg h⟩ := by
  have hsame : k.extend cfg h = k := by
    rw [Draft.extend, hkept, hzero, Nat.add_zero, Nat.mod_eq_of_lt ho.bears.small]
    rfl
  refine ⟨ho.beside.setImsg _, ?_, ?_, ?_, ?_, hbits, hv⟩
  · rw [hsame, curImsg_setImsg]
    refine ⟨ho.bears, ho.fin, ho.kind, ho.known, ?_⟩
    rw [if_neg (by simp [hzero])]
    exact ho.stored
  · rw [ipayloadlen_setImsg]
    exact hlen
  · rw [ipayloadoff_setImsg]
    exact ho.off
  · rw [hsame]
    exact ho.alone

/-- A chunk has been made for the payload. -/
theorem Opening.newChunk (hs : Configured cfg c) (ho : Opening cfg c waiting k h)
    (hlen : c.ipayloadlen = h.length) (hbits : h.rsv = 0 ∧ h.key.isSome = cfg.server)
    (hv : h.Valid) (hkept : cfg.buffers h.opcode = true) (hzero : h.length ≠ 0) :
    Inside cfg (c.setImsg { c.curImsg with
      chunks := { c.curImsg.chunks with cells := c.curImsg.chunks.cells ++ [⟨[], h.length⟩] }
      msgLength := c.toSize (c.curImsg.msgLength + h.length) }) waiting
      ⟨h, 0, k.extend cfg h⟩ := by
  have hbuffers : cfg.buffers k.opcode = true := (RxConfig.buffers_congr ho.kind).symm.trans hkept
  have hext : k.extend cfg h = { k with length := (k.length + h.length) % 2 ^ 64 } := by
    rw [Draft.extend, hkept]
    rfl
  refine ⟨ho.beside.setImsg _, ?_, ?_, ?_, ?_, hbits, hv⟩
  · rw [hext, curImsg_setImsg]
    refine ⟨⟨ho.bears.opcode, ho.bears.rsv, ?_, Nat.mod_lt _ (by decide), ho.bears.text,
      ho.bears.plain, fun hno => ?_⟩, ho.fin, ho.kind, ho.known, ?_⟩
    · simp only [EventContext.toSize, hs.sizeBits, ho.bears.length]
    · exact absurd (hbuffers.symm.trans hno) (by decide)
    · rw [if_pos ⟨hbuffers, hzero⟩]
      exact ⟨_, [], k.body, rfl, ho.stored, (List.append_nil _).symm, rfl⟩
  · rw [ipayloadlen_setImsg]
    exact hlen
  · rw [ipayloadoff_setImsg]
    exact ho.off
  · rw [hext]
    exact ho.alone

/-- **Accepting a frame.** -/
theorem recvBeginFrame_spec (hs : Configured cfg c) (ho : Opening cfg c waiting k h)
    (hbits : h.rsv = 0 ∧ h.key.isSome = cfg.server) (hv : h.Valid) (data : List UInt8) (io : Io) :
    if cfg.limit < (k.length + h.length) % 2 ^ 64 then
      recvBeginFrame (h.iocb data) c io = failWith codeMessageTooBig c io
    else MemFails (c, io) (recvBeginFrame (h.iocb data) c io) [h.startCall] ∨
      ∃ s', recvBeginFrame (h.iocb data) c io = .again s' ∧ Works (c, io) s' [h.startCall] ∧
        Inside cfg s'.1 waiting ⟨h, 0, k.extend cfg h⟩ := by
  have hbig : c.maxRecvMsgLength < (c.curImsg.msgLength + (h.iocb data).payloadLength) % 2 ^ 64 ↔
      cfg.limit < (k.length + h.length) % 2 ^ 64 := by
    rw [hs.limit, ho.bears.length]
    exact Iff.rfl
  unfold recvBeginFrame
  by_cases hlimit : cfg.limit < (k.length + h.length) % 2 ^ 64
  · rw [if_pos hlimit, if_pos (hbig.2 hlimit)]
  · rw [if_neg hlimit, if_neg fun hc => hlimit (hbig.1 hc)]
    -- the callback
    obtain ⟨hw, hslots⟩ := notify_works { c with ipayloadlen := h.length } h.startCall io
    have hw₀ : Works (c, io) ({ c with ipayloadlen := h.length }, io) [] :=
      .of_slots io rfl rfl rfl rfl rfl rfl
    obtain ⟨c₁, io₁, hn⟩ : ∃ c₁ io₁, notify c.callbacks.onFrameRecvStart (.frameRecvStart
        (h.iocb data).fin (h.iocb data).rsv (h.iocb data).opcode (h.iocb data).payloadLength)
        { c with ipayloadlen := (h.iocb data).payloadLength } io = (c₁, io₁) := ⟨_, _, rfl⟩
    change Works _ (notify c.callbacks.onFrameRecvStart (.frameRecvStart (h.iocb data).fin
      (h.iocb data).rsv (h.iocb data).opcode (h.iocb data).payloadLength)
      { c with ipayloadlen := (h.iocb data).payloadLength } io) [h.startCall] at hw
    change (notify c.callbacks.onFrameRecvStart (.frameRecvStart (h.iocb data).fin
      (h.iocb data).rsv (h.iocb data).opcode (h.iocb data).payloadLength)
      { c with ipayloadlen := (h.iocb data).payloadLength } io).1.slots = _ at hslots
    rw [hn] at hw hslots
    rw [hn]
    have hw₁ : Works (c, io) (c₁, io₁) [h.startCall] := hw₀.trans hw
    have hs₁ : Configured cfg c₁ := hs.congr hw₁.settings
    obtain ⟨ho₁, hlen₁⟩ := ho.announced hslots
    have hbuf : isBuffered c₁ (h.iocb data).opcode = cfg.buffers h.opcode := isBuffered_eq hs₁ h.opcode
    have hlen : (h.iocb data).payloadLength = h.length := rfl
    have hsize : c₁.toSize h.length = h.length := by
      have := hv.1
      rw [EventContext.toSize, hs₁.sizeBits, Nat.mod_eq_of_lt (by omega)]
    simp only [hbuf, hlen]
    cases hkept : cfg.buffers h.opcode with
    | false =>
      rw [if_neg (by decide)]
      exact Or.inr ⟨_, rfl, hw₁, ho₁.unkept hlen₁ hbits hv hkept⟩
    | true =>
      rw [if_pos rfl, hsize]
      by_cases hzero : h.length = 0
      · have hnone : eventImsgAppendChunk c₁ c₁.curImsg h.length io₁ = (0, c₁.curImsg, io₁) := by
          rw [eventImsgAppendChunk, if_pos hzero]
        rw [hnone]
        exact Or.inr ⟨_, rfl, hw₁.trans (.setImsg c₁ _ io₁),
          ho₁.noChunk hlen₁ hbits hv hkept hzero⟩
      · obtain ⟨r, m', io₂, heq, hw₂, hfail | ⟨rfl, rfl⟩⟩ :=
          eventImsgAppendChunk_cases c₁ c₁.curImsg hzero io₁
        · -- there is no memory for it
          rw [heq]
          simp only [if_pos hfail.1]
          exact Or.inl ((hw₁.trans hw₂).memFails (fun hm => hfail.2 (hw₁.memOk hm)) rfl
            (by decide) rfl)
        · rw [heq]
          exact Or.inr ⟨_, rfl, hw₁.trans (hw₂.trans (.setImsg c₁ _ io₂)),
            ho₁.newChunk hs₁ hlen₁ hbits hv hkept hzero⟩

end

/-! ## The payload -/

theorem InFrame.withText {cfg : RxConfig} {m : EventImsg} {f : Progress} (h : InFrame cfg m f)
    {st : Nat} {text : List Utf8.Range} (hw : Waits st text)
    (hplain : f.draft.opcode ≠ 1 → f.draft.opcode ≠ 8 → text = []) :
    InFrame cfg { m with utf8state := st }
      { f with draft := { f.draft with text := text } } :=
  ⟨⟨h.opcode, h.rsv, h.length, h.small, hw, hplain, h.unkept⟩, h.fin, h.kind, h.known, h.cells⟩

/-- **The UTF-8 check.** -/
theorem recvCheckUtf8_spec {cfg : RxConfig} {c : EventContext} {waiting : Option Draft}
    {f : Progress} (hi : Inside cfg c waiting f) (iocb : Iocb) (io : Io) :
    match f.draft.scan 2 iocb.data with
    | none => ∃ s', recvCheckUtf8 iocb c io = failWith codeInvalidFramePayloadData s'.1 s'.2 ∧
        Works (c, io) s' []
    | some text => ∃ s', recvCheckUtf8 iocb c io = .again s' ∧ Works (c, io) s' [] ∧
        Inside cfg s'.1 waiting { f with draft := { f.draft with text := text } } := by
  have htext : c.curImsg.opcode = textFrame ↔ f.draft.opcode = 1 := by
    rw [hi.frame.opcode]
    exact ofNat_opcode_eq_iff f.draft.opcode 1
  have hclose : c.curImsg.opcode = connectionClose ↔ f.draft.opcode = 8 := by
    rw [hi.frame.opcode]
    exact ofNat_opcode_eq_iff f.draft.opcode 8
  unfold recvCheckUtf8 Draft.scan
  by_cases hscanned : f.draft.opcode = 1 ∨ f.draft.opcode = 8
  · -- the automaton reads the piece
    have hskip : (if f.draft.opcode = 1 then Utf8.read f.draft.text iocb.data
        else if f.draft.opcode = 8 then Utf8.read f.draft.text (iocb.data.drop 2)
        else some f.draft.text) = Utf8.read f.draft.text
          (iocb.data.drop (if c.curImsg.opcode = connectionClose then 2 else 0)) := by
      rcases hscanned with h1 | h8
      · have hno : ¬ c.curImsg.opcode = connectionClose := fun hc => by
          rw [hclose.1 hc] at h1
          cases h1
        rw [if_pos h1, if_neg hno, List.drop_zero]
      · have hno : ¬ f.draft.opcode = 1 := fun h1 => by
          rw [h8] at h1
          cases h1
        rw [if_neg hno, if_pos h8, if_pos (hclose.2 h8)]
    have hread := utf8Scan_read hi.frame.text
      (iocb.data.drop (if c.curImsg.opcode = connectionClose then 2 else 0))
    rw [hskip, if_pos (hscanned.imp htext.2 hclose.2)]
    cases hr : Utf8.read f.draft.text
        (iocb.data.drop (if c.curImsg.opcode = connectionClose then 2 else 0)) with
    | none =>
      rw [hr] at hread
      simp only [hread, if_true]
      exact ⟨_, rfl, .setImsg c _ io⟩
    | some text =>
      rw [hr] at hread
      obtain ⟨st, hscan, hwaits⟩ := hread
      simp only [hscan, Bool.false_eq_true, if_false, if_neg hwaits.ne_reject]
      refine ⟨_, rfl, .setImsg c _ io, hi.beside.setImsg _, ?_, ?_, ?_, hi.alone, hi.bits, hi.valid⟩
      · rw [curImsg_setImsg]
        exact hi.frame.withText hwaits fun h1 h8 => (hscanned.elim h1 h8).elim
      · rw [ipayloadlen_setImsg]
        exact hi.len
      · rw [ipayloadoff_setImsg]
        exact hi.off
  · rw [not_or] at hscanned
    rw [if_neg hscanned.1, if_neg hscanned.2,
      if_neg (not_or.2 ⟨fun h => hscanned.1 (htext.1 h), fun h => hscanned.2 (hclose.1 h)⟩),
      if_neg hi.frame.text.ne_reject]
    exact ⟨_, rfl, .refl _, hi⟩

/-- A piece is copied to the end of what the last chunk holds. -/
theorem Storing.writeTail {q : ChunkQueue} {body : List UInt8} {off len : Nat}
    (h : Storing q.cells body off len) (data : List UInt8) :
    Storing (writeTail q off data).cells (body ++ data) (off + data.length) len := by
  obtain ⟨full, part, before, hcells, hfull, rfl, rfl⟩ := h
  have hlast : q.cells.getLast? = some ⟨part, len⟩ := by
    rw [hcells, List.getLast?_concat]
  have hinit : q.cells.dropLast = full := by rw [hcells, List.dropLast_concat]
  refine ⟨full, part ++ data, before, ?_, hfull, by rw [List.append_assoc], by simp⟩
  simp only [Wslay.writeTail, hlast, hinit, List.take_length, List.append_cancel_left_eq,
    List.cons.injEq, and_true, ByteChunk.mk.injEq]
  rw [List.drop_eq_nil_of_le (by omega), List.append_nil]

/-- A piece that is not kept. -/
theorem InFrame.skip {cfg : RxConfig} {m : EventImsg} {f : Progress} (h : InFrame cfg m f)
    (hno : cfg.buffers f.header.opcode = false) (data : List UInt8) :
    InFrame cfg m (f.advance cfg data f.draft.text) := by
  have hbody : (f.advance cfg data f.draft.text).draft.body = f.draft.body := by
    simp [Progress.advance, hno]
  have hkind : cfg.buffers f.draft.opcode = false := RxConfig.buffers_congr h.kind ▸ hno
  have hcells := h.cells
  rw [if_neg (by simp [hkind])] at hcells
  refine ⟨⟨h.opcode, h.rsv, h.length, h.small, h.text, h.plain, h.unkept⟩, h.fin, h.kind, h.known,
    ?_⟩
  rw [hbody]
  change if cfg.buffers f.draft.opcode = true ∧ f.header.length ≠ 0 then _ else _
  rw [if_neg (by simp [hkind])]
  exact hcells

/-- A piece that is kept. -/
theorem InFrame.write {cfg : RxConfig} {m : EventImsg} {f : Progress} (h : InFrame cfg m f)
    (hyes : cfg.buffers f.header.opcode = true) (hlen : f.header.length ≠ 0) (data : List UInt8) :
    InFrame cfg { m with chunks := writeTail m.chunks f.off data }
      (f.advance cfg data f.draft.text) := by
  have hbody : (f.advance cfg data f.draft.text).draft.body = f.draft.body ++ data := by
    simp [Progress.advance, hyes]
  have hkind : cfg.buffers f.draft.opcode = true := RxConfig.buffers_congr h.kind ▸ hyes
  have hcells := h.cells
  rw [if_pos ⟨hkind, hlen⟩] at hcells
  refine ⟨⟨h.opcode, h.rsv, h.length, h.small, h.text, h.plain, h.unkept⟩, h.fin, h.kind, h.known,
    ?_⟩
  rw [hbody]
  change if cfg.buffers f.draft.opcode = true ∧ f.header.length ≠ 0 then _ else _
  rw [if_pos ⟨hkind, hlen⟩]
  exact hcells.writeTail data

/-- **The chunk callback and the copy.** -/
theorem recvStore_spec {cfg : RxConfig} {c : EventContext} {waiting : Option Draft} {f : Progress}
    (hs : Configured cfg c) (hi : Inside cfg c waiting f) {iocb : Iocb}
    (hop : iocb.opcode = UInt8.ofNat f.header.opcode.val)
    (hfit : f.off + iocb.data.length ≤ f.header.length) (io : Io) :
    Works (c, io) (recvStore iocb c io) [.frameRecvChunk iocb.data] ∧
      Inside cfg (recvStore iocb c io).1 waiting (f.advance cfg iocb.data f.draft.text) := by
  obtain ⟨hw, hslots⟩ := notify_works c (.frameRecvChunk iocb.data) io
  obtain ⟨c₁, io₁, hn⟩ : ∃ c₁ io₁, notify c.callbacks.onFrameRecvChunk (.frameRecvChunk iocb.data)
      c io = (c₁, io₁) := ⟨_, _, rfl⟩
  have hn' : notify (c.callbacks.takes (.frameRecvChunk iocb.data)) (.frameRecvChunk iocb.data)
      c io = (c₁, io₁) := hn
  rw [hn'] at hw hslots
  have hs₁ : Configured cfg c₁ := hs.congr hw.settings
  have hi₁ : Inside cfg c₁ waiting f := hi.congr hslots
  have hbuf : isBuffered c₁ iocb.opcode = cfg.buffers f.header.opcode := by
    rw [hop]
    exact isBuffered_eq hs₁ f.header.opcode
  unfold recvStore
  rw [hn]
  simp only
  by_cases hnil : iocb.data = []
  · have hsame : f.advance cfg iocb.data f.draft.text = f := by
      simp [Progress.advance, hnil]
    rw [if_neg (by simp [hnil]), hsame]
    exact ⟨hw, hi₁⟩
  · have hpos : 0 < iocb.data.length := List.length_pos_of_ne_nil hnil
    have hoff : (f.advance cfg iocb.data f.draft.text).off = f.off + iocb.data.length := rfl
    rw [if_pos hnil, hbuf]
    cases hkept : cfg.buffers f.header.opcode with
    | false =>
      simp only [Bool.false_eq_true, if_false]
      have hw₂ : Works (c₁, io₁) ({ c₁ with ipayloadoff := c₁.ipayloadoff + iocb.data.length }, io₁)
        [] := .of_slots io₁ rfl rfl rfl rfl rfl rfl
      refine ⟨hw.trans hw₂, hi₁.beside.congr rfl rfl rfl, hi₁.frame.skip hkept iocb.data, hi₁.len,
        ?_, hi₁.alone, hi₁.bits, hi₁.valid⟩
      rw [hoff, ← hi₁.off]
    | true =>
      simp only [if_true]
      obtain ⟨m, hm⟩ : ∃ m, { c₁.curImsg with
          chunks := writeTail c₁.curImsg.chunks c₁.ipayloadoff iocb.data } = m := ⟨_, rfl⟩
      rw [hm]
      have hw₂ : Works (c₁.setImsg m, io₁) ({ c₁.setImsg m with
          ipayloadoff := (c₁.setImsg m).ipayloadoff + iocb.data.length }, io₁) [] :=
        .of_slots io₁ rfl rfl rfl rfl rfl rfl
      refine ⟨hw.trans ((Works.setImsg c₁ m io₁).trans hw₂),
        (hi₁.beside.setImsg m).congr rfl rfl rfl, ?_, ?_, ?_, hi₁.alone, hi₁.bits, hi₁.valid⟩
      · change InFrame cfg (c₁.setImsg m).curImsg _
        rw [curImsg_setImsg, ← hm, hi₁.off]
        exact hi₁.frame.write hkept (by omega) iocb.data
      · exact (ipayloadlen_setImsg c₁ m).trans hi₁.len
      · change (c₁.setImsg m).ipayloadoff + iocb.data.length = _
        rw [ipayloadoff_setImsg, hoff, hi₁.off]

/-! ## The end of a message -/

/-- Full chunks are put together if and only if they have the length that is
asked for. -/
theorem flattenCells_stored {cells : List ByteChunk} {body : List UInt8} (h : Stored cells body)
    (len off : Nat) (buf : List UInt8) :
    (flattenCells cells len off buf).1 =
      if off + body.length = len then some (buf ++ body) else none := by
  obtain ⟨hfull, rfl⟩ := h
  induction cells generalizing off buf with
  | nil =>
    rw [flattenCells, List.flatMap_nil, List.length_nil, Nat.add_zero, List.append_nil]
    by_cases heq : off = len
    · rw [if_pos heq, if_pos heq.symm]
    · rw [if_neg heq, if_neg fun h => heq h.symm]
  | cons ch cells ih =>
    have hch := hfull ch (List.mem_cons_self ..)
    rw [flattenCells, List.flatMap_cons, List.length_append, hch]
    by_cases hlong : len < off + ch.dataLength
    · rw [if_pos hlong, if_neg (by omega)]
    · rw [if_neg hlong, ih _ _ fun c hc => hfull c (List.mem_cons_of_mem _ hc), Nat.add_assoc,
        List.append_assoc]

theorem InFrame.complete {cfg : RxConfig} {m : EventImsg} {f : Progress} (h : InFrame cfg m f)
    (hend : f.off = f.header.length) : Stored m.chunks.cells f.draft.body := by
  have hcells := h.cells
  by_cases hkept : cfg.buffers f.draft.opcode = true ∧ f.header.length ≠ 0
  · rw [if_pos hkept] at hcells
    obtain ⟨full, part, before, heq, ⟨hfull, hbefore⟩, hbody, hpart⟩ := hcells
    rw [heq, hbody]
    constructor
    · intro ch hch
      rcases List.mem_append.1 hch with hch | hch
      · exact hfull ch hch
      · rw [List.mem_singleton.1 hch]
        exact hpart.trans hend
    · rw [List.flatMap_append, hbefore]
      simp
  · rwa [if_neg hkept] at hcells

/-- The message in the current slot is complete, and has been taken out. -/
structure Ending (cfg : RxConfig) (c : EventContext) (waiting : Option Draft) (k : Draft) :
    Prop where
  beside : Beside cfg c waiting
  opcode : c.curImsg.opcode = UInt8.ofNat k.opcode.val
  rsv : c.curImsg.rsv = 0
  length : c.curImsg.msgLength = k.length

theorem Ending.congr {cfg : RxConfig} {c c' : EventContext} {waiting : Option Draft} {k : Draft}
    (h : Ending cfg c waiting k) (h1 : c'.imsgs0 = c.imsgs0) (h2 : c'.imsgs1 = c.imsgs1)
    (h3 : c'.imsg = c.imsg) : Ending cfg c' waiting k := by
  have hcur := curImsg_congr h1 h2 h3
  exact ⟨h.beside.congr h1 h2 h3, by rw [hcur]; exact h.opcode, by rw [hcur]; exact h.rsv, by
    rw [hcur]; exact h.length⟩

/-- The state once reading has been shut down. -/
def shutRead (s : EventContext × Io) : EventContext × Io :=
  ({ s.1 with readEnabled := false }, s.2)

/-- **The octets of a complete message.** -/
theorem recvFlatten_spec {cfg : RxConfig} {c : EventContext} {waiting : Option Draft} {f : Progress}
    (hs : Configured cfg c) (hi : Inside cfg c waiting f) (hend : f.off = f.header.length)
    {iocb : Iocb} (hop : iocb.opcode = UInt8.ofNat f.header.opcode.val) (io : Io) :
    (∃ s', recvFlatten iocb c io = (none, shutRead s') ∧ Works (c, io) s' [] ∧
      (io.MemOk → f.draft.gather = none)) ∨
    ∃ msg s', recvFlatten iocb c io = (some msg, s') ∧ f.draft.gather = some msg ∧
      Works (c, io) s' [] ∧ Ending cfg s'.1 waiting f.draft := by
  have hbuf : isBuffered c iocb.opcode = cfg.buffers f.draft.opcode := by
    rw [hop, ← RxConfig.buffers_congr hi.frame.kind]
    exact isBuffered_eq hs f.header.opcode
  have hlen := hi.frame.length
  unfold recvFlatten
  rw [hbuf]
  cases hkept : cfg.buffers f.draft.opcode with
  | false =>
    refine Or.inr ⟨[], _, rfl, ?_, .refl _, hi.beside, hi.frame.opcode, hi.frame.rsv, hlen⟩
    rw [Draft.gather, if_pos (hi.frame.unkept hkept)]
  | true =>
    simp only [if_true]
    have hbeside : ∀ m, Beside cfg (c.setImsg m) waiting := hi.beside.setImsg
    by_cases hzero : f.draft.length = 0
    · -- an empty message
      have hnone : eventFlattenQueue c.curImsg.chunks c.curImsg.msgLength io =
          (none, c.curImsg.chunks, io) := by
        rw [eventFlattenQueue, if_pos (hlen.trans hzero)]
      rw [hnone]
      simp only [curImsg_setImsg, hlen, hzero, ne_eq, not_true_eq_false, false_and, if_false]
      refine Or.inr ⟨_, _, rfl, by rw [Draft.gather, if_pos hzero]; rfl, .setImsg c _ io, hbeside _,
        ?_, ?_, ?_⟩ <;> rw [curImsg_setImsg]
      · exact hi.frame.opcode
      · exact hi.frame.rsv
      · exact hlen.trans hzero ▸ hlen
    · have hgather : f.draft.gather =
          if f.draft.body.length = f.draft.length then some f.draft.body else none := by
        rw [Draft.gather, if_neg hzero]
      have hmem := io.malloc_allocates
      have hw := Works.malloc c io
      unfold eventFlattenQueue
      rw [hlen, if_neg hzero]
      rcases hm : io.malloc with ⟨_ | _, io₁⟩
      · -- no buffer
        rw [hm] at hmem hw
        simp only [curImsg_setImsg, ne_eq, hzero, not_false_eq_true, and_self, if_true]
        exact Or.inl ⟨(c.setImsg { c.curImsg with msgLength := f.draft.length }, io₁), rfl,
          hw.trans (.setImsg c _ io₁), fun hok => absurd (hmem.2 rfl) hok⟩
      · rw [hm] at hw
        have hflat := flattenCells_stored (hi.frame.complete hend) f.draft.length 0 []
        rw [Nat.zero_add, List.nil_append] at hflat
        obtain ⟨buf, cells, heq⟩ : ∃ buf cells, flattenCells c.curImsg.chunks.cells f.draft.length 0
            [] = (buf, cells) := ⟨_, _, rfl⟩
        rw [heq] at hflat
        simp only at hflat
        simp only [heq, curImsg_setImsg, ne_eq, hzero, not_false_eq_true, true_and]
        rw [hgather, ← hflat]
        cases buf with
        | none =>
          exact Or.inl ⟨(c.setImsg { c.curImsg with
            chunks := { c.curImsg.chunks with cells := cells }
            msgLength := f.draft.length }, io₁), rfl, hw.trans (.setImsg c _ io₁), fun _ => rfl⟩
        | some msg =>
          refine Or.inr ⟨msg, _, rfl, rfl, hw.trans (.setImsg c _ io₁), hbeside _, ?_, ?_, ?_⟩ <;>
            rw [curImsg_setImsg]
          · exact hi.frame.opcode
          · exact hi.frame.rsv

/-- What a valid Close does: it is noted, and answered. -/
def acceptClose (msg : List UInt8) (c : EventContext) (io : Io) : Step (EventContext × Io) Int :=
  let c := { c with closeStatus := { c.closeStatus with received := true },
                    statusCodeRecv :=
                      if statusOf msg = 0 then codeNoStatusRcvd else statusOf msg }
  match eventQueueCloseWrapper c (UInt16.ofNat (statusOf msg)) (msg.drop 2) io with
  | (r, c, io) => if r ≠ 0 then .leave r (c, io) else .again (c, io)

/-- The automatic reply to a complete message. -/
def recvReply (opcode : Fin 16) (msg : List UInt8) (s : EventContext × Io) :
    Step (EventContext × Io) Int :=
  if opcode = 8 then acceptClose msg s.1 s.2
  else if opcode = 9 then recvPing msg s.1 s.2
  else .again s

/-- `on_msg_recv_callback` is called with the message. -/
def deliver (opcode : Fin 16) (msg : List UInt8) (s : EventContext × Io) : EventContext × Io :=
  if s.1.callbacks.onMsgRecv then notify true (msgCall opcode msg) s.1 { s.2 with error := 0 }
  else s

theorem length_of_gather {k : Draft} {msg : List UInt8} (h : k.gather = some msg) :
    msg.length = k.length := by
  unfold Draft.gather at h
  split_ifs at h with h0 hl <;> cases h
  · exact h0.symm
  · exact hl

section

variable {cfg : RxConfig} {c : EventContext} {waiting : Option Draft} {k : Draft}

theorem Ending.close_iff (he : Ending cfg c waiting k) :
    c.curImsg.opcode = connectionClose ↔ k.opcode = 8 := by
  rw [he.opcode]
  exact ofNat_opcode_eq_iff k.opcode 8

theorem Ending.ping_iff (he : Ending cfg c waiting k) :
    c.curImsg.opcode = ping ↔ k.opcode = 9 := by
  rw [he.opcode]
  exact ofNat_opcode_eq_iff k.opcode 9

/-- What the application does leaves the slots alone. -/
theorem Ending.spares {s s' : EventContext × Io} (he : Ending cfg s.1 waiting k)
    (hsp : Spares s s') : Ending cfg s'.1 waiting k := by
  have hc := hsp.context
  simp only [EventContext.rxPart, Prod.mk.injEq] at hc
  obtain ⟨-, -, -, -, -, -, -, -, h1, h2, h3, -, -⟩ := hc
  exact he.congr h1 h2 h3

/-- **A complete Close**: its status code is checked, and then it is answered. -/
theorem recvClose_spec (he : Ending cfg c waiting k) {msg : List UInt8}
    (hlen : msg.length = k.length) (io : Io) :
    recvClose msg c io =
      if 2 ≤ msg.length ∧ eventIsValidStatusCode (statusOf msg) = false then
        failWith codeProtocolError c io
      else acceptClose msg c io := by
  have hstatus : (if 2 ≤ msg.length then beVal (msg.take 2) else 0) = statusOf msg := rfl
  have hreason : (if 2 ≤ msg.length then msg.drop 2 else []) = msg.drop 2 := by
    by_cases h2 : 2 ≤ msg.length
    · rw [if_pos h2]
    · rw [if_neg h2, List.drop_eq_nil_of_le (by omega)]
  have hbad : (2 ≤ msg.length ∧ (!eventIsValidStatusCode (beVal (msg.take 2))) = true) ↔
      (2 ≤ msg.length ∧ eventIsValidStatusCode (statusOf msg) = false) := by
    rw [← hstatus]
    by_cases h2 : 2 ≤ msg.length <;> simp [h2]
  rw [recvClose, he.length, ← hlen, hstatus, hreason]
  by_cases hvalid : 2 ≤ msg.length ∧ eventIsValidStatusCode (statusOf msg) = false
  · rw [if_pos hvalid, if_pos (hbad.2 hvalid)]
  · rw [if_neg hvalid, if_neg fun h => hvalid (hbad.1 h)]
    rfl

theorem acceptClose_again {msg : List UInt8} {io : Io} {s : EventContext × Io}
    (h : acceptClose msg c io = .again s) :
    Spares ({ c with closeStatus := { c.closeStatus with received := true },
                     statusCodeRecv := if statusOf msg = 0 then codeNoStatusRcvd
                       else statusOf msg }, io) s := by
  have hsp := (eventQueueCloseWrapper_spares { c with
      closeStatus := { c.closeStatus with received := true }
      statusCodeRecv := if statusOf msg = 0 then codeNoStatusRcvd else statusOf msg }
    (UInt16.ofNat (statusOf msg)) (msg.drop 2) io).1
  unfold acceptClose at h
  obtain ⟨r, c', io', heq⟩ : ∃ r c' io', eventQueueCloseWrapper { c with
      closeStatus := { c.closeStatus with received := true }
      statusCodeRecv := if statusOf msg = 0 then codeNoStatusRcvd else statusOf msg }
    (UInt16.ofNat (statusOf msg)) (msg.drop 2) io = (r, c', io') := ⟨_, _, _, rfl⟩
  simp only [heq] at h hsp
  split_ifs at h
  cases h
  exact hsp

theorem recvPing_again {msg : List UInt8} {io : Io} {s : EventContext × Io}
    (h : recvPing msg c io = .again s) : s = (eventQueueMsg c ⟨pong, msg⟩ io).2 := by
  unfold recvPing at h
  obtain ⟨r, c', io', heq⟩ : ∃ r c' io', eventQueueMsg c ⟨pong, msg⟩ io = (r, c', io') :=
    ⟨_, _, _, rfl⟩
  rw [heq] at h ⊢
  simp only at h
  split_ifs at h
  cases h
  rfl

/-- The automatic reply leaves the slots alone. -/
theorem Ending.reply {s s' : EventContext × Io} (he : Ending cfg s.1 waiting k) {opcode : Fin 16}
    {msg : List UInt8} (h : recvReply opcode msg s = .again s') : Ending cfg s'.1 waiting k := by
  unfold recvReply at h
  split_ifs at h
  · have hc := (acceptClose_again h).context
    simp only [EventContext.rxPart, Prod.mk.injEq] at hc
    obtain ⟨-, -, -, -, -, -, -, -, h1, h2, h3, -, -⟩ := hc
    exact he.congr h1 h2 h3
  · rw [recvPing_again h]
    exact he.spares (eventQueueMsg_spares s.1 ⟨pong, msg⟩ s.2)
  · cases h
    exact he

/-- The message is delivered as it is. -/
theorem Ending.deliver {s : EventContext × Io} (he : Ending cfg s.1 waiting k) {msg : List UInt8}
    (hlen : msg.length = k.length) :
    (if s.1.callbacks.onMsgRecv then (.again (notify true (.msgRecv s.1.curImsg.rsv
        s.1.curImsg.opcode msg (recvStatusCode s.1 msg)) s.1 { s.2 with error := 0 }) :
        Step (EventContext × Io) Int)
      else .again s) = .again (Wslay.deliver k.opcode msg s) := by
  have hcode : recvStatusCode s.1 msg = if k.opcode = 8 then statusOf msg else 0 := by
    rw [recvStatusCode, he.length, ← hlen]
    by_cases h8 : k.opcode = 8
    · simp only [he.close_iff.2 h8, h8, true_and, if_true]
      rfl
    · rw [if_neg h8, if_neg fun h => h8 (he.close_iff.1 h.1)]
  unfold Wslay.deliver msgCall
  rw [hcode, he.rsv, he.opcode]
  split_ifs <;> rfl

end

/-- **A complete message**: it is rejected, or answered and delivered. -/
theorem recvMessage_spec {cfg : RxConfig} {c : EventContext} {waiting : Option Draft} {f : Progress}
    (hs : Configured cfg c) (hi : Inside cfg c waiting f) (hend : f.off = f.header.length)
    {iocb : Iocb} (hop : iocb.opcode = UInt8.ofNat f.header.opcode.val) (io : Io) :
    MemFails (c, io) (recvMessage iocb c io) [] ∨
    match f.draft.verdict cfg waiting with
    | .more _ => False
    | .overflow => ∃ s', recvMessage iocb c io = .leave Err.nomem.code (shutRead s') ∧
        Works (c, io) s' []
    | .reject code => ∃ s', recvMessage iocb c io = failWith code s'.1 s'.2 ∧ Works (c, io) s' []
    | .done opcode msg rx => opcode = f.draft.opcode ∧ rx = ⟨waiting, none⟩ ∧
        ∃ s', Works (c, io) s' [] ∧ Ending cfg s'.1 waiting f.draft ∧
          recvMessage iocb c io =
            (recvReply opcode msg s').andThen fun s => .again (deliver opcode msg s) := by
  have hnow : Ending cfg c waiting f.draft :=
    ⟨hi.beside, hi.frame.opcode, hi.frame.rsv, hi.frame.length⟩
  have hwanted : (c.callbacks.onMsgRecv || c.curImsg.opcode == connectionClose ||
      c.curImsg.opcode == ping) = (cfg.delivers || f.draft.opcode == 8 || f.draft.opcode == 9) := by
    rw [hs.delivers, Bool.eq_iff_iff]
    simp only [Bool.or_eq_true, beq_iff_eq, hnow.close_iff, hnow.ping_iff]
  unfold recvMessage Draft.verdict
  rw [hwanted]
  by_cases hgo : (cfg.delivers || f.draft.opcode == 8 || f.draft.opcode == 9) = true
  · rw [if_pos hgo, if_pos hgo]
    rcases recvFlatten_spec hs hi hend hop io with ⟨s', heq, hw, hwhy⟩ |
      ⟨msg, ⟨c₁, io₁⟩, heq, hgather, hw, he⟩
    · rw [heq]
      by_cases hmem : io.MemOk
      · rw [hwhy hmem]
        exact Or.inr ⟨s', rfl, hw⟩
      · exact Or.inl (hw.memFails hmem rfl (by decide) rfl)
    · have hlen := length_of_gather hgather
      have hreply : (if c₁.curImsg.opcode = connectionClose then recvClose msg c₁ io₁
          else if c₁.curImsg.opcode = ping then recvPing msg c₁ io₁ else .again (c₁, io₁)) =
          if f.draft.opcode = 8 ∧ 2 ≤ msg.length ∧ eventIsValidStatusCode (statusOf msg) = false then
            failWith codeProtocolError c₁ io₁
          else recvReply f.draft.opcode msg (c₁, io₁) := by
        unfold recvReply
        simp only [he.close_iff, he.ping_iff]
        by_cases h8 : f.draft.opcode = 8
        · simp only [h8, if_true, true_and]
          exact recvClose_spec he hlen io₁
        · simp only [h8, if_false, false_and]
      rw [heq, hgather]
      right
      simp only
      rw [hreply]
      by_cases hbad : f.draft.opcode = 8 ∧ 2 ≤ msg.length ∧
          eventIsValidStatusCode (statusOf msg) = false
      · rw [if_pos hbad, if_pos hbad]
        exact ⟨(c₁, io₁), rfl, hw⟩
      · rw [if_neg hbad, if_neg hbad]
        refine ⟨rfl, rfl, (c₁, io₁), hw, he, ?_⟩
        cases hr : recvReply f.draft.opcode msg (c₁, io₁) with
        | leave r s => rfl
        | again s => exact (he.reply hr).deliver hlen
  · rw [if_neg hgo, if_neg hgo]
    simp only [Bool.not_eq_true, Bool.or_eq_false_iff, beq_eq_false_iff_ne] at hgo
    refine Or.inr ⟨rfl, rfl, (c, io), .refl _, hnow, ?_⟩
    have hquiet : c.callbacks.onMsgRecv = false := hs.delivers.trans hgo.1.1
    have hreply : recvReply f.draft.opcode [] (c, io) = .again (c, io) := by
      rw [recvReply, if_neg hgo.1.2, if_neg hgo.2]
    rw [hreply]
    simp [deliver, hquiet]

/-! ## The loop body -/

/-- What the loop body does when the receiver reacts with `R`. -/
def Outcome (cfg : RxConfig) (s : EventContext × Io) (x : Step (EventContext × Io) Int)
    (R : Reaction) : Prop :=
  match R.verdict with
  | .more rx => ∃ s', x = .again s' ∧ Works s s' R.calls ∧ Models cfg s'.1 rx
  | .reject code => ∃ s', x = failWith code s'.1 s'.2 ∧ Works s s' R.calls
  | .overflow => ∃ s', x = .leave Err.nomem.code (shutRead s') ∧ Works s s' R.calls
  | .done opcode msg rx => ∃ s₁, Works s s₁ R.calls ∧
      match recvReply opcode msg s₁ with
      | .leave r s₂ => x = .leave r s₂
      | .again s₂ => ∃ s', x = .again s' ∧ Works s₂ s' [msgCall opcode msg] ∧ Models cfg s'.1 rx

/-- What has happened before belongs to the reaction as well. -/
theorem Outcome.after {cfg : RxConfig} {s s₁ : EventContext × Io} {calls : List Call}
    {x : Step (EventContext × Io) Int} {R : Reaction} (h : Outcome cfg s₁ x R)
    (hw : Works s s₁ calls) : Outcome cfg s x ⟨calls ++ R.calls, R.verdict⟩ := by
  obtain ⟨more, v⟩ := R
  cases v with
  | more rx =>
    obtain ⟨s', hx, hw', hm⟩ := h
    exact ⟨s', hx, hw.trans hw', hm⟩
  | reject code =>
    obtain ⟨s', hx, hw'⟩ := h
    exact ⟨s', hx, hw.trans hw'⟩
  | overflow =>
    obtain ⟨s', hx, hw'⟩ := h
    exact ⟨s', hx, hw.trans hw'⟩
  | done opcode msg rx =>
    obtain ⟨s', hw', hx⟩ := h
    exact ⟨s', hw.trans hw', hx⟩

theorem Configured.spares {cfg : RxConfig} {s s' : EventContext × Io} (h : Configured cfg s.1)
    (hsp : Spares s s') : Configured cfg s'.1 := by
  have hc := hsp.context
  simp only [EventContext.rxPart, Prod.mk.injEq] at hc
  obtain ⟨h1, h2, h3, h4, h5, -⟩ := hc
  exact h.congr (by simp only [EventContext.settings, h1, h2, h3, h4, h5])

theorem Configured.reply {cfg : RxConfig} {s s' : EventContext × Io} (h : Configured cfg s.1)
    {opcode : Fin 16} {msg : List UInt8} (hr : recvReply opcode msg s = .again s') :
    Configured cfg s'.1 := by
  unfold recvReply at hr
  split_ifs at hr
  · have hc : Configured cfg { s.1 with
        closeStatus := { s.1.closeStatus with received := true }
        statusCodeRecv := if statusOf msg = 0 then codeNoStatusRcvd else statusOf msg } :=
      h.congr rfl
    exact hc.spares (acceptClose_again hr)
  · rw [recvPing_again hr]
    exact h.spares (eventQueueMsg_spares s.1 ⟨pong, msg⟩ s.2)
  · cases hr
    exact h

/-- The end of a message, after its delivery. -/
def closing (s : EventContext × Io) : EventContext × Io :=
  ({ recvReset s.1 with ipayloadlen := 0, ipayloadoff := 0 }, s.2)

theorem deliver_works (opcode : Fin 16) (msg : List UInt8) (s : EventContext × Io) :
    Works s (deliver opcode msg s) [msgCall opcode msg] ∧
      (deliver opcode msg s).1.slots = s.1.slots := by
  obtain ⟨c, io⟩ := s
  unfold deliver
  cases hset : c.callbacks.onMsgRecv with
  | true =>
    have hn := notify_works c (msgCall opcode msg) { io with error := 0 }
    have htakes : c.callbacks.takes (msgCall opcode msg) = true := hset
    rw [htakes] at hn
    have hzero : Works (c, io) (c, { io with error := 0 }) [] :=
      ⟨rfl, rfl, rfl, rfl, id, rfl, rfl, by simp, List.suffix_rfl, fun happs =>
        ⟨happs, rfl, rfl, rfl, Or.inr rfl⟩⟩
    exact ⟨hzero.trans hn.1, hn.2⟩
  | false =>
    have hnone : [msgCall opcode msg].filter c.callbacks.takes = [] := by
      have htakes : c.callbacks.takes (msgCall opcode msg) = false := hset
      simp [htakes]
    exact ⟨⟨rfl, rfl, rfl, rfl, id, rfl, rfl, by rw [hnone]; simp, List.suffix_rfl, fun happs =>
      ⟨happs, rfl, rfl, rfl, Or.inl rfl⟩⟩, rfl⟩

theorem vacant_reset (m : EventImsg) : Vacant m.reset := ⟨rfl, rfl, rfl⟩

/-- After a message its slot is free and the first slot is current. -/
theorem Ending.closing {cfg : RxConfig} {s : EventContext × Io} {waiting : Option Draft} {k : Draft}
    (he : Ending cfg s.1 waiting k) : Works s (closing s) [] ∧
      Between cfg (Wslay.closing s).1 waiting := by
  obtain ⟨c, io⟩ := s
  unfold Wslay.closing recvReset
  have hw : Works (c.setImsg c.curImsg.reset, io)
      ({ c.setImsg c.curImsg.reset with imsg := .zero, ipayloadlen := 0, ipayloadoff := 0 }, io) [] :=
    .of_slots io rfl rfl rfl rfl rfl rfl
  refine ⟨(Works.setImsg c _ io).trans hw, ?_⟩
  have hb := he.beside
  cases waiting with
  | none =>
    obtain ⟨hslot, hv⟩ := hb
    unfold EventContext.setImsg
    simp only at hslot
    rw [hslot]
    exact ⟨rfl, hv, rfl, rfl, vacant_reset _⟩
  | some k' =>
    obtain ⟨hslot, hk⟩ := hb
    unfold EventContext.setImsg
    simp only at hslot
    rw [hslot]
    exact ⟨rfl, vacant_reset _, rfl, rfl, hk⟩

/-- A frame that is not the last of its message has no other message beside it. -/
theorem Inside.not_fin {cfg : RxConfig} {c : EventContext} {waiting : Option Draft} {f : Progress}
    (hi : Inside cfg c waiting f) (hfin : f.header.fin = false) :
    waiting = none ∧ isData f.draft.opcode = true := by
  have hdata : ¬ 8 ≤ f.draft.opcode.val := by
    intro hctrl
    have hc : f.header.isCtrl = true := decide_eq_true (hi.frame.kind.2 hctrl)
    rw [(hi.valid.2 hc).1] at hfin
    cases hfin
  refine ⟨?_, hi.frame.known.resolve_right fun h => hdata (isKnownCtrl_ctrl h)⟩
  by_cases hw : waiting = none
  · exact hw
  · exact absurd (hi.alone hw) hdata

theorem ofNat_fin_ne_zero (b : Bool) : UInt8.ofNat b.toNat ≠ 0 ↔ b = true := by
  revert b
  decide

/-- **The end of a piece**: the frame goes on, or it is complete. -/
theorem recvComplete_spec {cfg : RxConfig} {c : EventContext} {waiting : Option Draft} {f : Progress}
    (hs : Configured cfg c) (hi : Inside cfg c waiting f) {iocb : Iocb}
    (hop : iocb.opcode = UInt8.ofNat f.header.opcode.val) (hle : f.off ≤ f.header.length)
    (hgot : f.off = f.header.length ∨ 0 < f.off) (io : Io) :
    MemFails (c, io) (recvComplete iocb c io) (if f.off = f.header.length then
        (f.finish cfg waiting).calls else []) ∨
    Outcome cfg (c, io) (recvComplete iocb c io)
      (if f.off = f.header.length then f.finish cfg waiting
        else ⟨[], .more ⟨waiting, some f⟩⟩) := by
  unfold recvComplete
  rw [hi.off, hi.len]
  by_cases hend : f.off = f.header.length
  · rw [if_pos hend, if_pos hend, if_pos hend]
    have htext : (c.curImsg.fin ≠ 0 ∧
        (c.curImsg.opcode = textFrame ∨ c.curImsg.opcode = connectionClose) ∧
        c.curImsg.utf8state ≠ utf8Accept) ↔
        (f.header.fin = true ∧ (f.draft.opcode = 1 ∨ f.draft.opcode = 8) ∧ f.draft.text ≠ []) := by
      rw [hi.frame.fin, ofNat_fin_ne_zero, hi.frame.opcode, ne_eq, hi.frame.text.accept_iff]
      rw [show (UInt8.ofNat f.draft.opcode.val = textFrame) ↔ f.draft.opcode = 1 from
        ofNat_opcode_eq_iff f.draft.opcode 1, show (UInt8.ofNat f.draft.opcode.val = connectionClose)
        ↔ f.draft.opcode = 8 from ofNat_opcode_eq_iff f.draft.opcode 8]
    unfold Progress.finish
    by_cases hbad : f.header.fin = true ∧ (f.draft.opcode = 1 ∨ f.draft.opcode = 8) ∧
        f.draft.text ≠ []
    · rw [if_pos hbad, if_pos (htext.2 hbad)]
      exact Or.inr ⟨(c, io), rfl, .refl _⟩
    · rw [if_neg hbad, if_neg fun h => hbad (htext.1 h)]
      -- the callback
      obtain ⟨hw, hslots⟩ := notify_works c .frameRecvEnd io
      obtain ⟨c₁, io₁, hn⟩ : ∃ c₁ io₁, notify c.callbacks.onFrameRecvEnd .frameRecvEnd c io =
          (c₁, io₁) := ⟨_, _, rfl⟩
      have hn' : notify (c.callbacks.takes .frameRecvEnd) .frameRecvEnd c io = (c₁, io₁) := hn
      rw [hn'] at hw hslots
      have hs₁ : Configured cfg c₁ := hs.congr hw.settings
      have hi₁ : Inside cfg c₁ waiting f := hi.congr hslots
      rw [hn]
      simp only
      have hfin : c₁.curImsg.fin ≠ 0 ↔ f.header.fin = true := by
        rw [hi₁.frame.fin, ofNat_fin_ne_zero]
      by_cases hlast : f.header.fin = true
      · rw [if_pos (hfin.2 hlast), if_pos hlast]
        rcases recvMessage_spec hs₁ hi₁ hend hop io₁ with hfail | hmsg
        · exact Or.inl (((hfail.andThen _).andThen _).later hw)
        · right
          refine Outcome.after (R := ⟨[], f.draft.verdict cfg waiting⟩) ?_ hw
          cases hv : f.draft.verdict cfg waiting with
          | more rx =>
            rw [hv] at hmsg
            exact hmsg.elim
          | overflow =>
            rw [hv] at hmsg
            obtain ⟨s', heq, hw'⟩ := hmsg
            rw [heq]
            exact ⟨s', rfl, hw'⟩
          | reject code =>
            rw [hv] at hmsg
            obtain ⟨s', heq, hw'⟩ := hmsg
            rw [heq]
            refine ⟨s', ?_, hw'⟩
            unfold failWith
            rfl
          | done opcode msg rx =>
            rw [hv] at hmsg
            obtain ⟨-, rfl, s', hw', he, heq⟩ := hmsg
            refine ⟨s', hw', ?_⟩
            rw [heq]
            cases hr : recvReply opcode msg s' with
            | leave r s₂ => rfl
            | again s₂ =>
              obtain ⟨hd, hdslots⟩ := deliver_works opcode msg s₂
              have he₂ := he.reply hr
              simp only [EventContext.slots, Prod.mk.injEq] at hdslots
              have he₃ : Ending cfg (deliver opcode msg s₂).1 waiting f.draft :=
                he₂.congr hdslots.1 hdslots.2.1 hdslots.2.2.1
              obtain ⟨hc, hb⟩ := he₃.closing
              have hs₂ : Configured cfg s₂.1 := (hs₁.congr hw'.settings).reply hr
              exact ⟨closing (deliver opcode msg s₂), rfl, hd.trans hc,
                (hs₂.congr hd.settings).congr hc.settings, hb⟩
      · rw [if_neg fun h => hlast (hfin.1 h), if_neg hlast]
        -- the message goes on
        right
        have hnot : f.header.fin = false := by simpa using hlast
        obtain ⟨rfl, hdata⟩ := hi₁.not_fin hnot
        obtain ⟨hslot, hv⟩ := hi₁.beside
        have hcur : c₁.curImsg = c₁.imsgs0 := by rw [EventContext.curImsg, hslot]
        have hbears : Bears cfg c₁.imsgs0 f.draft := hcur ▸ hi₁.frame.toBears
        have hstored : Stored c₁.imsgs0.chunks.cells f.draft.body :=
          hcur ▸ hi₁.frame.complete hend
        have hzero : Works (c₁, io₁) ({ c₁ with ipayloadlen := 0, ipayloadoff := 0 }, io₁) [] :=
          .of_slots io₁ rfl rfl rfl rfl rfl rfl
        have hunfinished : c₁.imsgs0.fin = 0 := by
          have h0 := hi₁.frame.fin
          rw [hcur, hnot] at h0
          exact h0
        exact ⟨_, rfl, hw.trans hzero, hs₁.congr rfl, hslot, hv, rfl, rfl, hbears, hstored, hdata,
          hunfinished⟩
  · rw [if_neg hend, if_neg hend, if_neg hend]
    exact Or.inr ⟨_, rfl, .refl _, hs, hi, hgot.resolve_left hend, by omega⟩

theorem badFrameBits_iff {cfg : RxConfig} {c : EventContext} (hs : Configured cfg c) (h : Header)
    (data : List UInt8) :
    badFrameBits c (h.iocb data) = true ↔ h.rsv ≠ 0 ∨ h.key.isSome ≠ cfg.server := by
  have hrsv : ((h.iocb data).rsv != 0) = decide (h.rsv ≠ 0) := by
    have hall : ∀ r : Fin 8, (UInt8.ofNat r.val != 0) = decide (r ≠ 0) := by decide
    exact hall h.rsv
  have hmask : (h.iocb data).mask = h.key.isSome := rfl
  rw [badFrameBits, hrsv, hmask, hs.server]
  cases h.key.isSome <;> cases cfg.server <;> simp

/-- The blocks of the loop body that follow the beginning of a frame. -/
theorem recvRest_spec {cfg : RxConfig} {c : EventContext} {waiting : Option Draft} {f : Progress}
    (hs : Configured cfg c) (hi : Inside cfg c waiting f) {data : List UInt8}
    (hfit : f.off + data.length ≤ f.header.length)
    (hgot : f.off + data.length = f.header.length ∨ 0 < f.off + data.length) (io : Io) :
    let x := (recvCheckUtf8 (f.header.iocb data) c io).andThen fun s =>
      recvComplete (f.header.iocb data) (recvStore (f.header.iocb data) s.1 s.2).1
        (recvStore (f.header.iocb data) s.1 s.2).2
    MemFails (c, io) x (f.piece 2 cfg waiting data).calls ∨
      Outcome cfg (c, io) x (f.piece 2 cfg waiting data) := by
  intro x
  have hcheck := recvCheckUtf8_spec hi (f.header.iocb data) io
  change match f.draft.scan 2 data with | none => _ | some text => _ at hcheck
  unfold Progress.piece
  cases hscan : f.draft.scan 2 data with
  | none =>
    rw [hscan] at hcheck
    obtain ⟨s', heq, hw⟩ := hcheck
    refine Or.inr ⟨s', ?_, hw⟩
    change (recvCheckUtf8 (f.header.iocb data) c io).andThen _ = _
    rw [heq]
    unfold failWith
    rfl
  | some text =>
    rw [hscan] at hcheck
    obtain ⟨s', heq, hw, hi'⟩ := hcheck
    have hs' : Configured cfg s'.1 := hs.congr hw.settings
    have hop : (f.header.iocb data).opcode = UInt8.ofNat f.header.opcode.val := rfl
    obtain ⟨hw₂, hi₂⟩ := recvStore_spec hs' hi' hop hfit s'.2
    have hs₂ : Configured cfg (recvStore (f.header.iocb data) s'.1 s'.2).1 := hs'.congr hw₂.settings
    have hx : x = recvComplete (f.header.iocb data) (recvStore (f.header.iocb data) s'.1 s'.2).1
        (recvStore (f.header.iocb data) s'.1 s'.2).2 := by
      change (recvCheckUtf8 (f.header.iocb data) c io).andThen _ = _
      rw [heq]
      rfl
    have hdone := recvComplete_spec hs₂ hi₂ hop hfit hgot
      (recvStore (f.header.iocb data) s'.1 s'.2).2
    have hall := hw.trans hw₂
    rw [hx]
    rcases hdone with hfail | hout
    · refine Or.inl ((hfail.later hall).mono ?_)
      change [] ++ [_] ++ (if f.off + data.length = f.header.length then _ else _) <+:
        (if f.off + data.length = f.header.length then _ else _ : Reaction).calls
      by_cases hend : f.off + data.length = f.header.length
      · rw [if_pos hend, if_pos hend]
        exact List.prefix_rfl
      · rw [if_neg hend, if_neg hend]
        exact List.prefix_rfl
    · refine Or.inr ?_
      have hout := hout.after hall
      simp only at hout ⊢
      change Outcome cfg (c, io) _ (if f.off + data.length = f.header.length then _ else _)
      change Outcome cfg (c, io) _ ⟨[] ++ [_] ++ (if f.off + data.length = f.header.length then _
        else _ : Reaction).calls, (if f.off + data.length = f.header.length then _
        else _ : Reaction).verdict⟩ at hout
      by_cases hend : f.off + data.length = f.header.length
      · rw [if_pos hend] at hout ⊢
        exact hout
      · rw [if_neg hend] at hout ⊢
        exact hout

/-- A piece of the frame with header `h` can come next. -/
def Rx.Expects (rx : Rx) (h : Header) (data : List UInt8) : Prop :=
  match rx.frame with
  | none => data.length ≤ h.length ∧ (data = [] → h.length = 0)
  | some f => f.header = h ∧ f.off + data.length ≤ h.length

/-- No frame begins in the midst of one. -/
theorem recvNewFrame_inside {cfg : RxConfig} {c : EventContext} {waiting : Option Draft}
    {f : Progress} (hi : Inside cfg c waiting f) (hpos : 0 < f.off) (data : List UInt8) :
    recvNewFrame c (f.header.iocb data) = some (c, false) := by
  have hbusy : ¬ c.curImsg.opcode = noOpcode := by
    rw [hi.frame.opcode]
    exact ofNat_opcode_ne_noOpcode f.draft.opcode
  have hmid : ¬ (c.ipayloadlen = 0 ∧ c.ipayloadoff = 0) := by
    rw [hi.len, hi.off]
    omega
  rw [recvNewFrame, if_neg hbusy, if_neg hmid]

/-- **The loop body runs the receiver.** -/
theorem recvPiece_spec {cfg : RxConfig} {c : EventContext} {rx : Rx} (hm : Models cfg c rx)
    {h : Header} (hv : h.Valid) {data : List UInt8} (hfit : rx.Expects h data) (io : Io) :
    MemFails (c, io) (recvPiece (h.iocb data) c io) (rx.piece 2 cfg h data).calls ∨
    Outcome cfg (c, io) (recvPiece (h.iocb data) c io) (rx.piece 2 cfg h data) := by
  obtain ⟨hs, hstate⟩ := hm
  have hbits := badFrameBits_iff hs h data
  unfold recvPiece Rx.piece
  cases hframe : rx.frame with
  | some f =>
    simp only [Rx.Expects, hframe] at hfit hstate
    obtain ⟨rfl, hle⟩ := hfit
    obtain ⟨hi, hpos, hlt⟩ := hstate
    have hnew := recvNewFrame_inside hi hpos data
    have hgood : ¬ badFrameBits c (f.header.iocb data) = true := by
      rw [hbits, hi.bits.1, hi.bits.2]
      simp
    rw [if_neg hgood, hnew]
    exact recvRest_spec hs hi hle (Or.inr (by omega)) io
  | none =>
    simp only [Rx.Expects, hframe] at hfit hstate
    obtain ⟨hle, hempty⟩ := hfit
    unfold Rx.admits
    by_cases hbad : h.rsv ≠ 0 ∨ h.key.isSome ≠ cfg.server
    · rw [if_pos hbad, if_pos (hbits.2 hbad)]
      exact Or.inr ⟨(c, io), rfl, .refl _⟩
    · rw [if_neg hbad, if_neg fun hb => hbad (hbits.1 hb)]
      have hok : h.rsv = 0 ∧ h.key.isSome = cfg.server := by
        rw [not_or, not_not, not_not] at hbad
        exact hbad
      have hnew := recvNewFrame_between hstate hok.1 data
      cases hb : belongs rx.waiting h.opcode with
      | none =>
        rw [hb] at hnew
        rw [hnew]
        exact Or.inr ⟨(c, io), rfl, .refl _⟩
      | some x =>
        obtain ⟨k, rest⟩ := x
        rw [hb] at hnew
        obtain ⟨c', hc', hw, ho⟩ := hnew
        rw [hc']
        have hs' : Configured cfg c' := hs.congr (hw io).settings
        have hbegin := recvBeginFrame_spec hs' ho hok hv data io
        simp only [if_true]
        by_cases hbig : cfg.limit < (k.length + h.length) % 2 ^ 64
        · rw [if_pos hbig] at hbegin ⊢
          rw [hbegin]
          refine Or.inr ⟨(c', io), ?_, hw io⟩
          unfold failWith
          rfl
        · rw [if_neg hbig] at hbegin ⊢
          rcases hbegin with hfail | ⟨s', heq, hw', hi⟩
          · exact Or.inl (((hfail.andThen _).later (hw io)).mono
              ((List.prefix_append [h.startCall] _)))
          · have hs₂ : Configured cfg s'.1 := hs'.congr hw'.settings
            have hall : Works (c, io) s' [h.startCall] := (hw io).trans hw'
            rw [heq, Loop.Step.andThen_again]
            have hle' : 0 + data.length ≤ h.length := by simpa using hle
            have hgot : 0 + data.length = h.length ∨ 0 < 0 + data.length := by
              by_cases hnil : data = []
              · exact Or.inl (by simp [hnil, hempty hnil])
              · exact Or.inr (by simpa using List.length_pos_of_ne_nil hnil)
            have hrest := recvRest_spec hs₂ hi hle' hgot s'.2
            exact hrest.imp (fun hfail => hfail.later hall) fun hout => hout.after hall

end Wslay
