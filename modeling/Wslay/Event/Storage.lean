import Wslay.Event.Limit

/-!
# Where the payload is stored

`wslay_event_recv` allocates one chunk for each frame it keeps, copies the pieces of
the payload into it as they come, and at the end of a message copies its chunks into
one buffer.  Neither copy looks at the size of what it writes to.

* `recvUntilCopy` — the loop body up to the copy of a piece.
* `Rx.Exact` — the length of a message counts its octets exactly.
* `HearsAs` — a property of the receiver that holds in whole runs.
* `CopyFits`, `ChunksFull` — what the two copies rely on.
-/

namespace Wslay

open Loop (Step)

/-! ## The loop body up to the copy -/

/-- What the loop body does before it calls `on_frame_recv_chunk_callback`. -/
def recvUntilCopy (iocb : Iocb) (c : EventContext) (io : Io) : Step (EventContext × Io) Int :=
  if badFrameBits c iocb then failWith codeProtocolError c io
  else
    match recvNewFrame c iocb with
    | none => failWith codeProtocolError c io
    | some (c, newFrame) =>
      (if newFrame then recvBeginFrame iocb c io else .again (c, io)).andThen fun s =>
        recvCheckUtf8 iocb s.1 s.2

theorem andThen_assoc {σ ρ : Type} (x : Step σ ρ) (f g : σ → Step σ ρ) :
    (x.andThen f).andThen g = x.andThen fun s => (f s).andThen g := by
  cases x <;> rfl

theorem recvPiece_eq (iocb : Iocb) (c : EventContext) (io : Io) :
    recvPiece iocb c io = (recvUntilCopy iocb c io).andThen fun s =>
      recvComplete iocb (recvStore iocb s.1 s.2).1 (recvStore iocb s.1 s.2).2 := by
  unfold recvPiece recvUntilCopy
  split_ifs
  · rfl
  · cases recvNewFrame c iocb with
    | none => rfl
    | some x => exact (andThen_assoc _ _ _).symm

/-- The pass that begins in `s` stores the piece `iocb` in the state `t`. -/
def Deposits (s : EventContext × Io) (iocb : Iocb) (t : EventContext × Io) : Prop :=
  s.1.readEnabled = true ∧ ∃ f io, frameRecv s.1.frameCtx s.2 = (.ok iocb, f, io) ∧
    recvUntilCopy iocb { s.1 with frameCtx := f } io = .again t

section

variable {cfg : RxConfig} {rx rx' : Rx} {c : EventContext} {h : Header} {data : List UInt8}

/-- At the copy the context stands inside the frame that the piece belongs to. -/
theorem recvUntilCopy_inside (hm : Models cfg c rx) (hv : h.Valid) (hfit : rx.Expects h data)
    {io : Io} {t : EventContext × Io} (ht : recvUntilCopy (h.iocb data) c io = .again t) :
    ∃ calls f waiting text, rx.enter cfg h = .ok (calls, f, waiting) ∧ Configured cfg t.1 ∧
      Inside cfg t.1 waiting { f with draft := { f.draft with text := text } } := by
  have hcheck : ∀ {c' : EventContext} {io' : Io} {waiting : Option Draft} {f : Progress},
      Configured cfg c' → Inside cfg c' waiting f → recvCheckUtf8 (h.iocb data) c' io' = .again t →
        ∃ text, Configured cfg t.1 ∧
          Inside cfg t.1 waiting { f with draft := { f.draft with text := text } } := by
    intro c' io' waiting f hs hi ht
    have hspec := recvCheckUtf8_spec hi (h.iocb data) io'
    cases hscan : f.draft.scan 2 (h.iocb data).data with
    | none =>
      rw [hscan] at hspec
      obtain ⟨s', heq, -⟩ := hspec
      rw [heq] at ht
      cases ht
    | some text =>
      rw [hscan] at hspec
      obtain ⟨s', heq, hw, hi'⟩ := hspec
      rw [heq] at ht
      cases ht
      exact ⟨text, hs.congr hw.settings, hi'⟩
  obtain ⟨hs, hstate⟩ := hm
  have hbits := badFrameBits_iff hs h data
  unfold recvUntilCopy at ht
  by_cases hbad : badFrameBits c (h.iocb data) = true
  · rw [if_pos hbad] at ht
    cases ht
  rw [if_neg hbad] at ht
  unfold Rx.enter
  cases hframe : rx.frame with
  | some f =>
    simp only [Rx.Expects, hframe] at hfit hstate
    obtain ⟨rfl, -⟩ := hfit
    obtain ⟨hi, hpos, -⟩ := hstate
    rw [recvNewFrame_inside hi hpos data] at ht
    obtain ⟨text, hs', hi'⟩ := hcheck hs hi ht
    exact ⟨[], f, rx.waiting, text, rfl, hs', hi'⟩
  | none =>
    simp only [Rx.Expects, hframe] at hfit hstate
    have hok : ¬ (h.rsv ≠ 0 ∨ h.key.isSome ≠ cfg.server) := fun hb => hbad (hbits.2 hb)
    have hgood : h.rsv = 0 ∧ h.key.isSome = cfg.server := by
      rw [not_or, not_not, not_not] at hok
      exact hok
    have hnew := recvNewFrame_between hstate hgood.1 data
    simp only [Rx.admits, if_neg hok]
    cases hb : belongs rx.waiting h.opcode with
    | none =>
      rw [hb] at hnew
      rw [hnew] at ht
      cases ht
    | some x =>
      obtain ⟨k, rest⟩ := x
      rw [hb] at hnew
      obtain ⟨c', hc', hw, ho⟩ := hnew
      rw [hc'] at ht
      have hs' : Configured cfg c' := hs.congr (hw io).settings
      have hbegin := recvBeginFrame_spec hs' ho hgood hv data io
      simp only [if_true] at ht
      by_cases hbig : cfg.limit < (k.length + h.length) % 2 ^ 64
      · rw [if_pos hbig] at hbegin
        rw [hbegin] at ht
        cases ht
      · rw [if_neg hbig] at hbegin
        simp only [if_neg hbig]
        rcases hbegin with ⟨-, r, s', heq, -⟩ | ⟨s', heq, hw', hi⟩
        · rw [heq] at ht
          cases ht
        · rw [heq] at ht
          obtain ⟨text, hs₂, hi'⟩ := hcheck (hs'.congr hw'.settings) hi ht
          exact ⟨[h.startCall], ⟨h, 0, k.extend cfg h⟩, rest, text, rfl, hs₂, hi'⟩

/-! ## The length of a message -/

/-- If the message is kept, its length counts the octets that have come and the
`missing` ones. -/
def Draft.Exact (cfg : RxConfig) (k : Draft) (missing : Nat) : Prop :=
  cfg.buffers k.opcode = true → k.length = k.body.length + missing

/-- The lengths are exact. -/
structure Rx.Exact (cfg : RxConfig) (rx : Rx) : Prop where
  waiting : ∀ k, rx.waiting = some k → k.Exact cfg 0
  frame : ∀ f, rx.frame = some f → f.draft.Exact cfg (f.header.length - f.off)

theorem Rx.Exact.fresh (cfg : RxConfig) : Rx.Exact cfg .fresh :=
  ⟨fun _ h => (by cases h), fun _ h => (by cases h)⟩

/-- The verdict leaves the receiver `rx` behind. -/
def Verdict.Leaves (v : Verdict) (rx : Rx) : Prop :=
  v = .more rx ∨ ∃ opcode msg, v = .done opcode msg rx

/-- A message goes on exactly as long as it is kept to the limit. -/
theorem Rx.Exact.enter (he : rx.Exact cfg) (hs : rx.Sound cfg) (hb : rx.Bounded cfg)
    (hlimit : cfg.limit < 2 ^ 63) (hv : h.Valid) {calls : List Call} {f : Progress}
    {waiting : Option Draft} (henter : rx.enter cfg h = .ok (calls, f, waiting)) :
    Rx.Exact cfg ⟨waiting, some f⟩ := by
  have hkind := ((hs.enter hv henter).frame f rfl).kind
  unfold Rx.enter at henter
  cases hf : rx.frame with
  | some g =>
    simp only [hf] at henter
    cases henter
    refine ⟨he.waiting, ?_⟩
    rintro g ⟨⟩
    exact he.frame _ hf
  | none =>
    simp only [hf] at henter
    cases ha : Rx.admits cfg rx.waiting h with
    | error code => simp [ha] at henter
    | ok x =>
      obtain ⟨g, rest⟩ := x
      rw [ha] at henter
      cases henter
      obtain ⟨k, hbel, rfl⟩ := admits_belongs ha
      have hk : k.Exact cfg 0 ∧ ∀ k', waiting = some k' → k'.Exact cfg 0 := by
        have hstart : ∀ opcode, (Draft.start opcode).Exact cfg 0 := fun _ _ => rfl
        unfold belongs at hbel
        cases hw : rx.waiting with
        | none =>
          simp only [hw] at hbel
          split_ifs at hbel
          cases hbel
          exact ⟨hstart _, fun _ h => (by cases h)⟩
        | some k₀ =>
          simp only [hw] at hbel
          split_ifs at hbel
          · cases hbel
            exact ⟨he.waiting _ hw, fun _ h => (by cases h)⟩
          · cases hbel
            refine ⟨hstart _, ?_⟩
            rintro k' ⟨⟩
            exact he.waiting _ hw
      have hle := (hb.of_belongs hbel).1
      have hlen := hv.1
      obtain ⟨hop, hbody, -⟩ := Draft.extend_same cfg k h
      refine ⟨hk.2, ?_⟩
      rintro g ⟨⟩
      intro hbuf
      change cfg.buffers (k.extend cfg h).opcode = true at hbuf
      have hbuf' : cfg.buffers h.opcode = true := by
        rw [cfg.buffers_kind hkind]
        exact hbuf
      rw [hop] at hbuf
      have hkept := hk.1 hbuf
      change (k.extend cfg h).length = (k.extend cfg h).body.length + (h.length - 0)
      rw [hbody, Draft.extend, if_pos hbuf']
      change (k.length + h.length) % 2 ^ 64 = _
      rw [Nat.mod_eq_of_lt (by omega)]
      omega

/-- More of the payload has come. -/
theorem Rx.Exact.advance {f : Progress} {waiting : Option Draft}
    (he : Rx.Exact cfg ⟨waiting, some f⟩) (hkind : 8 ≤ f.header.opcode.val ↔ 8 ≤ f.draft.opcode.val)
    (hle : f.off + data.length ≤ f.header.length) (text : List Utf8.Range) :
    (f.advance cfg data text).draft.Exact cfg (f.header.length - (f.off + data.length)) := by
  intro hbuf
  have hbuf' : cfg.buffers f.draft.opcode = true := hbuf
  have hlen := he.frame f rfl hbuf'
  unfold Progress.advance
  rw [cfg.buffers_kind hkind, if_pos hbuf']
  change f.draft.length = (f.draft.body ++ data).length + _
  rw [List.length_append]
  omega

/-- **A piece keeps the lengths exact.** -/
theorem Rx.Exact.piece (he : rx.Exact cfg) (hs : rx.Sound cfg) (hb : rx.Bounded cfg)
    (hlimit : cfg.limit < 2 ^ 63) (hv : h.Valid)
    (hle : ∀ {calls f waiting}, rx.enter cfg h = .ok (calls, f, waiting) →
      f.off + data.length ≤ f.header.length)
    (skip : Nat) (hleaves : (rx.piece skip cfg h data).verdict.Leaves rx') : rx'.Exact cfg := by
  cases henter : rx.enter cfg h with
  | error code =>
    rw [Rx.piece_error henter] at hleaves
    rcases hleaves with hmore | ⟨_, _, hdone⟩
    · cases hmore
    · cases hdone
  | ok x =>
    obtain ⟨calls, f, waiting⟩ := x
    have hf := he.enter hs hb hlimit hv henter
    have hkind := ((hs.enter hv henter).frame f rfl).kind
    have hadv := hf.advance hkind (hle henter)
    rw [Rx.piece_ok henter] at hleaves
    change (f.piece skip cfg waiting data).verdict.Leaves rx' at hleaves
    rcases f.piece_cases skip cfg waiting data with ⟨-, heq⟩ | ⟨text, -, ⟨hend, heq⟩ | ⟨-, heq⟩⟩ <;>
      rw [heq] at hleaves
    · rcases hleaves with hmore | ⟨_, _, hdone⟩
      · cases hmore
      · cases hdone
    · rcases (f.advance cfg data text).finish_cases cfg waiting with heq' | ⟨-, heq'⟩ | ⟨-, heq'⟩ <;>
        rw [heq'] at hleaves
      · rcases hleaves with hmore | ⟨_, _, hdone⟩
        · cases hmore
        · cases hdone
      · rcases hleaves with hmore | ⟨_, _, hdone⟩
        · exact absurd hmore Draft.verdict_more
        · obtain ⟨-, rfl⟩ := Draft.verdict_done hdone
          exact ⟨hf.waiting, fun _ h => (by cases h)⟩
      · rcases hleaves with hmore | ⟨_, _, hdone⟩
        · cases hmore
          refine ⟨?_, fun _ h => (by cases h)⟩
          rintro k ⟨⟩
          have hdone := hadv text
          rwa [hend, Nat.sub_self] at hdone
        · cases hdone
    · rcases hleaves with hmore | ⟨_, _, hdone⟩
      · cases hmore
        refine ⟨hf.waiting, ?_⟩
        rintro g ⟨⟩
        exact hadv text
      · cases hdone

/-- No message is longer than its limit, and each is as long as it says. -/
structure Rx.Measured (cfg : RxConfig) (rx : Rx) : Prop where
  sound : rx.Sound cfg
  bounded : rx.Bounded cfg
  exact : cfg.limit < 2 ^ 63 → rx.Exact cfg

theorem Rx.Measured.fresh (cfg : RxConfig) : Rx.Measured cfg .fresh :=
  ⟨.fresh cfg, .fresh cfg, fun _ => .fresh cfg⟩

/-- A piece belongs to a frame that it does not go beyond. -/
def Rx.Suits (cfg : RxConfig) (rx : Rx) (h : Header) (data : List UInt8) : Prop :=
  h.Valid ∧ ∀ calls f waiting, rx.enter cfg h = .ok (calls, f, waiting) →
    f.header = h ∧ f.off + data.length ≤ f.header.length

theorem Rx.Measured.piece (hm : rx.Measured cfg) (hfit : rx.Suits cfg h data) (skip : Nat)
    (hleaves : (rx.piece skip cfg h data).verdict.Leaves rx') : rx'.Measured cfg := by
  obtain ⟨hv, hle⟩ := hfit
  have hsound : (rx.piece skip cfg h data).verdict.Sound cfg := by
    cases henter : rx.enter cfg h with
    | error code =>
      rw [Rx.piece_error henter]
      trivial
    | ok x =>
      obtain ⟨calls, f, waiting⟩ := x
      exact hm.sound.piece hv henter (hle _ _ _ henter).2 skip
  have hbounded := (hm.bounded.piece skip h data).2
  refine ⟨?_, ?_, fun hlimit => (hm.exact hlimit).piece hm.sound hm.bounded hlimit hv
    (fun henter => (hle _ _ _ henter).2) skip hleaves⟩
  · rcases hleaves with hmore | ⟨opcode, msg, hdone⟩
    · rw [hmore] at hsound
      exact hsound
    · rw [hdone] at hsound
      exact hsound.1
  · rcases hleaves with hmore | ⟨opcode, msg, hdone⟩
    · rw [hmore] at hbounded
      exact hbounded
    · rw [hdone] at hbounded
      exact hbounded.2

end

/-! ## In whole runs -/

/-- Whenever reading is enabled, the context receives, and messages are measured. -/
def Measures (cfg : RxConfig) (s : EventContext × Io) : Prop :=
  s.1.readEnabled = true → ∃ rx d look, Listens cfg s rx d look ∧ rx.Measured cfg

section

variable {cfg : RxConfig} {s t : EventContext × Io}

theorem Measures.of_off (hoff : s.1.readEnabled = false) : Measures cfg s := by
  intro he
  rw [hoff] at he
  cases he

theorem Measures.hears (hs : Measures cfg s) : Hears cfg s := by
  intro he
  obtain ⟨rx, d, look, hl, -⟩ := hs he
  exact ⟨rx, d, look, hl⟩

theorem Measures.spares (hs : Measures cfg s) (hsp : Spares s t) : Measures cfg t := by
  intro he
  obtain ⟨rx, d, look, hl, hm⟩ := hs (hsp.enabled he)
  exact ⟨rx, d, look, hl.spares hsp, hm⟩

/-- The piece that comes next suits the receiver. -/
theorem TakesPiece.suits {s₁ : EventContext × Io} {rx : Rx} {d d' : Dec} {octets hdr raw look' : List UInt8}
    {h : Header} {off : Nat} (ht : TakesPiece cfg s s₁ rx d octets h off hdr raw d' look')
    (hp : rx.Place d) : rx.Suits cfg h (h.mask off raw) := by
  refine ⟨ht.valid, fun calls f waiting henter => ?_⟩
  obtain ⟨hh, hoff⟩ := hp.enter ht.enters henter
  have hfits := ht.fits
  rw [hh, hoff, Header.length_mask]
  exact ⟨rfl, hfits⟩

/-- After a malformed header reading is over. -/
theorem recvFrameError_proto (c : EventContext) (io : Io) :
    (recvFrameError .proto c io).state.1.readEnabled = false := by
  have hoff := (eventQueueCloseWrapper_spares c 0 [] io).2
  unfold recvFrameError
  rw [if_pos (Or.inl (by decide))]
  simp only
  split_ifs <;> exact hoff

/-- A pass goes on measuring. -/
theorem recvPass_measures (hs : Measures cfg s) : (recvPass s).All (Measures cfg) := by
  cases hon : s.1.readEnabled with
  | false =>
    have hstay : recvPass s = .leave 0 s := by
      unfold recvPass
      simp [hon]
    rw [hstay]
    exact hs
  | true =>
    obtain ⟨rx, d, look, hl, hm⟩ := hs hon
    obtain ⟨bs, s₁, -, -, -, -, ⟨heq, -, d', look', hdr, -, -, -, hl'⟩ | ⟨heq, -, -⟩ |
      ⟨h, off, hdr, raw, d', look', ht⟩⟩ := recvPass_cases hl hon
    · obtain ⟨r, s', heq', -, hstate⟩ := recvFrameError_state .wantRead s₁.1 s₁.2
      rw [heq, heq']
      rcases hstate with rfl | hoff
      · exact fun _ => ⟨rx, d', look', hl', hm⟩
      · exact .of_off hoff
    · rw [heq, Step.all_iff]
      exact .of_off (recvFrameError_proto s₁.1 s₁.2)
    · rcases ht.outcome with ⟨-, r, s', heq, -, hoff, -⟩ | hout
      · rw [heq]
        exact .of_off hoff
      · rcases hout.cases with ⟨s', rx', heq, hsame, hm', hv⟩ | ⟨r, s', heq, hoff⟩
        · rw [heq]
          exact fun _ => ⟨rx', d', look', ⟨ht.ready.congr hsame.frame, hm',
            ht.after ▸ hl.place.piece ht.enters ht.fits ht.empty hv⟩,
            hm.piece (ht.suits hl.place) 2 hv⟩
        · rw [heq]
          exact .of_off hoff

theorem eventRecv_measures (hs : Measures cfg s) : Measures cfg (eventRecv s.1 s.2).2 :=
  Loop.run_inv (fun _ ht => recvPass_measures ht) hs (eventRecv_run hs.hears)

theorem runOps_measures (hs : Measures cfg s) (ops : List Op) : Measures cfg (runOps s ops) := by
  have hstep : ∀ t op, True → Measures cfg t → Measures cfg (step t op).2 := by
    intro t op _ ht
    cases op with
    | call a => exact ht.spares (appCall_spares t.1 t.2 a)
    | recv => exact eventRecv_measures ht
  exact runOps_inv hstep (fun _ _ => trivial) hs

/-- Every pass of a run begins in a context that measures. -/
theorem reaches_measures (hs : Measures cfg s) (ht : Loop.Reaches recvPass s t) :
    Measures cfg t := by
  refine ht.inv (fun u v hu heq => ?_) hs
  have hall := recvPass_measures hu
  rw [heq] at hall
  exact hall

theorem configured_measures (server : Bool) (callbacks : EventCallbacks) (noBuffering : Bool)
    (maxRecvMsgLength : Nat) (io : Io) :
    Measures (.of server callbacks noBuffering maxRecvMsgLength)
      (configured server callbacks noBuffering maxRecvMsgLength, io) :=
  fun _ => ⟨_, _, _, configured_listens server callbacks noBuffering maxRecvMsgLength io, .fresh _⟩

/-! ## The two copies -/

/-- The state in which a piece is copied: the chunk callback has been called. -/
def atCopy (iocb : Iocb) (t : EventContext × Io) : EventContext × Io :=
  notify t.1.callbacks.onFrameRecvChunk (.frameRecvChunk iocb.data) t.1 t.2

/-- The chunk that a piece is copied to is there, it has the size of the whole payload of
the frame, the earlier pieces fill it up to the offset, and the piece fits behind them. -/
def CopyFits (iocb : Iocb) (c : EventContext) : Prop :=
  isBuffered c iocb.opcode = true → iocb.data ≠ [] →
    ∃ ch, c.curImsg.chunks.cells.getLast? = some ch ∧ ch.dataLength = iocb.payloadLength ∧
      ch.data.length = c.ipayloadoff ∧ c.ipayloadoff + iocb.data.length ≤ ch.dataLength

/-- At the end of a frame the chunks of the message are full, and they have the length
of the message between them. -/
def ChunksFull (iocb : Iocb) (c : EventContext) : Prop :=
  isBuffered c iocb.opcode = true → c.ipayloadoff = c.ipayloadlen →
    (∀ ch ∈ c.curImsg.chunks.cells, ch.data.length = ch.dataLength) ∧
      (c.curImsg.chunks.cells.map ByteChunk.dataLength).sum = c.curImsg.msgLength

theorem Stored.sum {cells : List ByteChunk} {body : List UInt8} (h : Stored cells body) :
    (cells.map ByteChunk.dataLength).sum = body.length := by
  obtain ⟨hfull, rfl⟩ := h
  induction cells with
  | nil => rfl
  | cons ch cells ih =>
    rw [List.map_cons, List.sum_cons, List.flatMap_cons, List.length_append,
      ih fun c hc => hfull c (List.mem_cons_of_mem _ hc), hfull ch (List.mem_cons_self ..)]

theorem Inside.copyFits {c : EventContext} {waiting : Option Draft} {f : Progress} {data : List UInt8}
    (hs : Configured cfg c) (hi : Inside cfg c waiting f)
    (hle : f.off + data.length ≤ f.header.length) : CopyFits (f.header.iocb data) c := by
  intro hbuf hdata
  have hpos : 0 < data.length := List.length_pos_of_ne_nil hdata
  have hkept : cfg.buffers f.draft.opcode = true := by
    rw [← RxConfig.buffers_congr hi.frame.kind, ← isBuffered_eq hs]
    exact hbuf
  have hcells := hi.frame.cells
  rw [if_pos ⟨hkept, by omega⟩] at hcells
  obtain ⟨full, part, before, heq, -, -, hpart⟩ := hcells
  refine ⟨⟨part, f.header.length⟩, by rw [heq, List.getLast?_concat], rfl, ?_, ?_⟩
  · rw [hi.off]
    exact hpart
  · rw [hi.off]
    exact hle

theorem Inside.chunksFull {c : EventContext} {waiting : Option Draft} {f : Progress} {data : List UInt8}
    (hs : Configured cfg c) (hi : Inside cfg c waiting f)
    (hexact : f.draft.Exact cfg (f.header.length - f.off)) :
    ChunksFull (f.header.iocb data) c := by
  intro hbuf hend
  have hkept : cfg.buffers f.draft.opcode = true := by
    rw [← RxConfig.buffers_congr hi.frame.kind, ← isBuffered_eq hs]
    exact hbuf
  rw [hi.off, hi.len] at hend
  have hstored := hi.frame.complete hend
  refine ⟨hstored.full, ?_⟩
  rw [hstored.sum, hi.frame.length, hexact hkept, hend, Nat.sub_self, Nat.add_zero]

/-- The piece that `wslay_frame_recv` hands over is one that can come next. -/
theorem Listens.given {rx : Rx} {d : Dec} {look : List UInt8} (hl : Listens cfg s rx d look)
    {iocb : Iocb} {f : FrameContext} {io : Io}
    (hcall : frameRecv s.1.frameCtx s.2 = (.ok iocb, f, io)) :
    ∃ h data, iocb = h.iocb data ∧ rx.Expects h data ∧ rx.Suits cfg h data := by
  obtain ⟨bs, -, -, -, hcases⟩ := frameRecv_step hl.ready s.2
  rw [hcall] at hcases
  rcases hcases with ⟨hr, -⟩ | ⟨hr, -⟩ | ⟨h, off, data, d', look', hp, hr, -⟩
  · cases hr
  · cases hr
  · cases hr
    obtain ⟨hdr, raw, -, henter, hv, rfl, hle, hempty, -⟩ := takePiece_piece hl.ready.ok hp
    refine ⟨h, _, rfl, (hl.place.expects henter hle hempty).1, hv, fun calls g waiting he => ?_⟩
    obtain ⟨hh, hoff⟩ := hl.place.enter henter he
    rw [hh, hoff, Header.length_mask]
    exact ⟨rfl, hle⟩

/-- **A piece that is stored** fits into its chunk, and the chunks of a complete frame are
full. -/
theorem Deposits.fits (hs : Measures cfg s) {iocb : Iocb} (ht : Deposits s iocb t) :
    CopyFits iocb (atCopy iocb t).1 ∧
      (cfg.limit < 2 ^ 63 → ChunksFull iocb (recvStore iocb t.1 t.2).1) := by
  obtain ⟨hon, f, io, hcall, hcopy⟩ := ht
  obtain ⟨rx, d, look, hl, hm⟩ := hs hon
  obtain ⟨h, data, rfl, hexpects, hsuits⟩ := hl.given hcall
  have hmodels : Models cfg { s.1 with frameCtx := f } rx := hl.models.congr rfl rfl
  obtain ⟨calls, g, waiting, text, henter, hset, hi⟩ :=
    recvUntilCopy_inside hmodels hsuits.1 hexpects hcopy
  obtain ⟨rfl, hle⟩ := hsuits.2 _ _ _ henter
  have hkind := ((hm.sound.enter hsuits.1 henter).frame g rfl).kind
  constructor
  · -- the callback leaves the slots alone
    obtain ⟨hw, hslots⟩ := notify_works t.1 (.frameRecvChunk data) t.2
    exact Inside.copyFits (f := { g with draft := { g.draft with text := text } })
      (hset.congr hw.settings) (hi.congr hslots) hle
  · intro hlimit
    have hexact := ((hm.exact hlimit).enter hm.sound hm.bounded hlimit hsuits.1 henter).advance hkind
      hle text
    have hsame : ({ g with draft := { g.draft with text := text } } : Progress).advance cfg data
        text = g.advance cfg data text := rfl
    have hop : (g.header.iocb data).opcode = UInt8.ofNat g.header.opcode.val := rfl
    obtain ⟨hw, hi'⟩ := recvStore_spec hset hi hop hle t.2
    change Inside cfg _ waiting (({ g with draft := { g.draft with text := text } } : Progress).advance
      cfg data text) at hi'
    rw [hsame] at hi'
    exact Inside.chunksFull (f := g.advance cfg data text) (hset.congr hw.settings) hi' hexact

end

end Wslay
