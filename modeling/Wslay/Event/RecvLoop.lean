import Wslay.Event.RecvBody

/-!
# The loop of `wslay_event_recv`

One pass waits, meets a header that is malformed, or takes one piece to the
receiver.  Every piece is an octet at least, so the loop comes to an end.

* `Listens` — the invariant of a context that goes on receiving.
* `recvPass_cases` — one pass.
* `eventRecv_isSome` — the loop ends.
-/

namespace Wslay

open Loop (Step)
open Octets (Key)

/-! ## The frame layer below -/

/-- What a call of `wslay_frame_recv` finds depends on the receiving half only. -/
theorem View.congr {c c' : FrameContext} {d : Dec} {look : List UInt8} (hv : View c d look)
    (h : c'.recvHalf = c.recvHalf) : View c' d look := by
  simp only [FrameContext.recvHalf, Prod.mk.injEq] at h
  obtain ⟨h1, h2, h3, h4, h5, h6, h7, h8, h9⟩ := h
  have havail : c'.avail = c.avail := by rw [FrameContext.avail, h1, h2, FrameContext.avail]
  cases hv with
  | header1 hs hr =>
    rw [← havail]
    exact .header1 (h8.trans hs) (h9.trans hr)
  | ext b0 b1 hs hi hm hb hr =>
    rw [← havail]
    exact .ext b0 b1 (h8.trans hs) (h3.trans hi) (h6.trans hm) hb (by rw [h9]; exact hr)
  | maskkey g hb hs hr hm hi hl ho hp =>
    rw [← havail]
    exact .maskkey g hb (h8.trans hs) (h9.trans hr) (h6.trans hm) (h3.trans hi) (h4.trans hl)
      (h5.trans ho) hp
  | payload h off hp hlt =>
    rw [← havail]
    exact .payload h off ⟨h8.trans hp.istate, h3.trans hp.iom, h6.trans hp.imask,
      fun k hk => h7.trans (hp.imaskkey k hk), h4.trans hp.ipayloadlen, h5.trans hp.ipayloadoff⟩ hlt

theorem Ready.congr {c c' : FrameContext} {d : Dec} {look : List UInt8} (hr : Ready c d look)
    (h : c'.recvHalf = c.recvHalf) : Ready c' d look := by
  have hv := hr.view.congr h
  simp only [FrameContext.recvHalf, Prod.mk.injEq] at h
  obtain ⟨h1, h2, -⟩ := h
  have hw := hr.window
  exact ⟨⟨by rw [h1, h2]; exact hw.mark_le, by rw [h1]; exact hw.size_le⟩, hv, hr.ok⟩

/-- The octets put aside while a header is read do not make a header. -/
theorem View.aside {c : FrameContext} {d : Dec} {look : List UInt8} (hv : View c d look) :
    ∃ aside, look = aside ++ c.avail ∧ (d = .head → parseHeader aside = .more) ∧
      (d ≠ .head → aside = []) := by
  cases hv with
  | header1 => exact ⟨[], rfl, fun _ => rfl, fun _ => rfl⟩
  | ext b0 b1 hs hi hm hb hr =>
    refine ⟨[b0, b1], rfl, fun _ => ?_, fun h => absurd rfl h⟩
    rcases hr with ⟨hlen, -⟩ | ⟨hlen, -⟩
    · rw [parseHeader_ext hb (Or.inl ⟨hlen, rfl, rfl⟩)]
      rfl
    · rw [parseHeader_ext hb (Or.inr ⟨hlen, rfl, rfl⟩)]
      rfl
  | maskkey g hb hs hr hm hi hl ho hp =>
    refine ⟨hb, rfl, fun _ => ?_, fun h => absurd rfl h⟩
    have := hp []
    rw [List.append_nil] at this
    rw [this]
    rfl
  | payload h off => exact ⟨[], rfl, fun h => (by cases h), fun _ => rfl⟩

/-- The octets that `wslay_frame_recv` can still consume. -/
def unread (s : EventContext × Io) : Nat :=
  s.1.frameCtx.avail.length + (pendingOctets s.2.recvs).length

/-- A piece, its header included, is longer than what was put aside for it. -/
theorem Ready.consumes {c c' : FrameContext} {d d' : Dec} {look look' hdr raw bs : List UInt8}
    {h : Header} {off : Nat} (hr : Ready c d look) (hr' : Ready c' d' look')
    (heq : look ++ bs = hdr ++ (raw ++ look')) (henter : d.Enters hdr h off) (hv : h.Valid)
    (hempty : raw = [] → h.length = off) :
    c'.avail.length < c.avail.length + bs.length := by
  obtain ⟨aside, hlook, hmore, hnone⟩ := hr.view.aside
  obtain ⟨aside', hlook', -, -⟩ := hr'.view.aside
  have hlen : look.length + bs.length = hdr.length + raw.length + look'.length := by
    have := congrArg List.length heq
    simp only [List.length_append] at this
    omega
  have hl := congrArg List.length hlook
  have hl' := congrArg List.length hlook'
  simp only [List.length_append] at hl hl'
  rcases henter with ⟨rfl, rfl, rfl⟩ | ⟨rfl, rfl⟩
  · -- otherwise the header would have been complete before
    have hshort : aside.length < h.encode.length := by
      by_contra hge
      have hpre : h.encode <+: aside := by
        have hencode : h.encode <+: look ++ bs := by
          rw [heq]
          exact List.prefix_append _ _
        have haside : aside <+: look ++ bs := by
          rw [hlook, List.append_assoc]
          exact List.prefix_append _ _
        exact List.prefix_of_prefix_length_le hencode haside (by omega)
      obtain ⟨t, ht⟩ := hpre
      have := hmore rfl
      rw [← ht, parseHeader_encode hv] at this
      cases this
    omega
  · have haside := hnone (by simp)
    have hok := hr.ok
    have hraw : raw ≠ [] := fun h => by
      have := hempty h
      have := hok.2
      omega
    have := List.length_pos_of_ne_nil hraw
    rw [haside] at hl
    simp only [List.length_nil] at hl hlen
    omega

/-! ## One pass -/

/-- The receiver and the decoder below it stand at the same place. -/
def Rx.Place (rx : Rx) (d : Dec) : Prop :=
  match rx.frame with
  | none => d = .head ∨ ∃ h, d = .body h 0
  | some f => d = .body f.header f.off

/-- **The context receives**: it represents the receiver `rx`, the decoder below
stands at `d`, and the octets `look` have not been used. -/
structure Listens (cfg : RxConfig) (s : EventContext × Io) (rx : Rx) (d : Dec)
    (look : List UInt8) : Prop where
  ready : Ready s.1.frameCtx d look
  models : Models cfg s.1 rx
  place : rx.Place d

theorem Models.congr {cfg : RxConfig} {c c' : EventContext} {rx : Rx} (hm : Models cfg c rx)
    (hset : c'.settings = c.settings) (hslots : c'.slots = c.slots) : Models cfg c' rx := by
  refine ⟨hm.settings.congr hset, ?_⟩
  have hstate := hm.state
  cases hf : rx.frame with
  | none =>
    simp only [hf] at hstate ⊢
    exact hstate.congr hslots
  | some f =>
    simp only [hf] at hstate ⊢
    exact ⟨hstate.1.congr hslots, hstate.2⟩

/-- Nothing that leaves the receiver alone keeps it from listening. -/
theorem Listens.spares {cfg : RxConfig} {s s' : EventContext × Io} {rx : Rx} {d : Dec}
    {look : List UInt8} (hl : Listens cfg s rx d look) (hsp : Spares s s') :
    Listens cfg s' rx d look := by
  have hc := hsp.context
  simp only [EventContext.rxPart, Prod.mk.injEq] at hc
  obtain ⟨h1, h2, h3, h4, h5, -, -, h8, h9, h10, h11, h12, h13⟩ := hc
  refine ⟨hl.ready.congr h8, hl.models.congr ?_ ?_, hl.place⟩
  · simp only [EventContext.settings, h1, h2, h3, h4, h5]
  · simp only [EventContext.slots, h9, h10, h11, h12, h13]

/-- Where a piece can come from. -/
theorem Rx.Place.expects {rx : Rx} {d : Dec} (hp : rx.Place d) {hdr raw : List UInt8} {h : Header}
    {off : Nat} (henter : d.Enters hdr h off) (hle : off + raw.length ≤ h.length)
    (hempty : raw = [] → h.length = off) :
    rx.Expects h (h.mask off raw) ∧ off = (rx.frame.map Progress.off).getD 0 := by
  unfold Rx.Place at hp
  unfold Rx.Expects
  cases hf : rx.frame with
  | none =>
    simp only [hf] at hp ⊢
    have hoff : off = 0 := by
      rcases henter with ⟨-, h0, -⟩ | ⟨hd, -⟩
      · exact h0
      · rcases hp with rfl | ⟨h', rfl⟩
        · cases hd
        · cases hd
          rfl
    subst hoff
    refine ⟨⟨?_, fun hnil => hempty ((Header.mask_eq_nil_iff h 0 raw).1 hnil)⟩, rfl⟩
    rw [Header.length_mask]
    omega
  | some f =>
    simp only [hf] at hp ⊢
    subst hp
    rcases henter with ⟨hd, -, -⟩ | ⟨hd, -⟩
    · cases hd
    · cases hd
      refine ⟨⟨rfl, ?_⟩, rfl⟩
      rw [Header.length_mask]
      exact hle

/-- Where the receiver stands after a piece of the frame `f`. -/
theorem Progress.piece_place {skip : Nat} {cfg : RxConfig} {f : Progress} {waiting : Option Draft}
    {data : List UInt8} {rx : Rx}
    (h : (f.piece skip cfg waiting data).verdict = .more rx ∨
      ∃ opcode msg, (f.piece skip cfg waiting data).verdict = .done opcode msg rx) :
    if f.off + data.length = f.header.length then rx.frame = none
    else ∃ g, rx.frame = some g ∧ g.header = f.header ∧ g.off = f.off + data.length := by
  unfold Progress.piece at h
  cases hscan : f.draft.scan skip data with
  | none => simp [hscan] at h
  | some text =>
    have hoff : (f.advance cfg data text).off = f.off + data.length := rfl
    have hheader : (f.advance cfg data text).header = f.header := rfl
    simp only [hscan, hoff, hheader] at h
    by_cases hend : f.off + data.length = f.header.length
    · rw [if_pos hend] at h ⊢
      simp only [Progress.finish] at h
      split_ifs at h with hbad hfin
      · rcases h with h | ⟨opcode, msg, h⟩ <;> cases h
      · rcases h with h | ⟨opcode, msg, h⟩
        · exact absurd h Draft.verdict_more
        · rw [(Draft.verdict_done h).2]
      · rcases h with h | ⟨opcode, msg, h⟩ <;> cases h
        rfl
    · rw [if_neg hend] at h ⊢
      rcases h with h | ⟨opcode, msg, h⟩ <;> cases h
      exact ⟨_, rfl, rfl, rfl⟩

theorem admits_ok {cfg : RxConfig} {waiting rest : Option Draft} {h : Header} {f : Progress}
    (ha : Rx.admits cfg waiting h = .ok (f, rest)) : f.header = h ∧ f.off = 0 := by
  unfold Rx.admits at ha
  split_ifs at ha
  cases hb : belongs waiting h.opcode with
  | none => simp [hb] at ha
  | some x =>
    simp only [hb] at ha
    split_ifs at ha
    cases ha
    exact ⟨rfl, rfl⟩

/-- **The receiver and the decoder keep in step.** -/
theorem Rx.Place.piece {rx rx' : Rx} {d : Dec} (hp : rx.Place d) {hdr raw : List UInt8} {h : Header}
    {off skip : Nat} {cfg : RxConfig} (henter : d.Enters hdr h off)
    (hle : off + raw.length ≤ h.length) (hempty : raw = [] → h.length = off)
    (hv : (rx.piece skip cfg h (h.mask off raw)).verdict = .more rx' ∨
      ∃ opcode msg, (rx.piece skip cfg h (h.mask off raw)).verdict = .done opcode msg rx') :
    rx'.Place (Dec.after h off raw.length) := by
  obtain ⟨hexpects, hoff⟩ := hp.expects henter hle hempty
  have hplace : if off + raw.length = h.length then rx'.frame = none
      else ∃ g, rx'.frame = some g ∧ g.header = h ∧ g.off = off + raw.length := by
    unfold Rx.piece at hv
    unfold Rx.Expects at hexpects
    cases hf : rx.frame with
    | some f =>
      simp only [hf, Option.map_some, Option.getD_some] at hv hoff hexpects
      have := Progress.piece_place hv
      rw [Header.length_mask, hexpects.1, ← hoff] at this
      exact this
    | none =>
      simp only [hf, Option.map_none, Option.getD_none] at hv hoff
      cases ha : Rx.admits cfg rx.waiting h with
      | error code => simp [ha] at hv
      | ok x =>
        obtain ⟨f, rest⟩ := x
        simp only [ha] at hv
        obtain ⟨hfh, hf0⟩ := admits_ok ha
        have := Progress.piece_place hv
        rw [Header.length_mask, hfh, hf0, ← hoff] at this
        exact this
  unfold Dec.after Rx.Place
  by_cases hend : off + raw.length = h.length
  · rw [if_pos hend] at hplace
    simp only [hplace, if_pos hend.symm]
    exact Or.inl trivial
  · rw [if_neg hend] at hplace
    obtain ⟨g, hg, hgh, hgo⟩ := hplace
    have hnot : ¬ h.length = off + raw.length := fun he => hend he.symm
    simp only [hg, if_neg hnot, hgh, hgo]

theorem recvPass_ok {c : EventContext} {io io' : Io} {f : FrameContext} {iocb : Iocb}
    (hon : c.readEnabled = true) (h : frameRecv c.frameCtx io = (.ok iocb, f, io')) :
    recvPass (c, io) = recvPiece iocb { c with frameCtx := f } io' := by
  unfold recvPass
  simp only [hon, if_true, h]

theorem recvPass_error {c : EventContext} {io io' : Io} {f : FrameContext} {e : Err}
    (hon : c.readEnabled = true) (h : frameRecv c.frameCtx io = (.error e, f, io')) :
    recvPass (c, io) = recvFrameError e { c with frameCtx := f } io' := by
  unfold recvPass
  simp only [hon, if_true, h]

/-- What one pass does with a piece. -/
structure TakesPiece (cfg : RxConfig) (s s₁ : EventContext × Io) (rx : Rx) (d : Dec)
    (octets : List UInt8) (h : Header) (off : Nat) (hdr raw : List UInt8) (d' : Dec)
    (look' : List UInt8) : Prop where
  octets : octets = hdr ++ (raw ++ look')
  enters : d.Enters hdr h off
  valid : h.Valid
  fits : off + raw.length ≤ h.length
  empty : raw = [] → h.length = off
  after : d' = Dec.after h off raw.length
  ready : Ready s₁.1.frameCtx d' look'
  fewer : unread s₁ < unread s
  given : (frameRecv s.1.frameCtx s.2).1 = .ok (h.iocb (h.mask off raw))
  outcome : MemFails s₁ (recvPass s) (rx.piece 2 cfg h (h.mask off raw)).calls ∨
    Outcome cfg s₁ (recvPass s) (rx.piece 2 cfg h (h.mask off raw))

/-- The state after the call of `wslay_frame_recv` that a pass begins with. -/
def fed (s : EventContext × Io) : EventContext × Io :=
  ({ s.1 with frameCtx := (frameRecv s.1.frameCtx s.2).2.1 }, (frameRecv s.1.frameCtx s.2).2.2)

/-- **One pass of a context that receives**, step by step.  First `recv_callback` may
deliver some octets; what the pass does is decided by the piece that comes next. -/
theorem recvPass_steps {cfg : RxConfig} {s : EventContext × Io} {rx : Rx} {d : Dec}
    {look : List UInt8} (hl : Listens cfg s rx d look) (hon : s.1.readEnabled = true) :
    ∃ bs, Delivers s.2 bs (fed s).2 ∧ (s.2.Quiet → (fed s).2.Quiet) ∧
      (fed s).1.sendHalf = s.1.sendHalf ∧
      ((∃ d' look', takePiece d (look ++ bs) = .wait d' look' ∧
        recvPass s = recvFrameError .wantRead (fed s).1 (fed s).2 ∧ Asked s.2 (fed s).2 ∧
        takePiece d' look' = .wait d' look' ∧ Listens cfg (fed s) rx d' look' ∧
        ∃ hdr, look ++ bs = hdr ++ look' ∧
          (d' = d ∧ hdr = [] ∨ ∃ h, d = .head ∧ d' = .body h 0 ∧ hdr = h.encode)) ∨
      takePiece d (look ++ bs) = .bad ∧ recvPass s = recvFrameError .proto (fed s).1 (fed s).2 ∨
      ∃ h off hdr raw d' look', takePiece d (look ++ bs) = .piece h off (h.mask off raw) d' look' ∧
        recvPass s = recvPiece (h.iocb (h.mask off raw)) (fed s).1 (fed s).2 ∧
        TakesPiece cfg s (fed s) rx d (look ++ bs) h off hdr raw d' look') := by
  obtain ⟨c, io⟩ := s
  obtain ⟨bs, hdel, hquiet, hsend, hcases⟩ := frameRecv_step hl.ready io
  obtain ⟨r, f, io₁, hcall⟩ : ∃ r f io₁, frameRecv c.frameCtx io = (r, f, io₁) := ⟨_, _, _, rfl⟩
  have hfed : fed (c, io) = ({ c with frameCtx := f }, io₁) := by
    unfold fed
    rw [hcall]
  rw [hcall] at hdel hquiet hsend hcases
  have hmodels : Models cfg { c with frameCtx := f } rx := hl.models.congr rfl rfl
  rw [hfed]
  refine ⟨bs, hdel, hquiet, sendHalf_frameCtx hsend, ?_⟩
  rcases hcases with ⟨hr, hasked, d', look', hp, hready⟩ | ⟨hr, hp⟩ |
    ⟨h, off, data, d', look', hp, hr, hready⟩
  · simp only at hr
    subst hr
    obtain ⟨-, hp', hdr, hlook, hwait⟩ := takePiece_wait hl.ready.ok hp
    refine Or.inl ⟨d', look', hp, recvPass_error hon hcall, hasked, hp', ⟨hready, hmodels, ?_⟩,
      hdr, hlook, hwait⟩
    rcases hwait with ⟨rfl, -⟩ | ⟨h, rfl, rfl, -⟩
    · exact hl.place
    · -- the header has been read, and the receiver is still between two frames
      have hplace := hl.place
      unfold Rx.Place at hplace ⊢
      cases hf : rx.frame with
      | none => exact Or.inr ⟨h, rfl⟩
      | some g =>
        simp only [hf] at hplace
        cases hplace
  · simp only at hr
    subst hr
    exact Or.inr (Or.inl ⟨hp, recvPass_error hon hcall⟩)
  · simp only at hr
    subst hr
    obtain ⟨hdr, raw, heq, henter, hv, rfl, hle, hempty, hafter⟩ := takePiece_piece hl.ready.ok hp
    obtain ⟨hexpects, -⟩ := hl.place.expects henter hle hempty
    have hless := hl.ready.consumes hready heq henter hv hempty
    have hpass := recvPass_ok hon hcall
    refine Or.inr (Or.inr ⟨h, off, hdr, raw, d', look', hp, hpass, heq, henter, hv, hle, hempty,
      hafter, hready, ?_, by rw [hcall], ?_⟩)
    · have hpend := congrArg List.length hdel.pending
      rw [List.length_append] at hpend
      simp only [unread] at hless hpend ⊢
      omega
    · rw [hpass]
      exact recvPiece_spec hmodels hv hexpects io₁

/-- **One pass of a context that receives.**  First `recv_callback` may deliver
some octets; then the pass waits, or finds a header malformed, or takes a piece
to the receiver. -/
theorem recvPass_cases {cfg : RxConfig} {s : EventContext × Io} {rx : Rx} {d : Dec}
    {look : List UInt8} (hl : Listens cfg s rx d look) (hon : s.1.readEnabled = true) :
    ∃ bs s₁, Delivers s.2 bs s₁.2 ∧ (s.2.Quiet → s₁.2.Quiet) ∧
      s₁.1 = { s.1 with frameCtx := s₁.1.frameCtx } ∧ s₁.1.sendHalf = s.1.sendHalf ∧
      (recvPass s = recvFrameError .wantRead s₁.1 s₁.2 ∧ Asked s.2 s₁.2 ∧
        (∃ d' look' hdr, look ++ bs = hdr ++ look' ∧
          (d' = d ∧ hdr = [] ∨ ∃ h, d = .head ∧ d' = .body h 0 ∧ hdr = h.encode) ∧
          takePiece d' look' = .wait d' look' ∧ Listens cfg s₁ rx d' look') ∨
      recvPass s = recvFrameError .proto s₁.1 s₁.2 ∧ d = .head ∧
        parseHeader (look ++ bs) = .malformed ∨
      ∃ h off hdr raw d' look', TakesPiece cfg s s₁ rx d (look ++ bs) h off hdr raw d' look') := by
  obtain ⟨bs, hdel, hquiet, hsend, ⟨d', look', -, hpass, hasked, hwait, hl', hdr, hlook, hwhere⟩ |
    ⟨hp, hpass⟩ | ⟨h, off, hdr, raw, d', look', -, -, ht⟩⟩ := recvPass_steps hl hon
  · exact ⟨bs, fed s, hdel, hquiet, rfl, hsend,
      Or.inl ⟨hpass, hasked, d', look', hdr, hlook, hwhere, hwait, hl'⟩⟩
  · obtain ⟨hd, hparse⟩ := takePiece_bad hp
    exact ⟨bs, fed s, hdel, hquiet, rfl, hsend, Or.inr (Or.inl ⟨hpass, hd, hparse⟩)⟩
  · exact ⟨bs, fed s, hdel, hquiet, rfl, hsend, Or.inr (Or.inr ⟨h, off, hdr, raw, d', look', ht⟩)⟩

/-- A reaction that goes on leaves a context that receives. -/
theorem TakesPiece.listens {cfg : RxConfig} {s s₁ s' : EventContext × Io} {rx rx' : Rx} {d d' : Dec}
    {octets hdr raw look' : List UInt8} {h : Header} {off : Nat} {calls : List Call}
    (ht : TakesPiece cfg s s₁ rx d octets h off hdr raw d' look') (hp : rx.Place d)
    (hv : (rx.piece 2 cfg h (h.mask off raw)).verdict = .more rx' ∨
      ∃ opcode msg, (rx.piece 2 cfg h (h.mask off raw)).verdict = .done opcode msg rx')
    (hw : Works s₁ s' calls) (hm : Models cfg s'.1 rx') : Listens cfg s' rx' d' look' :=
  ⟨ht.ready.congr hw.frame, hm, ht.after ▸ hp.piece ht.enters ht.fits ht.empty hv⟩

/-! ## The loop -/

/-- The frame layer and the incoming octets are as they were. -/
structure SameInput (s s' : EventContext × Io) : Prop where
  frame : s'.1.frameCtx.recvHalf = s.1.frameCtx.recvHalf
  recvs : s'.2.recvs = s.2.recvs
  received : s'.2.received = s.2.received

theorem SameInput.trans {s s' s'' : EventContext × Io} (h : SameInput s s')
    (h' : SameInput s' s'') : SameInput s s'' :=
  ⟨h'.frame.trans h.frame, h'.recvs.trans h.recvs, h'.received.trans h.received⟩

theorem Works.sameInput {s s' : EventContext × Io} {calls : List Call} (h : Works s s' calls) :
    SameInput s s' :=
  ⟨h.frame, h.recvs, h.received⟩

theorem Spares.sameInput {s s' : EventContext × Io} (h : Spares s s') : SameInput s s' := by
  have hc := h.context
  simp only [EventContext.rxPart, Prod.mk.injEq] at hc
  obtain ⟨-, -, -, -, -, -, -, h8, -⟩ := hc
  exact ⟨h8, h.recvs, h.received⟩

theorem SameInput.unread {s s' : EventContext × Io} (h : SameInput s s') :
    Wslay.unread s' = Wslay.unread s := by
  have hf := h.frame
  simp only [FrameContext.recvHalf, Prod.mk.injEq] at hf
  obtain ⟨h1, h2, -⟩ := hf
  simp only [Wslay.unread, FrameContext.avail, h1, h2, h.recvs]

theorem failWith_leave (code : Nat) (s : EventContext × Io) :
    ∃ r s', failWith code s.1 s.2 = .leave r s' ∧ Spares s s' ∧ s'.1.readEnabled = false := by
  obtain ⟨hsp, hoff⟩ := eventQueueCloseWrapper_spares s.1 (UInt16.ofNat code) [] s.2
  exact ⟨_, _, rfl, hsp, hoff⟩

/-- The automatic reply leaves the frame layer alone; when it fails reading is
over. -/
theorem recvReply_cases (opcode : Fin 16) (msg : List UInt8) (s : EventContext × Io) :
    (∃ s', recvReply opcode msg s = .again s' ∧ SameInput s s') ∨
    ∃ r s', recvReply opcode msg s = .leave r s' ∧ s'.1.readEnabled = false := by
  unfold recvReply
  split_ifs
  · obtain ⟨hsp, hoff⟩ := eventQueueCloseWrapper_spares { s.1 with
        closeStatus := { s.1.closeStatus with received := true }
        statusCodeRecv := if statusOf msg = 0 then codeNoStatusRcvd else statusOf msg }
      (UInt16.ofNat (statusOf msg)) (msg.drop 2) s.2
    unfold acceptClose
    obtain ⟨r, c', io', heq⟩ : ∃ r c' io', eventQueueCloseWrapper { s.1 with
        closeStatus := { s.1.closeStatus with received := true }
        statusCodeRecv := if statusOf msg = 0 then codeNoStatusRcvd else statusOf msg }
      (UInt16.ofNat (statusOf msg)) (msg.drop 2) s.2 = (r, c', io') := ⟨_, _, _, rfl⟩
    rw [heq] at hsp hoff
    simp only [heq]
    split_ifs
    · exact Or.inr ⟨r, _, rfl, hoff⟩
    · exact Or.inl ⟨_, rfl, ⟨hsp.sameInput.frame, hsp.sameInput.recvs, hsp.sameInput.received⟩⟩
  · have hsp := eventQueueMsg_spares s.1 ⟨pong, msg⟩ s.2
    unfold recvPing
    obtain ⟨r, c', io', heq⟩ : ∃ r c' io', eventQueueMsg s.1 ⟨pong, msg⟩ s.2 = (r, c', io') :=
      ⟨_, _, _, rfl⟩
    rw [heq] at hsp ⊢
    simp only
    split_ifs
    · exact Or.inr ⟨r, _, rfl, rfl⟩
    · exact Or.inl ⟨_, rfl, hsp.sameInput⟩
  · exact Or.inl ⟨s, rfl, rfl, rfl, rfl⟩

/-- A pass that has met a piece goes on receiving, or reading is over. -/
theorem Outcome.cases {cfg : RxConfig} {s : EventContext × Io} {x : Step (EventContext × Io) Int}
    {R : Reaction} (h : Outcome cfg s x R) :
    (∃ s' rx', x = .again s' ∧ SameInput s s' ∧ Models cfg s'.1 rx' ∧
      (R.verdict = .more rx' ∨ ∃ opcode msg, R.verdict = .done opcode msg rx')) ∨
    ∃ r s', x = .leave r s' ∧ s'.1.readEnabled = false := by
  unfold Outcome at h
  cases hv : R.verdict with
  | more rx =>
    rw [hv] at h
    obtain ⟨s', hx, hw, hm⟩ := h
    exact Or.inl ⟨s', rx, hx, hw.sameInput, hm, Or.inl rfl⟩
  | reject code =>
    rw [hv] at h
    obtain ⟨s', hx, -⟩ := h
    obtain ⟨r, s'', heq, -, hoff⟩ := failWith_leave code s'
    exact Or.inr ⟨r, s'', hx.trans heq, hoff⟩
  | overflow =>
    rw [hv] at h
    obtain ⟨s', hx, -⟩ := h
    exact Or.inr ⟨_, _, hx, rfl⟩
  | done opcode msg rx =>
    rw [hv] at h
    obtain ⟨s₁, hw, hrest⟩ := h
    rcases recvReply_cases opcode msg s₁ with ⟨s₂, heq, hsame⟩ | ⟨r, s₂, heq, hoff⟩
    · rw [heq] at hrest
      obtain ⟨s', hx, hw', hm⟩ := hrest
      exact Or.inl ⟨s', rx, hx, (hw.sameInput.trans hsame).trans hw'.sameInput, hm,
        Or.inr ⟨opcode, msg, rfl⟩⟩
    · rw [heq] at hrest
      exact Or.inr ⟨r, s₂, hrest, hoff⟩

/-- Whenever reading is enabled, the context receives. -/
def Hears (cfg : RxConfig) (s : EventContext × Io) : Prop :=
  s.1.readEnabled = true → ∃ rx d look, Listens cfg s rx d look

theorem Hears.of_off {cfg : RxConfig} {s : EventContext × Io} (hoff : s.1.readEnabled = false) :
    Hears cfg s := by
  intro he
  rw [hoff] at he
  cases he

theorem recvFrameError_state (e : Err) (c : EventContext) (io : Io) :
    ∃ r s', recvFrameError e c io = .leave r s' ∧ Spares (c, io) s' ∧
      (s' = (c, io) ∨ s'.1.readEnabled = false) := by
  unfold recvFrameError
  split_ifs
  · obtain ⟨hsp, hoff⟩ := eventQueueCloseWrapper_spares c 0 [] io
    obtain ⟨r, c', io', heq⟩ : ∃ r c' io', eventQueueCloseWrapper c 0 [] io = (r, c', io') :=
      ⟨_, _, _, rfl⟩
    rw [heq] at hoff hsp ⊢
    simp only
    split_ifs <;> exact ⟨_, _, rfl, hsp, Or.inr hoff⟩
  · exact ⟨_, _, rfl, .refl _, Or.inl rfl⟩

/-- **A pass**: it leaves the loop, or it has used up an octet. -/
theorem recvPass_hears {cfg : RxConfig} {s : EventContext × Io} (hs : Hears cfg s) :
    (recvPass s).All (Hears cfg) ∧ ∀ s', recvPass s = .again s' → unread s' < unread s := by
  cases hon : s.1.readEnabled with
  | false =>
    have hstay : recvPass s = .leave 0 s := by
      unfold recvPass
      simp [hon]
    rw [hstay]
    exact ⟨hs, fun s' h => by cases h⟩
  | true =>
    obtain ⟨rx, d, look, hl⟩ := hs hon
    obtain ⟨bs, s₁, -, -, -, -, ⟨heq, -, d', look', hdr, -, -, -, hl'⟩ | ⟨heq, -, -⟩ |
      ⟨h, off, hdr, raw, d', look', ht⟩⟩ := recvPass_cases hl hon
    · obtain ⟨r, s', heq', -, hstate⟩ := recvFrameError_state .wantRead s₁.1 s₁.2
      rw [heq, heq']
      refine ⟨fun he => ?_, fun s'' h => by cases h⟩
      rcases hstate with rfl | hoff
      · exact ⟨rx, d', look', hl'⟩
      · rw [hoff] at he
        cases he
    · obtain ⟨r, s', heq', -⟩ := recvFrameError_state .proto s₁.1 s₁.2
      have hoff : s'.1.readEnabled = false := by
        have hw := (eventQueueCloseWrapper_spares s₁.1 0 [] s₁.2).2
        unfold recvFrameError at heq'
        rw [if_pos (Or.inl (by decide))] at heq'
        obtain ⟨r', c', io', hq⟩ : ∃ r' c' io', eventQueueCloseWrapper s₁.1 0 [] s₁.2 =
            (r', c', io') := ⟨_, _, _, rfl⟩
        rw [hq] at hw heq'
        simp only at heq' hw
        split_ifs at heq' <;> cases heq' <;> exact hw
      rw [heq, heq']
      exact ⟨.of_off hoff, fun s'' h => by cases h⟩
    · rcases ht.outcome with ⟨-, r, s', heq, -, hoff, -⟩ | hout
      · rw [heq]
        exact ⟨.of_off hoff, fun s'' h => by cases h⟩
      · rcases hout.cases with ⟨s', rx', heq, hsame, hm, hv⟩ | ⟨r, s', heq, hoff⟩
        · rw [heq]
          refine ⟨fun _ => ⟨rx', d', look', ht.ready.congr hsame.frame, hm,
            ht.after ▸ hl.place.piece ht.enters ht.fits ht.empty hv⟩, fun s'' h => ?_⟩
          cases h
          rw [hsame.unread]
          exact ht.fewer
        · rw [heq]
          exact ⟨.of_off hoff, fun s'' h => by cases h⟩

/-- **The loop of `wslay_event_recv` comes to an end.** -/
theorem eventRecv_isSome {cfg : RxConfig} {s : EventContext × Io} (hs : Hears cfg s) :
    (Loop.run recvPass (recvFuel s.1 s.2) s).isSome := by
  refine Loop.run_isSome (P := Hears cfg) (μ := unread) (fun s t hs heq => ?_) hs ?_
  · obtain ⟨hall, hless⟩ := recvPass_hears hs
    rw [heq] at hall
    exact ⟨hall, hless t heq⟩
  · unfold recvFuel unread
    omega

theorem eventRecv_run {cfg : RxConfig} {s : EventContext × Io} (hs : Hears cfg s) :
    Loop.run recvPass (recvFuel s.1 s.2) s = some (eventRecv s.1 s.2) := by
  obtain ⟨x, hx⟩ := Option.isSome_iff_exists.1 (eventRecv_isSome hs)
  rw [eventRecv, hx]
  rfl

/-! ## Runs -/

theorem Hears.spares {cfg : RxConfig} {s s' : EventContext × Io} (hs : Hears cfg s)
    (hsp : Spares s s') : Hears cfg s' := by
  intro he
  obtain ⟨rx, d, look, hl⟩ := hs (hsp.enabled he)
  exact ⟨rx, d, look, hl.spares hsp⟩

theorem eventRecv_hears {cfg : RxConfig} {s : EventContext × Io} (hs : Hears cfg s) :
    Hears cfg (eventRecv s.1 s.2).2 :=
  Loop.run_inv (fun _ ht => (recvPass_hears ht).1) hs (eventRecv_run hs)

/-- **In every run the context represents a receiver as long as reading is enabled.** -/
theorem runOps_hears {cfg : RxConfig} {s : EventContext × Io} (hs : Hears cfg s) (ops : List Op) :
    Hears cfg (runOps s ops) := by
  have hstep : ∀ (t : EventContext × Io) (op : Op), True → Hears cfg t →
      Hears cfg (step t op).2 := by
    intro t op _ ht
    cases op with
    | call a => exact ht.spares (appCall_spares t.1 t.2 a)
    | recv => exact eventRecv_hears ht
  exact runOps_inv hstep (fun _ _ => trivial) hs

/-- The settings that the receiver of a new context goes by. -/
def RxConfig.of (server : Bool) (callbacks : EventCallbacks) (noBuffering : Bool)
    (maxRecvMsgLength : Nat) : RxConfig :=
  ⟨server, noBuffering, maxRecvMsgLength, callbacks.onMsgRecv⟩

/-- **A new context represents a receiver that has begun nothing.** -/
theorem configured_listens (server : Bool) (callbacks : EventCallbacks) (noBuffering : Bool)
    (maxRecvMsgLength : Nat) (io : Io) :
    Listens (.of server callbacks noBuffering maxRecvMsgLength)
      (configured server callbacks noBuffering maxRecvMsgLength, io) .fresh .head [] :=
  ⟨ready_new, ⟨⟨rfl, rfl, rfl, rfl, rfl⟩, rfl, ⟨rfl, rfl, rfl⟩, rfl, rfl, rfl, rfl, rfl⟩, Or.inl rfl⟩

theorem configured_hears (server : Bool) (callbacks : EventCallbacks) (noBuffering : Bool)
    (maxRecvMsgLength : Nat) (io : Io) :
    Hears (.of server callbacks noBuffering maxRecvMsgLength)
      (configured server callbacks noBuffering maxRecvMsgLength, io) :=
  fun _ => ⟨_, _, _, configured_listens server callbacks noBuffering maxRecvMsgLength io⟩

end Wslay
