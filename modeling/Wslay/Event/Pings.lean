import Wslay.Event.Fronts
import Wslay.Event.Protocol

/-!
# Every Ping is answered once

A Ping may come between two frames of a message.  Its octets come in as many
pieces as the stream is cut into, and between them the application may call the
library; the message it interrupts waits in the first slot.

* `EventImsg.contents` — what is known of a message that waits.
* `pingRx` — the receiver inside a Ping.
* `InPing` — the invariant of a context that receives one.
* `EndsFrame`, `Meanwhile` — the time until the Ping is complete.
* `ping_answered_once` — the result.
-/

namespace Wslay

open Loop (Step)

/-! ## The message that waits -/

/-- The opcode, `fin`, `utf8state`, `msg_length` and the octets stored of a message. -/
def EventImsg.contents (m : EventImsg) : UInt8 × UInt8 × Nat × Nat × List UInt8 :=
  (m.opcode, m.fin, m.utf8state, m.msgLength, m.chunks.cells.flatMap ByteChunk.data)

/-- The state of the automaton is told by what it waits for. -/
theorem Waits.unique {st st' : Nat} {rs : List Utf8.Range} (h : Waits st rs) (h' : Waits st' rs) :
    st = st' := by
  have hall : ∀ p ∈ utf8States, ∀ p' ∈ utf8States, p.2 = p'.2 → p.1 = p'.1 := by decide
  exact hall _ h _ h' rfl

/-- What waits in a slot is told by its draft. -/
theorem Suspended.contents {cfg : RxConfig} {m m' : EventImsg} {k : Draft}
    (h : Suspended cfg m k) (h' : Suspended cfg m' k) : m'.contents = m.contents := by
  unfold EventImsg.contents
  rw [h.opcode, h'.opcode, h.fin, h'.fin, h.text.unique h'.text, h.length, h'.length,
    h.stored.body, h'.stored.body]

/-! ## The receiver inside a Ping -/

/-- The frame is a Ping that a receiver lets in. -/
structure PingFrame (cfg : RxConfig) (f : Frame) : Prop where
  opcode : f.opcode = 9
  valid : f.header.Valid
  rsv : f.rsv = 0
  key : f.key.isSome = cfg.server
  fits : f.payload.length ≤ cfg.limit

/-- Of the Ping `f`, `off` octets have come. -/
def pingProgress (f : Frame) (off : Nat) : Progress :=
  ⟨f.header, off, ⟨9, f.payload.take off, f.payload.length, []⟩⟩

/-- The receiver, when `off` octets of the Ping `f` have come and `waiting` is the
message that it interrupts. -/
def pingRx (waiting : Option Draft) (f : Frame) (off : Nat) : Rx :=
  ⟨waiting, if off = 0 then none else some (pingProgress f off)⟩

section

variable {cfg : RxConfig} {f : Frame} {waiting : Option Draft}

theorem PingFrame.ctrl (hf : PingFrame cfg f) : f.fin = true ∧ f.payload.length ≤ 125 := by
  have h8 : f.header.isCtrl = true := by
    rw [Header.isCtrl, decide_eq_true_eq]
    change 8 ≤ f.opcode.val
    rw [hf.opcode]
    decide
  exact hf.valid.2 h8

/-- A Ping is let in, wherever it comes. -/
theorem PingFrame.admits (hf : PingFrame cfg f) :
    Rx.admits cfg waiting f.header = .ok (pingProgress f 0, waiting) := by
  have hlen := hf.ctrl.2
  have hbelongs : belongs waiting f.header.opcode = some (.start 9, waiting) := by
    change belongs waiting f.opcode = _
    rw [hf.opcode]
    cases waiting <;> rfl
  have hmod : (0 + f.payload.length) % 2 ^ 64 = f.payload.length := by
    rw [Nat.zero_add, Nat.mod_eq_of_lt (by omega)]
  have hbits : ¬ (f.header.rsv ≠ 0 ∨ f.header.key.isSome ≠ cfg.server) := by
    rw [not_or, not_not, not_not]
    exact ⟨hf.rsv, hf.key⟩
  unfold Rx.admits
  rw [if_neg hbits, hbelongs]
  change (if cfg.limit < (0 + f.payload.length) % 2 ^ 64 then _ else _) = _
  rw [hmod, if_neg (Nat.not_lt.2 hf.fits)]
  have hbuf : cfg.buffers f.header.opcode = true := by
    refine cfg.buffers_ctrl ?_
    change 8 ≤ f.opcode.val
    rw [hf.opcode]
    decide
  rw [Draft.extend, if_pos hbuf]
  change Except.ok ((⟨f.header, 0, ⟨9, [], (0 + f.payload.length) % 2 ^ 64, []⟩⟩ : Progress),
    waiting) = _
  rw [hmod]
  rfl

/-- The frame that a piece of the Ping belongs to. -/
theorem PingFrame.enter (hf : PingFrame cfg f) (waiting : Option Draft) (off : Nat) :
    ∃ calls, (pingRx waiting f off).enter cfg f.header = .ok (calls, pingProgress f off, waiting) := by
  unfold Rx.enter pingRx
  by_cases h0 : off = 0
  · simp only [h0, if_true, hf.admits]
    exact ⟨_, rfl⟩
  · simp only [h0, if_false]
    exact ⟨_, rfl⟩

/-- **A piece of the Ping**: it goes on, or it is complete. -/
theorem PingFrame.piece (hf : PingFrame cfg f) (waiting : Option Draft) {off : Nat}
    {data : List UInt8}
    (hdata : f.payload.take off ++ data = f.payload.take (off + data.length))
    (hempty : data = [] → f.payload.length = off) :
    ((pingRx waiting f off).piece 2 cfg f.header data).verdict =
      if off + data.length = f.payload.length then .done 9 f.payload ⟨waiting, none⟩
      else .more (pingRx waiting f (off + data.length)) := by
  obtain ⟨calls, he⟩ := hf.enter waiting off
  have hbuf : cfg.buffers (pingProgress f off).header.opcode = true := by
    refine cfg.buffers_ctrl ?_
    change 8 ≤ f.opcode.val
    rw [hf.opcode]
    decide
  have hadv : (pingProgress f off).advance cfg data [] = pingProgress f (off + data.length) := by
    unfold Progress.advance
    rw [if_pos hbuf]
    change (⟨f.header, off + data.length, ⟨9, f.payload.take off ++ data, f.payload.length, []⟩⟩ :
      Progress) = _
    rw [hdata]
    rfl
  rw [Rx.piece_ok he]
  change ((pingProgress f off).piece 2 cfg waiting data).verdict = _
  rcases (pingProgress f off).piece_cases 2 cfg waiting data with ⟨hscan, -⟩ |
    ⟨text, hscan, ⟨hend, hp⟩ | ⟨hnot, hp⟩⟩
  · cases hscan
  · -- the Ping is complete
    cases hscan
    have hfull : off + data.length = f.payload.length := hend
    have hverdict : (pingProgress f f.payload.length).draft.verdict cfg waiting =
        .done 9 f.payload ⟨waiting, none⟩ := by
      have hgather : (pingProgress f f.payload.length).draft.gather = some f.payload := by
        change (if f.payload.length = 0 then some [] else if (f.payload.take f.payload.length).length
          = f.payload.length then some (f.payload.take f.payload.length) else none) = _
        rw [List.take_length, if_pos rfl]
        by_cases h0 : f.payload.length = 0
        · rw [if_pos h0, List.length_eq_zero_iff.1 h0]
        · rw [if_neg h0]
      unfold Draft.verdict
      rw [if_pos (by simp [pingProgress]), hgather]
      rfl
    rw [hp, if_pos hfull]
    change (((pingProgress f off).advance cfg data []).finish cfg waiting).verdict = _
    rw [hadv, hfull]
    rcases (pingProgress f f.payload.length).finish_cases cfg waiting with hF | ⟨-, hF⟩ | ⟨hF, -⟩
    · have hno : ¬ ((pingProgress f f.payload.length).header.fin = true ∧
          ((pingProgress f f.payload.length).draft.opcode = 1 ∨
            (pingProgress f f.payload.length).draft.opcode = 8) ∧
          (pingProgress f f.payload.length).draft.text ≠ []) := by
        rintro ⟨-, -, h⟩
        exact h rfl
      unfold Progress.finish at hF
      rw [if_neg hno] at hF
      cases hF
    · rw [hF]
      exact hverdict
    · exact absurd (hf.ctrl.1.symm.trans hF) (by decide)
  · -- some payload is missing
    cases hscan
    have hshort : off + data.length ≠ f.payload.length := hnot
    have hpos : off + data.length ≠ 0 := by
      intro h0
      have hnil : data = [] := List.length_eq_zero_iff.1 (by omega)
      have := hempty hnil
      omega
    rw [hp, if_neg hshort]
    change Verdict.more ⟨waiting, some ((pingProgress f off).advance cfg data [])⟩ = _
    rw [hadv, pingRx, if_neg hpos]

end

/-! ## One pass -/

/-- A piece is the next part of the payload. -/
theorem Frame.payload_piece (f : Frame) {off : Nat} {raw more rest : List UInt8}
    (hle : off + raw.length ≤ f.payload.length)
    (heq : raw ++ more = f.header.mask off (f.payload.drop off) ++ rest) :
    f.payload.take off ++ f.header.mask off raw = f.payload.take (off + raw.length) ∧
      more = f.header.mask (off + raw.length) (f.payload.drop (off + raw.length)) ++ rest := by
  have hlen : ((f.payload.drop off).take raw.length).length = raw.length := by
    rw [List.length_take, List.length_drop]
    omega
  have hsplit : f.header.mask off (f.payload.drop off) =
      f.header.mask off ((f.payload.drop off).take raw.length) ++
        f.header.mask (off + raw.length) (f.payload.drop (off + raw.length)) := by
    rw [← List.drop_drop]
    conv_lhs => rw [← List.take_append_drop raw.length (f.payload.drop off)]
    rw [Header.mask_append, hlen]
  rw [hsplit, List.append_assoc] at heq
  obtain ⟨hraw, hmore⟩ := List.append_inj heq (by rw [Header.length_mask, hlen])
  refine ⟨?_, hmore⟩
  rw [hraw, Header.mask_mask, Header.length_mask, hlen, List.take_add]

/-- The Ping `f`, of which `off` octets have come, is how the octets `stream` behind `d`
go on, and then `rest`. -/
def Frame.GoesOn (f : Frame) (rest : List UInt8) (off : Nat) (d : Dec) (stream : List UInt8) : Prop :=
  match d with
  | .head => off = 0 ∧ stream = f.encode ++ rest
  | .body h o => h = f.header ∧ o = off ∧
      stream = f.header.mask off (f.payload.drop off) ++ rest

/-- **The context receives the Ping `f`**, of which `off` octets have come; behind it
the stream goes on with `rest`. -/
structure InPing (cfg : RxConfig) (f : Frame) (rest : List UInt8) (waiting : Option Draft)
    (t : EventContext × Io) (d : Dec) (look : List UInt8) (off : Nat) : Prop where
  listens : Listens cfg t (pingRx waiting f off) d look
  sound : (pingRx waiting f off).Sound cfg
  stream : f.GoesOn rest off d (look ++ pendingOctets t.2.recvs)

section

variable {cfg : RxConfig} {f : Frame} {rest look : List UInt8} {waiting : Option Draft}
  {s t : EventContext × Io} {d : Dec} {off : Nat} {q : Bool}

/-- The context waits for more of the Ping. -/
theorem InPing.waits (hf : PingFrame cfg f) (hp : InPing cfg f rest waiting t d look off)
    {bs hdr look' : List UInt8} {d' : Dec} (hdel : Delivers t.2 bs (fed t).2)
    (hl : Listens cfg (fed t) (pingRx waiting f off) d' look') (hlook : look ++ bs = hdr ++ look')
    (hwhere : d' = d ∧ hdr = [] ∨ ∃ h, d = .head ∧ d' = .body h 0 ∧ hdr = h.encode) :
    InPing cfg f rest waiting (fed t) d' look' off ∧
      (look' ++ pendingOctets (fed t).2.recvs).length ≤
        (look ++ pendingOctets t.2.recvs).length := by
  have hall : look ++ pendingOctets t.2.recvs = hdr ++ (look' ++ pendingOctets (fed t).2.recvs) := by
    rw [hdel.pending, ← List.append_assoc, hlook, List.append_assoc]
  have hstream := hp.stream
  refine ⟨⟨hl, hp.sound, ?_⟩, ?_⟩
  · rcases hwhere with ⟨rfl, rfl⟩ | ⟨h, rfl, rfl, rfl⟩
    · rw [hall, List.nil_append] at hstream
      exact hstream
    · obtain ⟨rfl, hstream⟩ := hstream
      rw [hall] at hstream
      obtain ⟨hh, hbody⟩ := encode_front hl.ready.ok.1 hf.valid hstream
      exact ⟨hh.symm, rfl, hbody⟩
  · simp only [hall, List.length_append]
    omega

/-- The header of the Ping is not malformed. -/
theorem InPing.readable (hf : PingFrame cfg f) (hp : InPing cfg f rest waiting t d look off)
    {bs : List UInt8} (hdel : Delivers t.2 bs (fed t).2) : takePiece d (look ++ bs) ≠ .bad := by
  intro hbad
  obtain ⟨rfl, hparse⟩ := takePiece_bad hbad
  have hstream := hp.stream.2
  rw [hdel.pending, ← List.append_assoc] at hstream
  have hmal := parseHeader_malformed_append hparse (pendingOctets (fed t).2.recvs)
  rw [hstream, Frame.encode, List.append_assoc, parseHeader_encode hf.valid] at hmal
  cases hmal

section

variable {bs hdr raw look' : List UInt8} {d' : Dec} {h : Header} {o : Nat}

/-- The piece that is read next is a part of the Ping. -/
theorem InPing.part (hf : PingFrame cfg f) (hp : InPing cfg f rest waiting t d look off)
    (hdel : Delivers t.2 bs (fed t).2)
    (ht : TakesPiece cfg t (fed t) (pingRx waiting f off) d (look ++ bs) h o hdr raw d' look') :
    h = f.header ∧ o = off ∧
      raw ++ (look' ++ pendingOctets (fed t).2.recvs) =
        f.header.mask off (f.payload.drop off) ++ rest ∧
      (look' ++ pendingOctets (fed t).2.recvs).length <
        (look ++ pendingOctets t.2.recvs).length := by
  have hall : look ++ pendingOctets t.2.recvs =
      hdr ++ (raw ++ (look' ++ pendingOctets (fed t).2.recvs)) := by
    rw [hdel.pending, ← List.append_assoc, ht.octets]
    simp only [List.append_assoc]
  obtain ⟨rfl, rfl, hbody, hhdr⟩ : h = f.header ∧ o = off ∧
      raw ++ (look' ++ pendingOctets (fed t).2.recvs) =
        f.header.mask off (f.payload.drop off) ++ rest ∧ (raw = [] → hdr ≠ []) := by
    have hstream := hp.stream
    rcases ht.enters with ⟨rfl, rfl, rfl⟩ | ⟨rfl, rfl⟩
    · obtain ⟨rfl, hstream⟩ := hstream
      rw [hall] at hstream
      obtain ⟨hh, hrest⟩ := encode_front ht.valid hf.valid hstream
      refine ⟨hh.symm, rfl, hrest, fun _ => ?_⟩
      rw [Header.encode, List.cons_append]
      exact List.cons_ne_nil _ _
    · obtain ⟨rfl, rfl, hstream⟩ := hstream
      rw [hall, List.nil_append] at hstream
      refine ⟨rfl, rfl, hstream, fun hnil => ?_⟩
      have hok := hp.listens.ready.ok.2
      have := ht.empty hnil
      omega
  refine ⟨rfl, rfl, hbody, ?_⟩
  rw [hall]
  simp only [List.length_append]
  by_cases hraw : raw = []
  · have := List.length_pos_of_ne_nil (hhdr hraw)
    omega
  · have := List.length_pos_of_ne_nil hraw
    omega

/-- The verdict on that piece, and what is behind it. -/
theorem InPing.verdict (hf : PingFrame cfg f)
    (ht : TakesPiece cfg t (fed t) (pingRx waiting f off) d (look ++ bs) f.header off hdr raw d'
      look')
    (hbody : raw ++ (look' ++ pendingOctets (fed t).2.recvs) =
      f.header.mask off (f.payload.drop off) ++ rest) :
    ((pingRx waiting f off).piece 2 cfg f.header (f.header.mask off raw)).verdict =
        (if off + raw.length = f.payload.length then .done 9 f.payload ⟨waiting, none⟩
        else .more (pingRx waiting f (off + raw.length))) ∧
      look' ++ pendingOctets (fed t).2.recvs =
        f.header.mask (off + raw.length) (f.payload.drop (off + raw.length)) ++ rest := by
  obtain ⟨hdata, hmore⟩ := f.payload_piece ht.fits hbody
  have hlen : (f.header.mask off raw).length = raw.length := Header.length_mask ..
  rw [← hlen] at hdata
  have hpiece := hf.piece waiting hdata fun hnil =>
    ht.empty ((Header.mask_eq_nil_iff f.header off raw).1 hnil)
  rw [hlen] at hpiece
  exact ⟨hpiece, hmore⟩

/-- The piece completes the Ping. -/
theorem InPing.whole {u : EventContext × Io}
    (ht : TakesPiece cfg t (fed t) (pingRx waiting f off) d (look ++ bs) f.header off hdr raw d'
      look')
    (hend : off + raw.length = f.payload.length) (hin : SameInput (fed t) u)
    (hmodels : Models cfg u.1 ⟨waiting, none⟩)
    (hmore : look' ++ pendingOctets (fed t).2.recvs =
      f.header.mask (off + raw.length) (f.payload.drop (off + raw.length)) ++ rest) :
    Listens cfg u ⟨waiting, none⟩ .head look' ∧
      (u.1.frameCtx.istate = .recvHeader1 ∨ u.1.frameCtx.istate = .recvPayload) ∧
      look' ++ pendingOctets u.2.recvs = rest := by
  have hhead : d' = .head := by
    rw [ht.after, Dec.after, if_pos (show f.header.length = _ from hend.symm)]
  have hready := ht.ready.congr hin.frame
  rw [hhead] at hready
  refine ⟨⟨hready, hmodels, Or.inl rfl⟩, ?_, ?_⟩
  · have hok := ht.given
    obtain ⟨r, c, io, hcall⟩ : ∃ r c io, frameRecv t.1.frameCtx t.2 = (r, c, io) := ⟨_, _, _, rfl⟩
    have hstate := hin.frame
    simp only [fed, hcall, FrameContext.recvHalf, Prod.mk.injEq] at hstate
    rw [hcall] at hok
    rw [hstate.2.2.2.2.2.2.2.1]
    exact frameRecv_istate (hcall.trans (congrArg (·, c, io) hok))
  · rw [hin.recvs, hmore, hend, List.drop_length, Header.mask_nil, List.nil_append]

/-- Behind the piece some payload is missing. -/
theorem InPing.next {u : EventContext × Io} (hp : InPing cfg f rest waiting t d look off)
    (ht : TakesPiece cfg t (fed t) (pingRx waiting f off) d (look ++ bs) f.header off hdr raw d'
      look')
    (hend : off + raw.length ≠ f.payload.length)
    (hv : ((pingRx waiting f off).piece 2 cfg f.header (f.header.mask off raw)).verdict =
      .more (pingRx waiting f (off + raw.length)))
    (hin : SameInput (fed t) u) (hmodels : Models cfg u.1 (pingRx waiting f (off + raw.length)))
    (hmore : look' ++ pendingOctets (fed t).2.recvs =
      f.header.mask (off + raw.length) (f.payload.drop (off + raw.length)) ++ rest) :
    off + raw.length ≠ 0 ∧ off + raw.length < f.payload.length ∧
      InPing cfg f rest waiting u d' look' (off + raw.length) := by
  have hlen : f.header.length = f.payload.length := rfl
  have hfits := ht.fits
  have hbody : d' = .body f.header (off + raw.length) := by
    rw [ht.after, Dec.after, if_neg fun h => hend h.symm]
  have hplace := hp.listens.place.piece ht.enters ht.fits ht.empty (Or.inl hv)
  rw [← ht.after] at hplace
  have hsound := hp.listens.place.sound hp.sound ht.enters ht.valid ht.fits 2
  rw [hv] at hsound
  refine ⟨fun h0 => ?_, by omega, ⟨ht.ready.congr hin.frame, hmodels, hplace⟩, hsound, ?_⟩
  · have hnil : raw = [] := List.length_eq_zero_iff.1 (by omega)
    have := ht.empty hnil
    omega
  · rw [hbody, hin.recvs]
    exact ⟨rfl, rfl, hmore⟩

end

/-- **A pass of a context that receives a Ping**: it waits, it takes a part of the
payload, or it completes the Ping. -/
theorem InPing.pass (hf : PingFrame cfg f) (hp : InPing cfg f rest waiting t d look off)
    (hon : t.1.readEnabled = true) (happs : t.2.apps = []) (hmem : t.2.MemOk)
    (hq : eventIsMsgQueueable t.1 = q) :
    (recvPass t = recvFrameError .wantRead (fed t).1 (fed t).2 ∧ Asked t.2 (fed t).2 ∧
      (t.2.Quiet → (fed t).2.Quiet) ∧ Follows t (fed t) (.start (pingRx waiting f off)) ∧
      (fed t).2.recvs.length ≤ t.2.recvs.length ∧
      ∃ d' look', InPing cfg f rest waiting (fed t) d' look' off ∧
        takePiece d' look' = .wait d' look' ∧
        (look' ++ pendingOctets (fed t).2.recvs).length ≤
          (look ++ pendingOctets t.2.recvs).length) ∨
    (∃ u d' look' calls n, recvPass t = .again u ∧ off + n ≠ 0 ∧ off + n < f.payload.length ∧
      Follows t u ⟨calls, [], .live (pingRx waiting f (off + n))⟩ ∧
      u.2.recvs.length ≤ t.2.recvs.length ∧ InPing cfg f rest waiting u d' look' (off + n) ∧
      (look' ++ pendingOctets u.2.recvs).length < (look ++ pendingOctets t.2.recvs).length) ∨
    ∃ u look' calls, recvPass t = .again u ∧
      Follows t u ⟨calls, if q then [.pong f.payload] else [], .live ⟨waiting, none⟩⟩ ∧
      Listens cfg u ⟨waiting, none⟩ .head look' ∧
      (u.1.frameCtx.istate = .recvHeader1 ∨ u.1.frameCtx.istate = .recvPayload) ∧
      look' ++ pendingOctets u.2.recvs = rest := by
  obtain ⟨bs, hdel, hquiet, hsend, ⟨d', look', -, hpass, hasked, hwait, hl, hdr, hlook, hwhere⟩ |
    ⟨hbad, -⟩ | ⟨h, o, hdr, raw, d', look', -, -, ht⟩⟩ := recvPass_steps hp.listens hon
  · obtain ⟨hin, hle⟩ := hp.waits hf hdel hl hlook hwhere
    exact Or.inl ⟨hpass, hasked, hquiet, hdel.follows hquiet hsend _, hdel.fewer, d', look', hin,
      hwait, hle⟩
  · exact absurd hbad (hp.readable hf hdel)
  · right
    obtain ⟨rfl, rfl, hbody, hless⟩ := hp.part hf hdel ht
    obtain ⟨hverdict, hmore⟩ := InPing.verdict hf ht hbody
    obtain ⟨u, hfol, hin, hfate⟩ := ht.follows hdel hquiet hsend hp.listens.place hp.sound happs
      hmem hq
    obtain ⟨R, hR⟩ : ∃ R, R = (pingRx waiting f o).piece 2 cfg f.header (f.header.mask o raw) :=
      ⟨_, rfl⟩
    rw [← hR] at hverdict hfate hfol
    obtain ⟨calls, verdict⟩ := R
    simp only at hverdict
    by_cases hend : o + raw.length = f.payload.length
    · -- the Ping is complete
      right
      rw [if_pos hend] at hverdict
      subst hverdict
      have hreplies : (if (9 : Fin 16) = 9 ∧ q = true then [Reply.pong f.payload] else []) =
          if q then [.pong f.payload] else [] := by simp
      have hreport : Reaction.report q ⟨calls, .done 9 f.payload ⟨waiting, none⟩⟩ =
          ⟨calls ++ [msgCall 9 f.payload], if q then [.pong f.payload] else [],
            .live ⟨waiting, none⟩⟩ := by
        unfold Reaction.report
        rw [← hreplies]
        exact if_neg (by decide)
      rw [hreport] at hfol hfate
      obtain ⟨hagain, hmodels⟩ := hfate
      exact ⟨u, look', _, hagain, hfol, InPing.whole ht hend hin hmodels hmore⟩
    · -- some payload is missing
      left
      rw [if_neg hend] at hverdict
      subst hverdict
      obtain ⟨hagain, hmodels⟩ := hfate
      obtain ⟨hpos, hlt, hnext⟩ := hp.next ht hend (by rw [← hR]) hin hmodels hmore
      rw [← hin.recvs] at hless
      exact ⟨u, d', look', calls, raw.length, hagain, hpos, hlt, hfol,
        hin.recvs ▸ hdel.fewer, hnext, hless⟩

/-- Only a Ping that is complete is answered with a Pong. -/
theorem Reaction.pong_mem {R : Reaction} {msg : List UInt8}
    (hm : Reply.pong msg ∈ (R.report q).replies) : ∃ rx, R.verdict = .done 9 msg rx := by
  unfold Reaction.report at hm
  cases hv : R.verdict with
  | more rx => simp [hv] at hm
  | reject code =>
    simp only [hv] at hm
    split_ifs at hm <;> simp at hm
  | overflow => simp [hv] at hm
  | done opcode body rx =>
    simp only [hv] at hm
    split_ifs at hm with h8 hq h9
    · simp at hm
    · simp at hm
    · simp only [List.mem_singleton, Reply.pong.injEq] at hm
      rw [h9.1, hm]
      exact ⟨rx, rfl⟩
    · simp at hm

/-- The message that is complete with a piece is the one that the piece belongs to. -/
theorem Progress.piece_done {p : Progress} {skip : Nat} {data msg : List UInt8} {opcode : Fin 16}
    {rx : Rx} (h : (p.piece skip cfg waiting data).verdict = .done opcode msg rx) :
    p.draft.opcode = opcode := by
  rcases p.piece_cases skip cfg waiting data with ⟨-, hp⟩ | ⟨text, -, ⟨-, hp⟩ | ⟨-, hp⟩⟩ <;>
    rw [hp] at h
  · cases h
  · rcases (p.advance cfg data text).finish_cases cfg waiting with hF | ⟨-, hF⟩ | ⟨-, hF⟩ <;>
      rw [hF] at h
    · cases h
    · exact (Draft.verdict_done h).1.symm
    · cases h
  · cases h

/-- A failure of the frame layer is answered with a Close at most. -/
theorem recvFrameError_answer (e : Err) {s : EventContext × Io} (hmem : s.2.MemOk) :
    ∃ replies : List Reply,
      (recvFrameError e s.1 s.2).state.1.sendCtrlQueue =
        s.1.sendCtrlQueue ++ replies.map Reply.omsg ∧ ∀ msg, Reply.pong msg ∉ replies := by
  have hshort : ([] : List UInt8).length ≤ 123 := Nat.zero_le 123
  obtain ⟨s', heq, -, hf⟩ := eventQueueCloseWrapper_follows (s := s) rfl hmem 0 hshort 0
  change eventQueueCloseWrapper s.1 0 [] s.2 = _ at heq
  have hqueue := hf.queues.2
  unfold recvFrameError
  by_cases hfail : e ≠ .wantRead ∨ (s.2.error ≠ Err.wouldblock.code ∧ s.2.error ≠ 0)
  · refine ⟨if eventIsMsgQueueable s.1 then [.close 0 []] else [], ?_, fun msg hm => ?_⟩
    · rw [if_pos hfail, heq]
      dsimp only
      split_ifs at hqueue ⊢ <;> exact hqueue
    · split_ifs at hm <;> simp at hm
  · rw [if_neg hfail]
    exact ⟨[], (List.append_nil _).symm, fun msg hm => (by cases hm)⟩

/-- **Only a Ping is answered with a Pong.** -/
theorem Tells.pongs {callbacks : EventCallbacks} {rx : Rx} {hs : List Header} {acc new : List UInt8}
    {T : List Call} (ht : Tells cfg callbacks t rx d look hs acc new T)
    (hon : t.1.readEnabled = true) (happs : t.2.apps = []) (hmem : t.2.MemOk) :
    ∃ replies : List Reply,
      (recvPass t).state.1.sendCtrlQueue = t.1.sendCtrlQueue ++ replies.map Reply.omsg ∧
      ∀ msg, Reply.pong msg ∈ replies →
        ∃ iocb, (frameRecv t.1.frameCtx t.2).1 = .ok iocb ∧ iocb.opcode = ping := by
  obtain ⟨bs, hdel, hquiet, hsend, hcases⟩ := recvPass_steps ht.listens hon
  have herror : ∀ e, recvPass t = recvFrameError e (fed t).1 (fed t).2 →
      ∃ replies : List Reply,
        (recvPass t).state.1.sendCtrlQueue = t.1.sendCtrlQueue ++ replies.map Reply.omsg ∧
        ∀ msg, Reply.pong msg ∈ replies →
          ∃ iocb, (frameRecv t.1.frameCtx t.2).1 = .ok iocb ∧ iocb.opcode = ping := by
    intro e hpass
    have hf₁ : Follows t (fed t) (.start .fresh) := hdel.follows hquiet hsend .fresh
    obtain ⟨replies, hqueue, hno⟩ := recvFrameError_answer e fun h => hmem (hf₁.mem.subset h)
    refine ⟨replies, ?_, fun msg hm => absurd hm (hno msg)⟩
    rw [hpass, hqueue]
    rfl
  rcases hcases with ⟨-, -, -, hpass, -⟩ | ⟨-, hpass⟩ | ⟨h, off, hdr, raw, d', look', -, -, hp⟩
  · exact herror _ hpass
  · exact herror _ hpass
  · obtain ⟨u, hfol, -, hfate⟩ := hp.follows hdel hquiet hsend ht.listens.place ht.sound happs hmem
      rfl
    have hqueue := hfol.queues.2
    have hu : (recvPass t).state = u := by
      revert hfate
      cases ((rx.piece 2 cfg h (h.mask off raw)).report (eventIsMsgQueueable t.1)).fate with
      | live rx' =>
        rintro ⟨heq, -⟩
        rw [heq]
        rfl
      | off heard r =>
        rintro (heq | ⟨heq, -⟩) <;> rw [heq] <;> rfl
    refine ⟨_, hu ▸ hqueue, fun msg hm => ⟨_, hp.given, ?_⟩⟩
    -- the message that is answered is a Ping
    have hm : Reply.pong msg ∈
        ((rx.piece 2 cfg h (h.mask off raw)).report (eventIsMsgQueueable t.1)).replies := hm
    obtain ⟨rx', hverdict⟩ := Reaction.pong_mem hm
    have hacc : ∀ {calls : List Call} {f : Progress} {waiting : Option Draft},
        rx.enter cfg h = .ok (calls, f, waiting) → acc.length = f.off := by
      intro calls f waiting he
      rw [(ht.listens.place.enter hp.enters he).2]
      exact (ht.holds.piece hp.enters raw look').1
    cases he : rx.enter cfg h with
    | error code =>
      rw [Rx.piece_error he] at hverdict
      cases hverdict
    | ok x =>
      obtain ⟨calls, f, waiting⟩ := x
      have hf := (ht.sound.enter hp.valid he).frame f rfl
      have htold := (ht.enter he (hacc he)).1
      rw [Rx.piece_ok he] at hverdict
      have hping : f.draft.opcode = 9 := Progress.piece_done hverdict
      have hctrl : 8 ≤ f.header.opcode.val := hf.kind.2 (by rw [hping]; decide)
      have hne : f.header.opcode ≠ 0 := fun h0 => by
        rw [h0] at hctrl
        exact absurd hctrl (by decide)
      have hop := (htold.opcode hne).symm.trans hping
      rw [(ht.listens.place.enter hp.enters he).1] at hop
      change UInt8.ofNat h.opcode.val = ping
      exact (ofNat_opcode_eq_iff h.opcode 9).2 hop

/-! ## The time until the Ping is complete -/

/-- The pass from `t` ends a frame. -/
def EndsFrame (t : EventContext × Io) : Prop := ∃ u, recvPass t = .again u ∧ u.1.ipayloadoff = 0

/-- **The frame that begins at `s` is not complete**: there have been passes of calls
of `wslay_event_recv` and, between them, calls of the application. -/
inductive Meanwhile (s : EventContext × Io) : EventContext × Io → Prop
  | start : Meanwhile s s
  | pass {t : EventContext × Io} : Meanwhile s t → ¬ EndsFrame t → Meanwhile s (recvPass t).state
  | call {t : EventContext × Io} (a : AppCall) : Meanwhile s t → Meanwhile s (appCall t.1 t.2 a).2

/-- `n` passes, of one call of `wslay_event_recv` or of several. -/
def passes (s : EventContext × Io) : Nat → EventContext × Io
  | 0 => s
  | n + 1 => (recvPass (passes s n)).state

theorem InPing.spares (hp : InPing cfg f rest waiting s d look off) (hsp : Spares s t) :
    InPing cfg f rest waiting t d look off := by
  refine ⟨hp.listens.spares hsp, hp.sound, ?_⟩
  rw [hsp.recvs]
  exact hp.stream

/-- The message that the Ping interrupts is in its slot. -/
theorem InPing.suspended {k : Draft} (hp : InPing cfg f rest (some k) t d look off) :
    Suspended cfg t.1.imsgs0 k := by
  have hstate := hp.listens.models.state
  unfold pingRx at hstate
  by_cases h0 : off = 0
  · simp only [h0, if_true] at hstate
    exact hstate.current
  · simp only [h0, if_false] at hstate
    exact hstate.1.beside.2

theorem InPing.off_ne (hp : InPing cfg f rest waiting t d look off) (hpos : off ≠ 0) :
    t.1.ipayloadoff ≠ 0 := by
  have hinside := hp.listens.models.state
  unfold pingRx at hinside
  simp only [if_neg hpos] at hinside
  rw [hinside.1.off]
  exact hpos

/-- A context that receives a Ping and is not at its end. -/
structure Holding (cfg : RxConfig) (f : Frame) (rest : List UInt8) (waiting : Option Draft)
    (t : EventContext × Io) : Prop where
  apps : t.2.apps = []
  mem : t.2.MemOk
  within : t.1.readEnabled = true → ∃ d look off, InPing cfg f rest waiting t d look off

/-- **As long as the Ping is not complete, it is being received**, unless reading has
been shut down. -/
theorem Meanwhile.holding (hf : PingFrame cfg f) (hs : Holding cfg f rest waiting s)
    (ht : Meanwhile s t) : Holding cfg f rest waiting t := by
  induction ht with
  | start => exact hs
  | @call t a _ ih =>
    have hsp := appCall_spares t.1 t.2 a
    refine ⟨hsp.apps.trans ih.apps, fun h => ih.mem (hsp.mem.subset h), fun hon => ?_⟩
    obtain ⟨d, look, off, hp⟩ := ih.within (hsp.enabled hon)
    exact ⟨d, look, off, hp.spares hsp⟩
  | @pass t _ hnot ih =>
    cases hon : t.1.readEnabled with
    | false =>
      rw [recvPass_off hon]
      exact ih
    | true =>
      obtain ⟨d, look, off, hp⟩ := ih.within hon
      rcases hp.pass hf hon ih.apps ih.mem rfl with ⟨hpass, -, -, hfol, -, d', look', hin, -⟩ |
        ⟨u, d', look', calls, n, hpass, -, -, hfol, -, hin, -⟩ | ⟨u, look', calls, hpass, -, hl, -⟩
      · obtain ⟨r, s', heq, hsp, hstate⟩ := recvFrameError_state .wantRead (fed t).1 (fed t).2
        rw [hpass, heq]
        refine ⟨hsp.apps.trans (hfol.apps.trans ih.apps),
          fun h => ih.mem (hfol.mem.subset (hsp.mem.subset h)), fun he => ?_⟩
        rcases hstate with rfl | hoff
        · exact ⟨d', look', off, hin⟩
        · exact absurd he (by simp [hoff])
      · rw [hpass]
        exact ⟨hfol.apps.trans ih.apps, fun h => ih.mem (hfol.mem.subset h),
          fun _ => ⟨d', look', _, hin⟩⟩
      · exact absurd ⟨u, hpass, hl.models.state.off⟩ hnot

/-- **What the pass from `t` to `u` has done that completes a Ping with `payload`**: the
Pong is at the tail of the queue if a message could be queued, and the receiver is
between two frames again, where the stream goes on with `rest`. -/
structure Answered (t u : EventContext × Io) (payload rest : List UInt8) : Prop where
  again : recvPass t = .again u
  queue : u.1.sendCtrlQueue = t.1.sendCtrlQueue ++
    if eventIsMsgQueueable t.1 then [⟨1, pong, .nonFragmented, payload, []⟩] else []
  queued : u.2.queued = t.2.queued ++
    if eventIsMsgQueueable t.1 then [.msg ⟨pong, payload⟩] else []
  enabled : u.1.readEnabled = true
  imsg : u.1.imsg = .zero
  len : u.1.ipayloadlen = 0
  off : u.1.ipayloadoff = 0
  istate : u.1.frameCtx.istate = .recvHeader1
  stream : u.1.frameCtx.avail ++ pendingOctets u.2.recvs = rest

/-- A pass that ends the Ping answers it, and the message it interrupts is there. -/
theorem Holding.answers (hf : PingFrame cfg f) (ht : Holding cfg f rest waiting t)
    (hon : t.1.readEnabled = true) (hend : EndsFrame t) :
    Answered t (recvPass t).state f.payload rest ∧
      ∀ k, waiting = some k → Suspended cfg (recvPass t).state.1.imsgs0 k := by
  obtain ⟨d, look, off, hp⟩ := ht.within hon
  obtain ⟨u, hagain, hoff⟩ := hend
  rcases hp.pass hf hon ht.apps ht.mem rfl with ⟨hpass, -⟩ |
    ⟨u', d', look', calls, n, hpass, hpos, hlt, -, -, hin, -⟩ |
    ⟨u', look', calls, hpass, hfol, hl, hstate, hrest⟩
  · obtain ⟨r, s', heq, -⟩ := recvFrameError_state .wantRead (fed t).1 (fed t).2
    rw [hpass, heq] at hagain
    cases hagain
  · rw [hpass] at hagain
    cases hagain
    exact absurd hoff (hin.off_ne hpos)
  · rw [hpass] at hagain
    cases hagain
    rw [hpass, Step.state_again]
    have hb : Between cfg u.1 waiting := hl.models.state
    obtain ⟨hqueued, hqueue⟩ := hfol.queues
    have hview := hl.ready.view
    have hlook := hview.avail_eq hstate
    have hhead : u.1.frameCtx.istate = .recvHeader1 := by
      cases hview with
      | header1 h _ => exact h
      | ext b0 b1 h => exact absurd hstate (by rw [h]; decide)
      | maskkey g hb h => exact absurd hstate (by rw [h]; decide)
    refine ⟨⟨hpass, ?_, ?_, ?_, hb.imsg, hb.len, hb.off, hhead, ?_⟩, ?_⟩
    · rw [hqueue]
      split_ifs <;> rfl
    · rw [hqueued]
      split_ifs <;> rfl
    · rw [hfol.enabled, hon]
      rfl
    · rw [← hlook]
      exact hrest
    · rintro k rfl
      exact hb.current

/-! ## Enough passes complete the Ping -/

theorem passes_succ (s : EventContext × Io) (n : Nat) :
    passes s (n + 1) = passes (recvPass s).state n := by
  induction n with
  | zero => rfl
  | succ n ih =>
    rw [passes, ih]
    rfl

/-- There is something to wait for. -/
theorem InPing.pending (hf : PingFrame cfg f) (hp : InPing cfg f rest waiting t d look off)
    (hwait : takePiece d look = .wait d look) : t.2.recvs ≠ [] := by
  intro hnil
  have hok := hp.listens.ready.ok
  have hstream := hp.stream
  rw [hnil, show pendingOctets [] = [] from rfl, List.append_nil] at hstream
  cases d with
  | head =>
    obtain ⟨-, rfl⟩ := hstream
    have hwhole : Dec.head.Whole ([f].flatMap Frame.encode) :=
      .of_frames fun g hg => by
        rw [List.mem_singleton.1 hg]
        exact hf.valid
    rw [List.flatMap_singleton] at hwhole
    have hempty := (hwhole.wait hok hwait).2
    rw [Frame.encode, Header.encode] at hempty
    cases hempty
  | body h o =>
    obtain ⟨rfl, rfl, rfl⟩ := hstream
    have hlt : o < f.header.length := hok.2
    have hwhole : (Dec.body f.header o).Whole (f.header.mask o (f.payload.drop o)) := by
      refine ⟨_, [], fun g hg => (by cases hg), (List.append_nil _).symm, hlt, ?_⟩
      rw [Header.length_mask, List.length_drop]
      rw [Frame.header_length] at hlt ⊢
      omega
    cases (hwhole.wait hok hwait).1

/-- **Enough passes complete the Ping**, as long as `recv_callback` does not fail. -/
theorem InPing.completes (hf : PingFrame cfg f) (n : Nat) :
    ∀ {t : EventContext × Io} {d : Dec} {look : List UInt8} {off : Nat},
      InPing cfg f rest waiting t d look off → t.1.readEnabled = true → t.2.apps = [] →
      t.2.MemOk → t.2.Quiet → (look ++ pendingOctets t.2.recvs).length + t.2.recvs.length ≤ n →
      ∃ m, (∀ k < m, ¬ EndsFrame (passes t k)) ∧ (passes t m).1.readEnabled = true ∧
        EndsFrame (passes t m) := by
  induction n with
  | zero =>
    intro t d look off hp hon happs hmem hquiet hle
    rcases hp.pass hf hon happs hmem rfl with ⟨-, -, -, -, hfew, d', look', hin, hwait, -⟩ |
      ⟨u, d', look', calls, k, -, -, -, -, -, -, hlt⟩ | ⟨u, look', calls, hpass, -, hl, -⟩
    · exact absurd (List.length_eq_zero_iff.1 (by omega)) (hin.pending hf hwait)
    · omega
    · exact ⟨0, fun k hk => absurd hk (Nat.not_lt_zero k), hon, u, hpass, hl.models.state.off⟩
  | succ n ih =>
    intro t d look off hp hon happs hmem hquiet hle
    -- a pass that does not end the Ping leaves less to do
    have hnext : ∀ {u : EventContext × Io} {d' look' off'}, (recvPass t).state = u →
        ¬ EndsFrame t → InPing cfg f rest waiting u d' look' off' → u.1.readEnabled = true →
        u.2.apps = [] → u.2.MemOk → u.2.Quiet →
        (look' ++ pendingOctets u.2.recvs).length + u.2.recvs.length ≤ n →
        ∃ m, (∀ k < m, ¬ EndsFrame (passes t k)) ∧ (passes t m).1.readEnabled = true ∧
          EndsFrame (passes t m) := by
      intro u d' look' off' hu hnot hin hon' happs' hmem' hquiet' hle'
      obtain ⟨m, hopen, hon'', hend⟩ := ih hin hon' happs' hmem' hquiet' hle'
      refine ⟨m + 1, fun k hk => ?_, ?_, ?_⟩
      · cases k with
        | zero => exact hnot
        | succ k =>
          rw [passes_succ, hu]
          exact hopen k (by omega)
      · rw [passes_succ, hu]
        exact hon''
      · rw [passes_succ, hu]
        exact hend
    rcases hp.pass hf hon happs hmem rfl with
      ⟨hpass, hasked, hq, hfol, hfew, d', look', hin, hwait, hless⟩ |
      ⟨u, d', look', calls, k, hpass, hpos, -, hfol, hfew, hin, hlt⟩ |
      ⟨u, look', calls, hpass, -, hl, -⟩
    · have hleave := hpass.trans (recvFrameError_wantRead (hq hquiet))
      have hshorter : (fed t).2.recvs.length < t.2.recvs.length := by
        refine hasked.resolve_left fun hnil => hin.pending hf hwait ?_
        rw [hnil, List.length_nil] at hfew
        exact List.length_eq_zero_iff.1 (Nat.le_zero.1 hfew)
      refine hnext (by rw [hleave]; rfl) ?_ hin (hfol.enabled.trans (by rw [hon]; rfl))
        (hfol.apps.trans happs) (fun h => hmem (hfol.mem.subset h)) (hq hquiet) (by omega)
      rintro ⟨u, hagain, -⟩
      rw [hleave] at hagain
      cases hagain
    · refine hnext (by rw [hpass]; rfl) ?_ hin (hfol.enabled.trans (by rw [hon]; rfl))
        (hfol.apps.trans happs) (fun h => hmem (hfol.mem.subset h)) (hfol.quiet hquiet) (by omega)
      rintro ⟨u', hagain, hoff⟩
      rw [hpass] at hagain
      cases hagain
      exact hin.off_ne hpos hoff
    · exact ⟨0, fun k hk => absurd hk (Nat.not_lt_zero k), hon, u, hpass, hl.models.state.off⟩

end

/-! ## Runs -/

/-- **Every Ping is answered once and leaves the interrupted message alone.**  Let a pass
begin in the state `s` of any run, between two frames, while the application only looks on
in its callbacks and no allocation fails.

A pass never does more to the queue than to append to it, and appends a Pong only if it
takes a piece of a Ping.

If the stream goes on with a Ping, let there be passes, and calls of the application
between them, up to a state `t` in which it is not complete.  The pass that completes it
answers it; another one queues nothing and is no error.  A message that the Ping
interrupts is the same as it was, before that pass and behind it.  And as long as
`recv_callback` does not fail, enough passes complete the Ping. -/
theorem ping_answered_once (server : Bool) (callbacks : EventCallbacks) (noBuffering : Bool)
    (limit : Nat) (io : Io) (ops : List Op) (s : EventContext × Io)
    (hs : Loop.Reaches recvPass
      (runOps (configured server callbacks noBuffering limit, io) ops) s)
    (hon : s.1.readEnabled = true) (happs : s.2.apps = []) (hmem : s.2.MemOk) :
    (∃ replies : List Reply,
      (recvPass s).state.1.sendCtrlQueue = s.1.sendCtrlQueue ++ replies.map Reply.omsg ∧
      ∀ msg, Reply.pong msg ∈ replies →
        ∃ iocb, (frameRecv s.1.frameCtx s.2).1 = .ok iocb ∧ iocb.opcode = ping) ∧
    ∀ f rest, PingFrame (.of server callbacks noBuffering limit) f →
      s.1.frameCtx.istate = .recvHeader1 →
      s.1.frameCtx.avail ++ pendingOctets s.2.recvs = f.encode ++ rest →
      (∀ t, Meanwhile s t → t.1.readEnabled = true →
        (EndsFrame t → Answered t (recvPass t).state f.payload rest) ∧
        (¬ EndsFrame t → t.2.Quiet → (recvPass t).state.1.sendCtrlQueue = t.1.sendCtrlQueue ∧
          (recvPass t = .again (recvPass t).state ∨ recvPass t = .leave 0 (recvPass t).state)) ∧
        (s.1.imsgs0.opcode ≠ noOpcode → t.1.imsgs0.contents = s.1.imsgs0.contents ∧
          (EndsFrame t → (recvPass t).state.1.imsgs0.contents = s.1.imsgs0.contents))) ∧
      (s.2.Quiet → ∃ n, Meanwhile s (passes s n) ∧ (passes s n).1.readEnabled = true ∧
        EndsFrame (passes s n)) := by
  obtain ⟨new, T, hs, -, -, -, -, htells⟩ :=
    ordered_reaches server callbacks noBuffering limit io ops hs
  obtain ⟨rx, d, look, hs', acc, htells⟩ := htells hon
  refine ⟨htells.pongs hon happs hmem, fun f rest hf hhead hstream => ?_⟩
  -- the context is between two frames
  have hview := htells.listens.ready.view
  obtain ⟨rfl, rfl⟩ : d = .head ∧ look = s.1.frameCtx.avail := by
    cases hview with
    | header1 => exact ⟨rfl, rfl⟩
    | ext b0 b1 h => rw [hhead] at h; cases h
    | maskkey g hb h => rw [hhead] at h; cases h
    | payload h off hp => have h := hp.istate; rw [hhead] at h; cases h
  have hplace := htells.listens.place
  obtain ⟨waiting, rfl⟩ : ∃ waiting, rx = pingRx waiting f 0 := by
    refine ⟨rx.waiting, ?_⟩
    unfold Rx.Place at hplace
    obtain ⟨w, frame⟩ := rx
    cases frame with
    | none => rfl
    | some g => cases hplace
  have hin : InPing (.of server callbacks noBuffering limit) f rest waiting s .head
      s.1.frameCtx.avail 0 := ⟨htells.listens, htells.sound, rfl, hstream⟩
  have hholds : Holding (.of server callbacks noBuffering limit) f rest waiting s :=
    ⟨happs, hmem, fun _ => ⟨_, _, _, hin⟩⟩
  refine ⟨fun t ht hton => ?_, fun hquiet => ?_⟩
  · have hthold := ht.holding hf hholds
    refine ⟨fun hend => (hthold.answers hf hton hend).1, fun hnot hquiet => ?_, fun hbusy => ?_⟩
    · obtain ⟨d, look, off, hp⟩ := hthold.within hton
      rcases hp.pass hf hton hthold.apps hthold.mem rfl with ⟨hpass, -, hq, hfol, -⟩ |
        ⟨u, d', look', calls, n, hpass, -, -, hfol, -⟩ | ⟨u, look', calls, hpass, -, hl, -⟩
      · rw [hpass, recvFrameError_wantRead (hq hquiet)]
        exact ⟨hfol.queues.2.trans (List.append_nil _), Or.inr rfl⟩
      · rw [hpass]
        exact ⟨hfol.queues.2.trans (List.append_nil _), Or.inl rfl⟩
      · exact absurd ⟨u, hpass, hl.models.state.off⟩ hnot
    · -- a message is interrupted
      obtain ⟨k, rfl⟩ : ∃ k, waiting = some k := by
        cases waiting with
        | none => exact absurd hin.listens.models.state.current.opcode hbusy
        | some k => exact ⟨k, rfl⟩
      obtain ⟨d, look, off, hp⟩ := hthold.within hton
      exact ⟨hin.suspended.contents hp.suspended, fun hend =>
        hin.suspended.contents ((hthold.answers hf hton hend).2 k rfl)⟩
  · obtain ⟨n, hopen, hon', hend⟩ := hin.completes hf _ hon happs hmem hquiet (Nat.le_refl _)
    have hwhile : ∀ m ≤ n, Meanwhile s (passes s m) := by
      intro m
      induction m with
      | zero => exact fun _ => .start
      | succ m ih => exact fun hle => .pass (ih (by omega)) (hopen m (by omega))
    exact ⟨n, hwhile n (Nat.le_refl n), hon', hend⟩

/-- The Ping of `interrupted`. -/
def interruptingPing : Frame := ⟨true, 0, 9, some ⟨1, 2, 3, 4⟩, [0x70]⟩

/-- A server has received the first part of a text, and a Ping comes. -/
def interrupted : EventContext × Io :=
  runOps (configured true ⟨true, true, true, true⟩ false 100,
    { recvs := [.data [0x01, 0x81, 1, 2, 3, 4, 0x40], .fail none,
        .data [0x89, 0x81, 1, 2, 3, 4, 0x71]] }) [.recv]

theorem ping_answered_once_interrupted :
    ∃ n, Answered (passes interrupted n) (recvPass (passes interrupted n)).state [0x70] [] ∧
      (recvPass (passes interrupted n)).state.1.imsgs0.contents = (1, 0, 0, 1, [0x41]) := by
  obtain ⟨-, hping⟩ := ping_answered_once true ⟨true, true, true, true⟩ false 100
    { recvs := [.data [0x01, 0x81, 1, 2, 3, 4, 0x40], .fail none,
        .data [0x89, 0x81, 1, 2, 3, 4, 0x71]] } [.recv] interrupted .refl (by decide +kernel)
    (by decide +kernel) (by unfold Io.MemOk; decide +kernel)
  have hframe : PingFrame (.of true ⟨true, true, true, true⟩ false 100) interruptingPing :=
    ⟨rfl, by decide, rfl, rfl, by decide⟩
  have hquiet : interrupted.2.Quiet := by
    have hrecvs : interrupted.2.recvs = [.data [0x89, 0x81, 1, 2, 3, 4, 0x71]] := by decide +kernel
    refine ⟨by decide +kernel, ?_⟩
    rw [hrecvs]
    simp
  obtain ⟨hall, hdone⟩ := hping interruptingPing [] hframe (by decide +kernel) (by decide +kernel)
  obtain ⟨n, hmean, hon, hend⟩ := hdone hquiet
  obtain ⟨hanswer, -, hkept⟩ := hall _ hmean hon
  have hsame := (hkept (by decide +kernel)).2 hend
  exact ⟨n, hanswer hend, hsame.trans (by decide +kernel)⟩

end Wslay
