import Wslay.Frame.SendRun

/-!
# From `wslay_frame_recv` to `wslay_frame_send`

The converse of the round trip.  A frame that the decoder has taken is given to
the encoder, with the key that was found in the input, and comes out as the
octets that were consumed.

* `recvFrame` — the application that receives one frame.
* `recvFrame_encode` — the octets consumed are the encoding of what it has seen.
* `Io.TakesAll` — the `send_callback` that takes whatever it is offered.
* `frame_reencoded` — an accepted frame has one encoding only.
-/

namespace Wslay

open Octets (Key xorFrom)

/-! ## Receiving one frame -/

/-- Call `wslay_frame_recv`, at most the given number of times, until the pieces
make up a frame; `acc` is what there is of its payload. -/
def recvFrame : Nat → List UInt8 → FrameContext → Io → Option (Seen × FrameContext × Io)
  | 0, _, _, _ => none
  | fuel + 1, acc, c, io =>
    match frameRecv c io with
    | (.ok p, c, io) =>
      if (acc ++ p.data).length = p.payloadLength then
        some (⟨p.fin, p.rsv, p.opcode, p.mask, acc ++ p.data⟩, c, io)
      else recvFrame fuel (acc ++ p.data) c io
    | (.error e, c, io) => if e = .wantRead then recvFrame fuel acc c io else none

theorem readPayload_istate {c : FrameContext} (hs : c.istate = .recvPayload) :
    (readPayload c).2.istate = .recvHeader1 ∨ (readPayload c).2.istate = .recvPayload := by
  unfold readPayload
  simp only
  by_cases hend : c.ipayloadlen = c.ipayloadoff + min c.avail.length (c.ipayloadlen - c.ipayloadoff)
  · rw [if_pos hend]
    exact Or.inl rfl
  · rw [if_neg hend]
    exact Or.inr hs

theorem wslayRecv_istate (c : FrameContext) (io : Io) :
    (wslayRecv c io).2.1.istate = c.istate := by
  unfold wslayRecv
  simp only
  split_ifs <;> rfl

theorem recvPayload_istate {c c' : FrameContext} {io io' : Io} {iocb : Iocb}
    (h : recvPayload c io = (.ok iocb, c', io')) :
    c'.istate = .recvHeader1 ∨ c'.istate = .recvPayload := by
  unfold recvPayload at h
  by_cases hs : c.istate = .recvPayload
  · rw [if_pos hs] at h
    by_cases hask : c.avail = [] ∧ 0 < c.ipayloadlen - c.ipayloadoff
    · rw [if_pos hask] at h
      have hsame := wslayRecv_istate c io
      obtain ⟨e, c₁, io₁, heq⟩ : ∃ e c₁ io₁, wslayRecv c io = (e, c₁, io₁) := ⟨_, _, _, rfl⟩
      rw [heq] at hsame
      simp only [heq] at h
      cases e with
      | some e => cases h
      | none =>
        cases h
        exact readPayload_istate (hsame.trans hs)
    · rw [if_neg hask] at h
      cases h
      exact readPayload_istate hs
  · rw [if_neg hs] at h
    cases h

/-- Behind a piece the code is inside a payload, or before a header. -/
theorem frameRecv_istate {c c' : FrameContext} {io io' : Io} {iocb : Iocb}
    (h : frameRecv c io = (.ok iocb, c', io')) :
    c'.istate = .recvHeader1 ∨ c'.istate = .recvPayload := by
  unfold frameRecv at h
  obtain ⟨e₁, c₁, io₁, heq₁⟩ : ∃ e c' io', recvHeader1 c io = (e, c', io') := ⟨_, _, _, rfl⟩
  simp only [heq₁] at h
  cases e₁ with
  | some e => cases h
  | none =>
    obtain ⟨e₂, c₂, io₂, heq₂⟩ : ∃ e c' io', recvExtPayloadlen c₁ io₁ = (e, c', io') :=
      ⟨_, _, _, rfl⟩
    simp only [heq₂] at h
    cases e₂ with
    | some e => cases h
    | none =>
      obtain ⟨e₃, c₃, io₃, heq₃⟩ : ∃ e c' io', recvMaskkey c₂ io₂ = (e, c', io') :=
        ⟨_, _, _, rfl⟩
      simp only [heq₃] at h
      cases e₃ with
      | some e => cases h
      | none => exact recvPayload_istate h

/-- Before a header, what is in hand is what is in the window. -/
theorem View.avail_eq {c : FrameContext} {look : List UInt8} (hv : View c .head look)
    (hs : c.istate = .recvHeader1 ∨ c.istate = .recvPayload) : look = c.avail := by
  cases hv with
  | header1 => rfl
  | ext b0 b1 h => exact absurd hs (by rw [h]; decide)
  | maskkey g hb h => exact absurd hs (by rw [h]; decide)

/-- Of the payload of the frame in progress, `acc` has been given out. -/
def Dec.Holds (d : Dec) (acc : List UInt8) : Prop :=
  match d with
  | .head => acc = []
  | .body _ off => acc.length = off

/-- A call that waits may have read a header. -/
theorem Dec.Holds.wait {d d' : Dec} {acc hdr : List UInt8} (hacc : d.Holds acc)
    (h : d' = d ∧ hdr = [] ∨ ∃ g, d = .head ∧ d' = .body g 0 ∧ hdr = g.encode) :
    d'.Holds acc ∧ d'.octets acc = d.octets acc ++ hdr := by
  rcases h with ⟨rfl, rfl⟩ | ⟨g, rfl, rfl, rfl⟩
  · exact ⟨hacc, (List.append_nil _).symm⟩
  · cases hacc
    exact ⟨rfl, by simp [Dec.octets]⟩

/-- A piece goes on where the payload given out so far ends. -/
theorem Dec.Holds.piece {d : Dec} {acc hdr : List UInt8} {h : Header} {off : Nat}
    (hacc : d.Holds acc) (henter : d.Enters hdr h off) (raw look : List UInt8) :
    acc.length = off ∧ d.octets acc ++ (hdr ++ (raw ++ look)) =
      h.encode ++ (h.mask 0 (acc ++ h.mask off raw) ++ look) := by
  obtain ⟨hlen, hoct⟩ : acc.length = off ∧ d.octets acc ++ hdr = h.encode ++ h.mask 0 acc := by
    rcases henter with ⟨rfl, rfl, rfl⟩ | ⟨rfl, rfl⟩
    · cases hacc
      exact ⟨rfl, by simp [Dec.octets]⟩
    · exact ⟨hacc, List.append_nil _⟩
  have hmore : h.mask 0 (acc ++ h.mask off raw) = h.mask 0 acc ++ raw := by
    rw [Header.mask_append, Nat.zero_add, hlen, Header.mask_mask]
  refine ⟨hlen, ?_⟩
  rw [hmore, ← List.append_assoc, hoct]
  simp only [List.append_assoc]

/-- **The octets consumed are the encoding of the frame seen.** -/
theorem recvFrame_encode {fuel : Nat} {c : FrameContext} {d : Dec} {look acc : List UInt8} {io : Io}
    {s : Seen} {c' : FrameContext} {io' : Io} (hr : Ready c d look) (hacc : d.Holds acc)
    (h : recvFrame fuel acc c io = some (s, c', io')) :
    ∃ f : Frame, f.header.Valid ∧ f.seen = s ∧
      ∃ bs, Delivers io bs io' ∧ d.octets acc ++ (look ++ bs) = f.encode ++ c'.avail := by
  induction fuel generalizing c d look acc io with
  | zero => cases h
  | succ fuel ih =>
    obtain ⟨bs, hdel, -, -, hres⟩ := frameRecv_step hr io
    obtain ⟨r, c₁, io₁, hcall⟩ : ∃ r c₁ io₁, frameRecv c io = (r, c₁, io₁) := ⟨_, _, _, rfl⟩
    rw [hcall] at hdel hres
    simp only at hdel hres
    rcases hres with ⟨rfl, -, d', look', hp, hready⟩ | ⟨rfl, -⟩ |
      ⟨g, off, data, d', look', hp, rfl, hready⟩
    · -- the call waits
      simp only [recvFrame, hcall, if_true] at h
      obtain ⟨-, -, hdr, hlook, hwait⟩ := takePiece_wait hr.ok hp
      obtain ⟨hacc', hoct⟩ := hacc.wait hwait
      obtain ⟨f, hv, hseen, bs', hdel', heq⟩ := ih hready hacc' h
      refine ⟨f, hv, hseen, bs ++ bs', hdel.trans hdel', ?_⟩
      rw [← heq, hoct, ← List.append_assoc look, hlook]
      simp only [List.append_assoc]
    · -- it rejects the stream
      simp [recvFrame, hcall] at h
    · -- it takes a piece
      obtain ⟨hdr, raw, hlook, henter, hv, rfl, -, -, rfl⟩ := takePiece_piece hr.ok hp
      obtain ⟨hlen, hoct⟩ := hacc.piece henter raw look'
      have hsofar : d.octets acc ++ (look ++ bs) =
          g.encode ++ g.mask 0 (acc ++ g.mask off raw) ++ look' := by
        rw [hlook, hoct, List.append_assoc]
      have hsum : (acc ++ g.mask off raw).length = off + raw.length := by
        rw [List.length_append, Header.length_mask, hlen]
      simp only [recvFrame, hcall] at h
      by_cases hend : off + raw.length = g.length
      · -- the frame is complete
        rw [if_pos (show (acc ++ (g.iocb (g.mask off raw)).data).length =
          (g.iocb (g.mask off raw)).payloadLength from hsum.trans hend)] at h
        cases h
        have hhead : Dec.after g off raw.length = .head := by rw [Dec.after, if_pos hend.symm]
        have hview := hready.view
        rw [hhead] at hview
        have hheader := Frame.header_ofHeader (hsum.trans hend)
        refine ⟨Frame.ofHeader g (acc ++ g.mask off raw), by rw [hheader]; exact hv, rfl, bs, hdel, ?_⟩
        rw [hsofar, hview.avail_eq (frameRecv_istate hcall), Frame.encode, hheader]
        rfl
      · -- some payload is missing
        rw [if_neg (fun heq => hend (by rw [← hsum]; exact heq))] at h
        have hbody : Dec.after g off raw.length = .body g (off + raw.length) := by
          rw [Dec.after, if_neg (fun heq => hend heq.symm)]
        rw [hbody] at hready
        obtain ⟨f, hv', hseen, bs', hdel', heq⟩ := ih hready hsum h
        refine ⟨f, hv', hseen, bs ++ bs', hdel.trans hdel', ?_⟩
        rw [← heq, ← List.append_assoc look, ← List.append_assoc, hsofar, Dec.octets]
        simp only [List.append_assoc]

/-! ## A `send_callback` that takes everything -/

/-- `send_callback` takes whatever it is offered, until it has taken `n` octets. -/
structure Io.TakesAll (io : Io) (n : Nat) : Prop where
  often : n ≤ io.sends.length
  much : ∀ r ∈ io.sends, ∃ m, r = .accept m ∧ n ≤ m

theorem Io.TakesAll.sendCallback {io : Io} {n : Nat} (offer : Offer)
    (h : io.TakesAll (offer.data.length + n)) (hne : offer.data ≠ []) :
    (io.sendCallback offer).1 = offer.data.length ∧ (io.sendCallback offer).2.TakesAll n := by
  have hpos : 0 < offer.data.length := List.length_pos_of_ne_nil hne
  obtain ⟨hoften, hmuch⟩ := h
  unfold Io.sendCallback
  cases hs : io.sends with
  | nil =>
    rw [hs, List.length_nil] at hoften
    omega
  | cons r rs =>
    rw [hs] at hoften hmuch
    obtain ⟨m, rfl, hm⟩ := hmuch r (List.mem_cons_self ..)
    refine ⟨?_, ?_, ?_⟩
    · show min (m : Int) offer.data.length = _
      omega
    · rw [List.length_cons] at hoften
      show n ≤ rs.length
      omega
    · intro r hr
      obtain ⟨m, hrm, hm⟩ := hmuch r (List.mem_cons_of_mem _ hr)
      exact ⟨m, hrm, by omega⟩

theorem sendMaskedLoop_all (fuel : Nat) (c : FrameContext) (data : List UInt8) (tot : Nat) {io : Io}
    (hfuel : data.length ≤ fuel) (h : io.TakesAll data.length) :
    (sendMaskedLoop fuel c data tot io).1 = .ok (tot + data.length) := by
  induction fuel generalizing c data tot io with
  | zero =>
    have hnil : data = [] := List.length_eq_zero_iff.1 (by omega)
    subst hnil
    rfl
  | succ fuel ih =>
    unfold sendMaskedLoop
    by_cases hnil : data = []
    · subst hnil
      rfl
    · rw [if_neg hnil]
      have hpos : 0 < data.length := List.length_pos_of_ne_nil hnil
      have hpiece : 0 < (data.take tempSize).length := by
        rw [List.length_take, tempSize]
        omega
      have hsum : (data.take tempSize).length + (data.drop tempSize).length = data.length := by
        rw [← List.length_append, List.take_append_drop]
      obtain ⟨temp, htemp⟩ : ∃ temp, temp = xorFrom c.omaskkey c.opayloadoff (data.take tempSize) :=
        ⟨_, rfl⟩
      have hlen : temp.length = (data.take tempSize).length := by
        rw [htemp, Octets.length_xorFrom]
      have hall : io.TakesAll (temp.length + (data.drop tempSize).length) := by
        rw [hlen, hsum]
        exact h
      obtain ⟨hr, hall⟩ := hall.sendCallback ⟨temp, false, false⟩
        (List.ne_nil_of_length_pos (show 0 < temp.length by omega))
      obtain ⟨r, io₁, hcall⟩ : ∃ r io₁, io.sendCallback ⟨temp, false, false⟩ = (r, io₁) :=
        ⟨_, _, rfl⟩
      simp only [← htemp, hcall, hlen] at hr hall ⊢
      subst hr
      have hdrop : data.drop (data.take tempSize).length = data.drop tempSize := by
        rw [List.length_take, List.drop_eq_drop_iff]
        omega
      rw [if_pos (by omega), if_neg (by omega), Int.toNat_natCast, hdrop,
        ih _ _ _ (by omega) hall]
      congr 1
      omega

theorem sendData_all (c : FrameContext) (iocb : Iocb) {io : Io} (h : io.TakesAll iocb.data.length) :
    (sendData c iocb io).1 = .ok iocb.data.length := by
  unfold sendData
  by_cases hnil : iocb.data = []
  · rw [if_pos hnil, hnil]
    rfl
  · rw [if_neg hnil]
    by_cases hmask : c.omask = true
    · rw [if_pos hmask, sendMaskedLoop_all _ c _ 0 (Nat.le_refl _) h, Nat.zero_add]
    · rw [if_neg hmask]
      obtain ⟨hr, -⟩ := Io.TakesAll.sendCallback (n := 0) ⟨iocb.data, false, true⟩ h hnil
      obtain ⟨r, io₁, hcall⟩ : ∃ r io₁, io.sendCallback ⟨iocb.data, false, true⟩ = (r, io₁) :=
        ⟨_, _, rfl⟩
      have hpos : 0 < iocb.data.length := List.length_pos_of_ne_nil hnil
      simp only [hcall] at hr ⊢
      subst hr
      rw [if_pos (by omega), if_neg (by omega), Int.toNat_natCast]

/-- A call with the whole payload goes through. -/
theorem fromSendHeader_all {c : FrameContext} {len : Nat} {hrest : List UInt8} {iocb : Iocb}
    {io : Io} (hv : EncView c (.busy len hrest 0)) (hne : hrest ≠ [])
    (h : io.TakesAll (hrest.length + iocb.data.length)) :
    (fromSendHeader c iocb io).1 = .ok iocb.data.length := by
  cases hv with
  | payload _ _ _ _ _ _ => exact absurd rfl hne
  | header _ _ hstate hrest' hne hlen hoff =>
    have hmark : c.oheader.length = c.oheadermark + hrest.length := by
      have hl := congrArg List.length hrest'
      have hpos := List.length_pos_of_ne_nil hne
      rw [FrameContext.oheaderRest, List.length_drop] at hl
      omega
    have hpos : 0 < hrest.length := List.length_pos_of_ne_nil hne
    obtain ⟨hr, hall⟩ := Io.TakesAll.sendCallback ⟨hrest, decide (iocb.data ≠ []), false⟩ h hne
    obtain ⟨r, io₁, hcall⟩ : ∃ r io₁, io.sendCallback
        ⟨hrest, decide (iocb.data ≠ []), false⟩ = (r, io₁) := ⟨_, _, rfl⟩
    rw [fromSendHeader, sendHeader, if_pos hstate, hrest']
    simp only [hcall] at hr hall ⊢
    subst hr
    rw [if_pos (by omega), if_neg (by omega), Int.toNat_natCast, if_pos hmark.symm]
    obtain ⟨c₁, hc₁⟩ : ∃ c₁, c₁ = { c with
      oheadermark := c.oheadermark + hrest.length, ostate := FrameState.sendPayload } := ⟨_, rfl⟩
    have hdata := sendData_all c₁ iocb hall
    obtain ⟨r, c₂, io₂, hsend⟩ : ∃ r c₂ io₂, sendData c₁ iocb io₁ = (r, c₂, io₂) := ⟨_, _, _, rfl⟩
    rw [hsend] at hdata
    simp only at hdata
    subst hdata
    simp only [← hc₁, sendPayload, if_true, hsend]
    split_ifs <;> rfl

/-! ## Sending it again -/

/-- A caller whose frames fit and whose keys are there is never refused. -/
theorem Caller.Stands.answers {mask : Bool} {base : List UInt8} {rest : List Key}
    {finished fs : List Frame} {f : Frame} {s : Caller} (hs : s.Stands mask base rest finished)
    (htodo : s.todo = f :: fs) (hfits : f.Fits) (hob : s.io.Obeys) (hm : none ∉ s.io.masks) (k : Nat) :
    (∀ e, (frameSend s.ctx (pieceIocb f s.off k) s.io).1 = .error e → e = .wantWrite) ∧
      none ∉ (frameSend s.ctx (pieceIocb f s.off k) s.io).2.2.masks := by
  have hemits : ∀ {c : FrameContext} {io : Io} {len off n : Nat} {hrest data : List UInt8}
      {r : Except Err Nat × FrameContext × Io}, Emits c io len hrest off data r n → io.Obeys →
      none ∉ io.masks → (∀ e, r.1 = .error e → e = .wantWrite) ∧ none ∉ r.2.2.masks := by
    intro c io len off n hrest data r he hob hm
    refine ⟨fun e herr => ?_, by rw [he.transmits.masks]; exact hm⟩
    have hres := he.result.resolve_left fun hbad => he.obeys hob hbad.1
    rw [hres] at herr
    split_ifs at herr
    cases herr
    rfl
  obtain ⟨hle, hdata⟩ := length_pieceIocb f s.off k
  cases hs with
  | within g gs m hcons hlt hview _ hoff _ _ _ =>
    rw [htodo, List.cons.injEq] at hcons
    obtain ⟨rfl, rfl⟩ := hcons
    rw [length_encode_frame] at hlt
    obtain ⟨n, he⟩ := frameSend_busy hview hle (hdata (by omega)) s.io
    exact hemits he hob hm
  | between hview _ _ _ _ _ =>
    obtain ⟨hgen, hsends, hmasks⟩ : s.io.genmaskCallback.1 ≠ none ∧
        s.io.genmaskCallback.2.sends = s.io.sends ∧ none ∉ s.io.genmaskCallback.2.masks := by
      unfold Io.genmaskCallback
      cases hms : s.io.masks with
      | nil => exact ⟨by simp, rfl, hm⟩
      | cons x xs =>
        rw [hms, List.mem_cons, not_or] at hm
        exact ⟨fun h => hm.1 h.symm, rfl, hm.2⟩
    rcases frameSend_idle hview hle s.io with ⟨hno, -⟩ | ⟨-, ⟨-, ⟨-, hnone⟩, -⟩ | ⟨-, n, he⟩⟩
    · exact absurd (hfits.sendable s.off k) hno
    · exact absurd hnone hgen
    · refine hemits he ?_ ?_
      · rw [Io.Obeys, Io.keyFor]
        split_ifs
        · rw [hsends]
          exact hob
        · exact hob
      · rw [Io.keyFor]
        split_ifs
        · exact hmasks
        · exact hm

theorem Caller.told_io (s : Caller) (f : Frame) (fs : List Frame)
    (r : Except Err Nat × FrameContext × Io) : (s.told f fs r).io = r.2.2 := by
  obtain ⟨r, c, io⟩ := r
  cases r with
  | error e => rfl
  | ok n =>
    unfold told
    simp only
    split_ifs <;> rfl

/-- In a run `genmask_callback` does not fail unless it has to. -/
theorem Caller.Stands.masks {mask : Bool} {base : List UInt8} {rest : List Key}
    {finished : List Frame} {s : Caller} (hs : s.Stands mask base rest finished)
    (hu : Uniform mask s.todo) (hob : s.io.Obeys) (hm : none ∉ s.io.masks) (ks : List Nat) :
    none ∉ (s.calls ks).io.masks ∧ (s.calls ks).io.Obeys := by
  induction ks generalizing s finished with
  | nil => exact ⟨hm, hob⟩
  | cons k ks ih =>
    obtain ⟨finished', -, hs', hu', hob'⟩ := hs.call hu hob k
    refine ih hs' hu' hob' ?_
    cases htodo : s.todo with
    | nil =>
      rw [call_nil htodo]
      exact hm
    | cons f fs =>
      rw [call_cons htodo, told_io]
      exact (hs.answers htodo (hu f (by simp [htodo])).1 hob hm k).2

/-- The header of a frame that fits is prepared, with the key of the frame. -/
theorem sendPrepHeader_frame {f : Frame} (hfits : f.Fits) {c : FrameContext}
    (hstate : c.ostate = .prepHeader) {io : Io} {rest : List Key} (hm : none ∉ io.masks)
    (hkeys : io.masks.filterMap id = f.key.toList ++ rest) :
    ∃ io₁, sendPrepHeader c (frameIocb f 0) io = (none, c.prepared (frameIocb f 0) f.key, io₁) ∧
      io₁.wire = io.wire ∧ io₁.sends = io.sends := by
  have hmask : (frameIocb f 0).mask = f.key.isSome := rfl
  rcases sendPrepHeader_spec hstate (frameIocb f 0) io with ⟨hno, -⟩ |
    ⟨-, ⟨-, hnone, -⟩ | ⟨hfalse, heq⟩ | ⟨key, io₁, htrue, hgen, heq⟩⟩
  · exact absurd (hfits.sendable 0 0) hno
  · unfold Io.genmaskCallback at hnone
    cases hms : io.masks with
    | nil =>
      rw [hms] at hnone
      cases hnone
    | cons x xs =>
      rw [hms] at hnone hm
      exact absurd (show x = none from hnone) fun hx => hm (by simp [hx])
  · have hkey : f.key = none := Option.not_isSome_iff_eq_none.1 (by rw [← hmask, hfalse]; decide)
    rw [hkey]
    exact ⟨io, heq, rfl, rfl⟩
  · obtain ⟨k, hkey⟩ := Option.isSome_iff_exists.1 (hmask.symm.trans htrue)
    have hasked : io.keyFor f.key.isSome = (some key, io₁) := by
      rw [← hmask, htrue, Io.keyFor, if_pos rfl, hgen]
    have hkeys' : io.masks.filterMap id = [f].filterMap Frame.key ++ rest := by
      rw [hkeys, hkey, List.filterMap_cons_some hkey]
      rfl
    obtain ⟨io₂, hk, hwire, hsends, -⟩ := keyFor_frame hkeys' (by rw [hasked, hkey]; rfl)
    rw [hasked, Prod.mk.injEq] at hk
    obtain ⟨hk, rfl⟩ := hk
    rw [← hk]
    exact ⟨io₁, heq, hwire, hsends⟩

/-- **A call with a whole frame** that fits puts its encoding on the wire, if
`send_callback` takes it. -/
theorem frameSend_all {f : Frame} (hfits : f.Fits) {io : Io} {rest : List Key}
    (hm : none ∉ io.masks) (hkeys : io.masks.filterMap id = f.key.toList ++ rest)
    (hall : io.TakesAll f.encode.length) :
    (frameSend FrameContext.new (frameIocb f 0) io).1 = .ok f.payload.length ∧
      (frameSend FrameContext.new (frameIocb f 0) io).2.2.wire = io.wire ++ f.encode := by
  have hdata : (frameIocb f 0).data = f.payload := List.drop_zero
  have hle : (frameIocb f 0).data.length ≤ (frameIocb f 0).payloadLength := by
    rw [hdata]
    exact Nat.le_refl _
  obtain ⟨io₁, hprep, hwire, hsends⟩ :=
    @sendPrepHeader_frame f hfits FrameContext.new rfl io rest hm hkeys
  have hview := FrameContext.new.view_prepared (frameIocb f 0) f.key
  rw [header_frameIocb] at hview
  have hall₁ : io₁.TakesAll (f.header.encode.length + (frameIocb f 0).data.length) := by
    rw [hdata, ← length_encode_frame]
    exact ⟨hsends ▸ hall.often, hsends ▸ hall.much⟩
  have hres := fromSendHeader_all hview (by simp [Header.encode]) hall₁
  obtain ⟨m, he⟩ := fromSendHeader_emits hview (frameIocb f 0) (by rw [Nat.zero_add]; exact hle) io₁
  rw [frameSend_eq hle, hprep]
  simp only
  refine ⟨by rw [hres, hdata], ?_⟩
  -- everything has been sent, since so much has been reported
  have hkey : (FrameContext.new.prepared (frameIocb f 0) f.key).effKey = f.key := by
    rw [FrameContext.effKey_prepared]
    cases f.key <;> rfl
  have hsent : f.header.encode.length + f.payload.length ≤ m := by
    have hr := he.result
    rw [hres, hdata] at hr
    rcases hr with ⟨hbad, -⟩ | hr
    · cases hbad
    · split_ifs at hr with hblock
      rw [Except.ok.injEq] at hr
      rw [not_or] at hblock
      omega
  rw [he.transmits.wire, hwire, hkey, hdata, List.take_of_length_le (by
    rw [List.length_append, length_maskWith]
    exact hsent)]
  rfl

/-- **An accepted frame has one encoding only.**  Whatever a run of
`wslay_frame_recv` on a fresh context, in any pieces, has taken for one frame:
the octets consumed are the encoding of a frame `f`, which is the frame that has
been seen with the key found in the input.  Sent on a fresh context, with that
key from `genmask_callback`, it is never refused, and what is emitted are the
octets consumed, in one call or in any pieces. -/
theorem frame_reencoded {fuel : Nat} {ioR : Io} {s : Seen} {c : FrameContext} {io : Io}
    (h : recvFrame fuel [] FrameContext.new ioR = some (s, c, io)) :
    ∃ f : Frame, f.seen = s ∧ io.received = ioR.received ++ f.encode ++ c.avail ∧
      ∀ (ioS : Io) (rest : List Key), ioS.Obeys → none ∉ ioS.masks →
        ioS.masks.filterMap id = f.key.toList ++ rest →
        (ioS.TakesAll f.encode.length →
          (frameSend FrameContext.new (frameIocb f 0) ioS).1 = .ok s.payload.length ∧
            (frameSend FrameContext.new (frameIocb f 0) ioS).2.2.wire = ioS.wire ++ f.encode) ∧
        ∀ ks, ((callerNew [f] ioS).calls ks).io.wire <+: ioS.wire ++ f.encode ∧
          (((callerNew [f] ioS).calls ks).todo = [] ↔
            ((callerNew [f] ioS).calls ks).io.wire = ioS.wire ++ f.encode) ∧
          ∀ k e, ((callerNew [f] ioS).calls ks).todo ≠ [] →
            (frameSend ((callerNew [f] ioS).calls ks).ctx
              (pieceIocb f ((callerNew [f] ioS).calls ks).off k)
              ((callerNew [f] ioS).calls ks).io).1 = .error e → e = .wantWrite := by
  obtain ⟨f, hv, hseen, bs, hdel, heq⟩ := recvFrame_encode ready_new (d := .head) rfl h
  rw [Dec.octets, List.nil_append, List.nil_append] at heq
  have hfits : f.Fits := ⟨hv.1, fun hc => (hv.2 hc).2⟩
  refine ⟨f, hseen, by rw [hdel.received, heq, List.append_assoc], ?_⟩
  intro ioS rest hob hm hkeys
  subst hseen
  refine ⟨frameSend_all hfits hm hkeys, fun ks => ?_⟩
  have hu : Uniform f.key.isSome [f] := by
    intro g hg
    rw [List.mem_singleton.1 hg]
    exact ⟨hfits, rfl⟩
  have hkeys' : ioS.masks.filterMap id = [f].filterMap Frame.key ++ rest := by
    rw [hkeys]
    cases hk : f.key <;> simp [hk]
  obtain ⟨hpre, -⟩ := calls_encode hu hob hkeys' ks
  rw [List.flatMap_singleton] at hpre
  have hnew : (callerNew [f] ioS).Stands f.key.isSome ioS.wire rest [] := callerNew_stands hkeys'
  obtain ⟨finished, hsplit, hs⟩ := hnew.calls hu hob ks
  obtain ⟨hm', hob'⟩ := hnew.masks hu hob hm ks
  have hsplit' : finished ++ ((callerNew [f] ioS).calls ks).todo = [f] := hsplit
  generalize (callerNew [f] ioS).calls ks = t at hpre hs hm' hob' hsplit' ⊢
  refine ⟨hpre, ?_, ?_⟩
  · have hlen := length_encode_frame f
    have hpos : 0 < f.header.encode.length := by simp [Header.encode]
    have hshort : ∀ bs, bs.length < f.encode.length → ioS.wire ++ bs ≠ ioS.wire ++ f.encode := by
      intro bs hlt heq
      rw [List.append_cancel_left_eq] at heq
      rw [heq] at hlt
      exact absurd hlt (Nat.lt_irrefl _)
    cases hs with
    | within g gs m hcons hlt _ _ _ hwire _ _ =>
      obtain ⟨rfl, rfl, rfl⟩ : finished = [] ∧ g = f ∧ gs = [] := by
        rw [hcons] at hsplit'
        cases finished with
        | nil =>
          rw [List.nil_append, List.cons.injEq] at hsplit'
          exact ⟨rfl, hsplit'⟩
        | cons x xs => simp at hsplit'
      rw [hwire, hcons]
      refine ⟨fun hnil => (by cases hnil), fun heq => absurd heq ?_⟩
      rw [List.flatMap_nil, List.append_nil]
      exact hshort _ (by rw [List.length_take]; omega)
    | between _ _ _ hwire _ _ =>
      cases htodo : t.todo with
      | nil =>
        rw [htodo, List.append_nil] at hsplit'
        rw [hwire, hsplit', List.flatMap_singleton]
        exact ⟨fun _ => rfl, fun _ => rfl⟩
      | cons g gs =>
        have hnone : finished = [] := by
          rw [htodo] at hsplit'
          cases finished with
          | nil => rfl
          | cons x xs => simp at hsplit'
        rw [hwire, hnone]
        refine ⟨fun hnil => (by cases hnil), fun heq => absurd heq ?_⟩
        rw [List.flatMap_nil]
        exact hshort [] (by rw [List.length_nil]; omega)
  · intro k e hne herr
    cases htodo : t.todo with
    | nil => exact absurd htodo hne
    | cons g gs =>
      have hg : g = f := by
        rw [htodo] at hsplit'
        cases finished with
        | nil =>
          rw [List.nil_append, List.cons.injEq] at hsplit'
          exact hsplit'.1
        | cons x xs => simp at hsplit'
      subst hg
      exact (hs.answers htodo hfits hob' hm' k).1 e herr

/-- A masked frame, with an octet of the next one behind it. -/
def reencodedIo : Io := { recvs := [.data [129], .data [130, 1, 2, 3, 4, 6], .data [10, 129]] }

theorem frame_reencoded_masked :
    ∃ c io, recvFrame 5 [] FrameContext.new reencodedIo = some (⟨1, 0, 1, true, [7, 8]⟩, c, io) ∧
      ∃ f : Frame, f.seen = ⟨1, 0, 1, true, [7, 8]⟩ ∧ io.received = f.encode ++ c.avail := by
  obtain ⟨c, io, h⟩ : ∃ c io,
      recvFrame 5 [] FrameContext.new reencodedIo = some (⟨1, 0, 1, true, [7, 8]⟩, c, io) :=
    ⟨_, _, rfl⟩
  obtain ⟨f, hseen, hreceived, -⟩ := frame_reencoded h
  exact ⟨c, io, h, f, hseen, hreceived⟩

end Wslay
