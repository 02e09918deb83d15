import Wslay.Frame.DecodeRun
import Wslay.Frame.Encoding

/-!
# From `wslay_frame_send` to `wslay_frame_recv`

Frames are sent one after the other on one context, whatever pieces
`send_callback` cuts them into, and what arrives is received on another, again
in any pieces.

The encoder never clears `omask`.  An unmasked frame that follows a masked one
is announced as unmasked, and yet its payload is combined with the key of the
masked one (`distort`).  `roundTrip_iff` says exactly when that does no harm.

* `sendFrames` — the application that sends a list of frames.
* `reassemble` — the application that puts the pieces received together.
* `roundTrip_iff` — what is received is what was sent, under the exact
  condition `NoStaleKey`.
-/

namespace Wslay

open Octets (Key)

/-! ## The sending application -/

/-- The control block for a frame of whose payload `off` octets have been sent. -/
def frameIocb (f : Frame) (off : Nat) : Iocb where
  fin := UInt8.ofNat f.fin.toNat
  rsv := UInt8.ofNat f.rsv.val
  opcode := UInt8.ofNat f.opcode.val
  mask := f.key.isSome
  data := f.payload.drop off
  payloadLength := f.payload.length

/-- Send a frame, of whose payload `off` octets have been sent, with at most the
given number of calls of `wslay_frame_send`; none if it does not get through. -/
def sendFrame (f : Frame) : Nat → Nat → FrameContext → Io → Option (FrameContext × Io)
  | 0, _, _, _ => none
  | fuel + 1, off, c, io =>
    match frameSend c (frameIocb f off) io with
    | (.ok n, c, io) =>
      if off + n = f.payload.length then some (c, io) else sendFrame f fuel (off + n) c io
    | (.error e, c, io) => if e = .wantWrite then sendFrame f fuel off c io else none

/-- Send frames one after the other. -/
def sendFrames (fuel : Nat) : List Frame → FrameContext → Io → Option (FrameContext × Io)
  | [], c, io => some (c, io)
  | f :: fs, c, io =>
    match sendFrame f fuel 0 c io with
    | none => none
    | some (c, io) => sendFrames fuel fs c io

/-! ## What it puts on the wire -/

theorem header_frameIocb (f : Frame) (off : Nat) : (frameIocb f off).header f.key = f.header := by
  obtain ⟨fin, rsv, opcode, key, payload⟩ := f
  have hrsv := rsv.isLt
  have hop := opcode.isLt
  have h1 : ((UInt8.ofNat fin.toNat).toNat % 2 == 1) = fin := by cases fin <;> rfl
  have h2 : (UInt8.ofNat rsv.val).toNat % 8 = rsv.val := by
    rw [UInt8.toNat_ofNat']
    omega
  have h3 : (UInt8.ofNat opcode.val).toNat % 16 = opcode.val := by
    rw [UInt8.toNat_ofNat']
    omega
  simp only [frameIocb, Iocb.header, Frame.header, h1, h2, h3]

theorem sendable_frameIocb {f : Frame} (hv : f.header.Valid) (off : Nat) :
    (frameIocb f off).Sendable := by
  refine ⟨hv.1, fun hc => (hv.2 ?_).2⟩
  have h := isCtrlFrame_ofNat f.opcode
  rw [show isCtrlFrame (UInt8.ofNat f.opcode.val) = true from hc] at h
  exact h.symm

/-- What is left of a run that sends `f`, after a call with result `r`. -/
def sendFrameRest (f : Frame) (fuel off : Nat) (r : Except Err Nat × FrameContext × Io) :
    Option (FrameContext × Io) :=
  match r with
  | (.ok n, c, io) =>
    if off + n = f.payload.length then some (c, io) else sendFrame f fuel (off + n) c io
  | (.error e, c, io) => if e = .wantWrite then sendFrame f fuel off c io else none

theorem sendFrame_succ (f : Frame) (fuel off : Nat) (c : FrameContext) (io : Io) :
    sendFrame f (fuel + 1) off c io =
      sendFrameRest f fuel off (frameSend c (frameIocb f off) io) := rfl

/-- A run from `c`, `io` has put the octets `bs` on the wire, and has ended with
no frame in progress. -/
structure Sent (c : FrameContext) (io : Io) (bs : List UInt8) (s : FrameContext × Io) : Prop where
  wire : s.2.wire = io.wire ++ bs
  view : EncView s.1 .idle
  key : s.1.effKey = c.effKey
  masks : s.2.masks = io.masks
  willing : s.2.Willing

/-- With at most `fuel` calls, what is left of a frame in progress reaches the
wire, if the run ends. -/
def SendsRest (f : Frame) (fuel : Nat) : Prop :=
  ∀ {off : Nat} {c : FrameContext} {io : Io} {hrest : List UInt8} {s : FrameContext × Io},
    EncView c (.busy f.payload.length hrest off) → off ≤ f.payload.length → io.Willing →
    sendFrame f fuel off c io = some s →
    Sent c io (hrest ++ maskWith c.effKey off (f.payload.drop off)) s

/-- A run that goes on after one of its calls. -/
theorem Sent.of_emits {f : Frame} {fuel off m : Nat} {c : FrameContext} {io : Io}
    {hrest : List UInt8} {r : Except Err Nat × FrameContext × Io} {s : FrameContext × Io}
    (ih : SendsRest f fuel) (hoff : off ≤ f.payload.length)
    (he : Emits c io f.payload.length hrest off (f.payload.drop off) r m) (hw : io.Willing)
    (hs : sendFrameRest f fuel off r = some s) :
    Sent c io (hrest ++ maskWith c.effKey off (f.payload.drop off)) s := by
  obtain ⟨r₁, c₁, io₁⟩ := r
  obtain ⟨hw₁, hgood⟩ := he.willing hw
  have hres := he.result.resolve_left fun hbad => hgood hbad.1
  have hview := he.view
  have hkey := he.key
  have ht := he.transmits
  have hle := he.le
  rw [List.length_drop] at hle
  simp only at hres hview hkey ht hw₁
  -- what a later run adds to what the call has put on the wire
  have hthen : ∀ (hrest' : List UInt8) (off' : Nat),
      Enc.after f.payload.length hrest off m = .busy f.payload.length hrest' off' →
      off' ≤ f.payload.length → sendFrame f fuel off' c₁ io₁ = some s →
      (hrest ++ maskWith c.effKey off (f.payload.drop off)).take m ++
        (hrest' ++ maskWith c.effKey off' (f.payload.drop off')) =
        hrest ++ maskWith c.effKey off (f.payload.drop off) →
      Sent c io (hrest ++ maskWith c.effKey off (f.payload.drop off)) s := by
    intro hrest' off' hafter hle' hrun hsplit
    rw [hafter] at hview
    have hsent := ih hview hle' hw₁ hrun
    refine ⟨?_, hsent.view, hsent.key.trans hkey, hsent.masks.trans ht.masks, hsent.willing⟩
    rw [hsent.wire, ht.wire, List.append_assoc, hkey, hsplit]
  by_cases hhead : m < hrest.length
  · -- the header has not been sent completely
    rw [if_pos (Or.inl hhead)] at hres
    subst hres
    simp only [sendFrameRest, if_true] at hs
    refine hthen _ _ (by rw [Enc.after, if_pos hhead]) hoff hs ?_
    rw [List.take_append_of_le_length (Nat.le_of_lt hhead), ← List.append_assoc,
      List.take_append_drop]
  · by_cases hblock : m = hrest.length ∧ f.payload.drop off ≠ []
    · -- the header has been sent, and nothing of the payload
      obtain ⟨rfl, hne⟩ := hblock
      have hlt : off < f.payload.length := by
        by_contra h
        exact hne (List.drop_eq_nil_of_le (by omega))
      rw [if_pos (Or.inr ⟨rfl, hne⟩)] at hres
      subst hres
      simp only [sendFrameRest, if_true] at hs
      refine hthen [] off ?_ hoff hs ?_
      · rw [Enc.after, if_neg (by omega), if_neg (by omega)]
        simp
      · rw [List.take_left' rfl, List.nil_append]
    · -- some of the payload has been sent, or there is none
      rw [if_neg (by tauto)] at hres
      subst hres
      obtain ⟨n, rfl⟩ : ∃ n, m = hrest.length + n := ⟨m - hrest.length, by omega⟩
      have htake : (hrest ++ maskWith c.effKey off (f.payload.drop off)).take (hrest.length + n) =
          hrest ++ maskWith c.effKey off ((f.payload.drop off).take n) := by
        rw [List.take_append, List.take_of_length_le (by omega), Nat.add_sub_cancel_left,
          maskWith_take]
      simp only [sendFrameRest, Nat.add_sub_cancel_left] at hs
      by_cases hend : off + n = f.payload.length
      · rw [if_pos hend] at hs
        cases hs
        rw [Enc.after, if_neg hhead, if_pos (by omega)] at hview
        refine ⟨?_, hview, hkey, ht.masks, hw₁⟩
        rw [ht.wire, htake, List.take_of_length_le (by rw [List.length_drop]; omega)]
      · rw [if_neg hend] at hs
        refine hthen [] (off + n) ?_ (by omega) hs ?_
        · rw [Enc.after, if_neg hhead, if_neg (by omega), Nat.add_sub_cancel_left]
        · have hlen : ((f.payload.drop off).take n).length = n := by
            rw [List.length_take, List.length_drop]
            omega
          rw [htake, List.nil_append, List.append_assoc]
          congr 1
          conv_rhs => rw [← List.take_append_drop n (f.payload.drop off)]
          rw [maskWith_append, hlen, List.drop_drop]

theorem sendsRest (f : Frame) (fuel : Nat) : SendsRest f fuel := by
  induction fuel with
  | zero =>
    intro off c io hrest s _ _ _ hs
    cases hs
  | succ fuel ih =>
    intro off c io hrest s hv hoff hw hs
    rw [sendFrame_succ] at hs
    have hle : (frameIocb f off).data.length ≤ (frameIocb f off).payloadLength := by
      simp [frameIocb]
    have hdata : off + (frameIocb f off).data.length ≤ f.payload.length := by
      simp only [frameIocb, List.length_drop]
      omega
    obtain ⟨m, he⟩ := frameSend_busy hv hle hdata io
    exact Sent.of_emits ih hoff he hw hs

/-- The key that a frame is in fact masked with, when `stale` is the key left by
the frames before it. -/
def sendKey (stale : Option Key) (f : Frame) : Option Key := if f.key.isSome then f.key else stale

/-- The frame that the octets on the wire stand for. -/
def distortFrame (stale : Option Key) (f : Frame) : Frame :=
  { f with payload := f.header.mask 0 (maskWith (sendKey stale f) 0 f.payload) }

/-- The frames that the octets on the wire stand for. -/
def distort : Option Key → List Frame → List Frame
  | _, [] => []
  | stale, f :: fs => distortFrame stale f :: distort (sendKey stale f) fs

theorem header_distortFrame (stale : Option Key) (f : Frame) :
    (distortFrame stale f).header = f.header := by
  simp [distortFrame, Frame.header]

theorem encode_distortFrame (stale : Option Key) (f : Frame) :
    (distortFrame stale f).encode =
      f.header.encode ++ maskWith (sendKey stale f) 0 f.payload := by
  rw [Frame.encode, header_distortFrame]
  simp [distortFrame]

/-- `genmask_callback` gives the keys of the frames, in order. -/
def keysOf (fs : List Frame) : List (Option Key) := (fs.filterMap Frame.key).map some

/-- One frame reaches the wire. -/
theorem sendFrame_sent {f : Frame} (hv : f.header.Valid) {fuel : Nat} {c : FrameContext} {io : Io}
    {s : FrameContext × Io} {ms : List (Option Key)} (hidle : EncView c .idle) (hw : io.Willing)
    (hm : io.masks = (f.key.toList.map some) ++ ms) (hs : sendFrame f fuel 0 c io = some s) :
    s.2.wire = io.wire ++ (distortFrame c.effKey f).encode ∧ EncView s.1 .idle ∧
      s.1.effKey = sendKey c.effKey f ∧ s.2.masks = ms ∧ s.2.Willing := by
  cases fuel with
  | zero => cases hs
  | succ fuel =>
    rw [sendFrame_succ] at hs
    -- the key that the call obtains is that of the frame
    obtain ⟨io₁, hgen, hw₁, hm₁, hwire₁⟩ : ∃ io₁, io.keyFor (frameIocb f 0).mask = (f.key, io₁) ∧
        io₁.Willing ∧ io₁.masks = ms ∧ io₁.wire = io.wire := by
      rw [Io.keyFor]
      change ∃ io₁, (if f.key.isSome then _ else _) = _ ∧ _
      cases hk : f.key with
      | none => exact ⟨io, rfl, hw, by simpa [hk] using hm, rfl⟩
      | some k =>
        rw [hk] at hm
        have hg : io.genmaskCallback = (some k, { io with masks := ms }) := by
          rw [Io.genmaskCallback, hm]
          rfl
        have hw' := genmask_willing hw
        rw [hg] at hw'
        exact ⟨_, hg, hw', rfl, rfl⟩
    have hle : (frameIocb f 0).data.length ≤ (frameIocb f 0).payloadLength := by
      simp [frameIocb]
    rcases frameSend_idle hidle hle io with
      ⟨hno, -⟩ | ⟨-, ⟨hno, -⟩ | ⟨-, m, he⟩⟩
    · exact absurd (sendable_frameIocb hv 0) hno
    · exact absurd hw hno
    · rw [hgen, header_frameIocb] at he
      have hsent := Sent.of_emits (sendsRest f fuel) (Nat.zero_le _) he hw₁ hs
      have hkey := c.effKey_prepared (frameIocb f 0) f.key
      refine ⟨?_, hsent.view, hsent.key.trans hkey, hsent.masks.trans hm₁, hsent.willing⟩
      rw [hsent.wire, hwire₁, hkey, encode_distortFrame, List.drop_zero]
      rfl

/-- **What a run of the sender puts on the wire.** -/
theorem sendFrames_sent {fs : List Frame} (hv : ∀ f ∈ fs, f.header.Valid) {fuel : Nat}
    {c : FrameContext} {io : Io} {s : FrameContext × Io} (hidle : EncView c .idle)
    (hw : io.Willing) (hm : io.masks = keysOf fs) (hs : sendFrames fuel fs c io = some s) :
    s.2.wire = io.wire ++ (distort c.effKey fs).flatMap Frame.encode := by
  induction fs generalizing c io with
  | nil =>
    cases hs
    simp [distort]
  | cons f fs ih =>
    rw [sendFrames] at hs
    cases hone : sendFrame f fuel 0 c io with
    | none =>
      rw [hone] at hs
      cases hs
    | some s₁ =>
      rw [hone] at hs
      have hm' : io.masks = f.key.toList.map some ++ keysOf fs := by
        rw [hm, keysOf, keysOf]
        cases hk : f.key <;> simp [hk]
      obtain ⟨hwire, hidle₁, hkey, hm₁, hw₁⟩ :=
        sendFrame_sent (hv f (List.mem_cons_self ..)) hidle hw hm' hone
      rw [ih (fun g hg => hv g (List.mem_cons_of_mem _ hg)) hidle₁ hw₁ hm₁ hs, hwire, hkey,
        distort, List.flatMap_cons, List.append_assoc]

/-! ## The receiving application -/

/-- A frame, as the receiver sees it. -/
structure Seen where
  fin : UInt8
  rsv : UInt8
  opcode : UInt8
  mask : Bool
  payload : List UInt8
  deriving DecidableEq, Repr

/-- How a frame should be seen. -/
def Frame.seen (f : Frame) : Seen where
  fin := UInt8.ofNat f.fin.toNat
  rsv := UInt8.ofNat f.rsv.val
  opcode := UInt8.ofNat f.opcode.val
  mask := f.key.isSome
  payload := f.payload

/-- The pieces among some results. -/
def piecesOf (rs : List (Except Err Iocb)) : List Iocb :=
  rs.filterMap fun
    | .ok iocb => some iocb
    | .error _ => none

/-- Put pieces together to frames; `acc` is what there is of the current one. -/
def reassemble : List UInt8 → List Iocb → List Seen
  | _, [] => []
  | acc, p :: ps =>
    if (acc ++ p.data).length = p.payloadLength then
      ⟨p.fin, p.rsv, p.opcode, p.mask, acc ++ p.data⟩ :: reassemble [] ps
    else reassemble (acc ++ p.data) ps

theorem piecesOf_answers (rs : List (Except Err Iocb)) : piecesOf (answers rs) = piecesOf rs := by
  induction rs with
  | nil => rfl
  | cons r rs ih =>
    unfold answers piecesOf at ih ⊢
    rcases r with e | iocb
    · cases e <;> simpa [List.filter_cons, isAnswer] using ih
    · simpa [List.filter_cons, isAnswer] using ih

theorem piecesOf_map_ok (ps : List Iocb) : piecesOf (ps.map .ok) = ps := by
  induction ps with
  | nil => rfl
  | cons p ps ih =>
    unfold piecesOf at ih ⊢
    simp

/-- The pieces of the end of a payload complete the frame. -/
theorem reassemble_piecesOf {h : Header} {ps : List Iocb} {data acc : List UInt8}
    (hp : PiecesOf h data ps) (hne : ps ≠ []) (hlen : acc.length + data.length = h.length)
    (rest : List Iocb) :
    reassemble acc (ps ++ rest) = (Frame.ofHeader h (acc ++ data)).seen :: reassemble [] rest := by
  induction ps generalizing acc data with
  | nil => exact absurd rfl hne
  | cons p ps ih =>
    have hhead := hp.header p (List.mem_cons_self ..)
    have hdata := hp.data
    rw [List.flatMap_cons] at hdata
    have hlen7 : p.payloadLength = h.length := by rw [hhead]; rfl
    have hpos : 0 < p.data.length :=
      List.length_pos_of_ne_nil (hp.nonempty p (List.mem_cons_self ..))
    have htail : PiecesOf h (ps.flatMap Iocb.data) ps :=
      ⟨fun q hq => hp.header q (List.mem_cons_of_mem _ hq), rfl,
        fun q hq => hp.nonempty q (List.mem_cons_of_mem _ hq)⟩
    have hsum : p.data.length + (ps.flatMap Iocb.data).length = data.length := by
      rw [← hdata, List.length_append]
    rw [List.cons_append, reassemble, hlen7]
    by_cases hps : ps = []
    · subst hps
      have hall : acc ++ p.data = acc ++ data := by
        rw [← hdata]
        simp
      rw [hall, if_pos (by rw [List.length_append]; exact hlen), List.nil_append, hhead]
      rfl
    · have hmore : 0 < (ps.flatMap Iocb.data).length := by
        refine List.length_pos_of_ne_nil fun hnil => hps ?_
        rw [hnil] at htail
        exact htail.eq_nil
      rw [if_neg (by rw [List.length_append]; omega), ih htail hps (by
        rw [List.length_append]
        omega), List.append_assoc, hdata]

/-- The pieces of whole frames are put together to these frames. -/
theorem reassemble_whole {fs : List Frame} {gs : List (List Iocb)}
    (hg : List.Forall₂ Whole fs gs) : reassemble [] gs.flatten = fs.map Frame.seen := by
  induction hg with
  | nil => rfl
  | @cons f g fs gs hw _ ih =>
    rw [List.flatten_cons, List.map_cons, ← ih]
    unfold Whole at hw
    split_ifs at hw with hnil
    · subst hw
      obtain ⟨fin, rsv, opcode, key, payload⟩ := f
      simp only at hnil
      subst hnil
      rfl
    · have hne : g ≠ [] := by
        rintro rfl
        exact hnil hw.data.symm
      rw [reassemble_piecesOf hw hne (by simp) gs.flatten]
      rfl

/-- A stream of complete frames is put together to these frames. -/
theorem reassemble_shows {fs : List Frame} {as : List (Except Err Iocb)}
    (hs : Shows fs (.header []) as) : reassemble [] (piecesOf as) = fs.map Frame.seen := by
  obtain ⟨gs, g, es, rfl, hgs, rfl, rfl⟩ := hs
  rw [List.append_nil, List.append_nil, piecesOf_map_ok, reassemble_whole hgs]

/-! ## The round trip -/

/-- The last key among those of some frames. -/
def lastKey (fs : List Frame) : Option Key := (fs.filterMap Frame.key).getLast?

/-- No unmasked frame has payload where the last key before it is not zero. -/
def NoStaleKey (fs : List Frame) : Prop :=
  ∀ as f bs k, fs = as ++ f :: bs → f.key = none → lastKey as = some k →
    ∀ i < f.payload.length, k.get i = 0

/-- `NoStaleKey` for frames that come after a frame with key `stale`. -/
def CleanAfter : Option Key → List Frame → Prop
  | _, [] => True
  | stale, f :: fs =>
    (f.key = none → ∀ k, stale = some k → ∀ i < f.payload.length, k.get i = 0) ∧
      CleanAfter (sendKey stale f) fs

theorem seen_distortFrame (stale : Option Key) (f : Frame) :
    (distortFrame stale f).seen = f.seen ↔
      (f.key = none → ∀ k, stale = some k → ∀ i < f.payload.length, k.get i = 0) := by
  have hseen : (distortFrame stale f).seen = f.seen ↔
      f.header.mask 0 (maskWith (sendKey stale f) 0 f.payload) = f.payload := by
    simp [Frame.seen, distortFrame]
  rw [hseen]
  cases hk : f.key with
  | some k =>
    have hkey : sendKey stale f = f.header.key := by
      rw [sendKey, hk]
      exact hk.symm
    rw [hkey, maskWith_key, Header.mask_mask]
    simp
  | none =>
    have hkey : sendKey stale f = stale := by
      rw [sendKey, hk]
      rfl
    have hmask : ∀ bs, f.header.mask 0 bs = bs := by
      intro bs
      have hnone : f.header.key = none := hk
      rw [Header.mask, hnone]
    rw [hkey, hmask]
    cases stale with
    | none => simp [maskWith]
    | some k =>
      have := Octets.xorFrom_eq_self_iff k 0 f.payload
      simp only [Nat.zero_add] at this
      simpa [maskWith] using this

theorem seen_distort (stale : Option Key) (fs : List Frame) :
    (distort stale fs).map Frame.seen = fs.map Frame.seen ↔ CleanAfter stale fs := by
  induction fs generalizing stale with
  | nil => simp [distort, CleanAfter]
  | cons f fs ih =>
    rw [distort, List.map_cons, List.map_cons, List.cons.injEq, seen_distortFrame, ih, CleanAfter]

theorem lastKey_cons (f : Frame) (fs : List Frame) :
    lastKey (f :: fs) = if (lastKey fs).isSome then lastKey fs else f.key := by
  unfold lastKey
  cases hk : f.key with
  | none => cases h : (fs.filterMap Frame.key).getLast? <;> simp [hk, h]
  | some k =>
    rw [List.filterMap_cons_some hk, List.getLast?_cons]
    cases h : (fs.filterMap Frame.key).getLast? <;> simp

theorem cleanAfter_iff (stale : Option Key) (fs : List Frame) :
    CleanAfter stale fs ↔ ∀ as f bs k, fs = as ++ f :: bs → f.key = none →
      (if (lastKey as).isSome then lastKey as else stale) = some k →
        ∀ i < f.payload.length, k.get i = 0 := by
  induction fs generalizing stale with
  | nil => simp [CleanAfter]
  | cons f fs ih =>
    rw [CleanAfter, ih]
    have hkey : ∀ as : List Frame, (if (lastKey (f :: as)).isSome then lastKey (f :: as) else stale) =
        if (lastKey as).isSome then lastKey as else sendKey stale f := by
      intro as
      rw [lastKey_cons, sendKey]
      by_cases h : (lastKey as).isSome = true
      · simp only [h, if_true]
      · simp only [h, Bool.false_eq_true, if_false]
    constructor
    · rintro ⟨hone, hrest⟩ as g bs k hsplit hg hk
      cases as with
      | nil =>
        rw [List.nil_append, List.cons.injEq] at hsplit
        obtain ⟨rfl, rfl⟩ := hsplit
        exact hone hg k hk
      | cons a as =>
        rw [List.cons_append, List.cons.injEq] at hsplit
        obtain ⟨rfl, rfl⟩ := hsplit
        rw [hkey] at hk
        exact hrest as g bs k rfl hg hk
    · intro h
      refine ⟨fun hf k hk => h [] f fs k rfl hf hk, fun as g bs k hsplit hg hk => ?_⟩
      refine h (f :: as) g bs k (by rw [hsplit]; rfl) hg ?_
      rw [hkey]
      exact hk

theorem noStaleKey_iff (fs : List Frame) : NoStaleKey fs ↔ CleanAfter none fs := by
  rw [cleanAfter_iff]
  have hnone : ∀ as : List Frame,
      (if (lastKey as).isSome then lastKey as else none) = lastKey as := by
    intro as
    cases lastKey as <;> rfl
  simp only [hnone]
  rfl

/-- **The round trip**, with its exact condition.  Frames with keys from
`genmask_callback` that have been sent on a fresh context, in whatever pieces,
and received on a fresh context, in whatever pieces, arrive as they were sent if
and only if no unmasked frame has payload where the last key before it is not
zero. -/
theorem roundTrip_iff {fs : List Frame} (hv : ∀ f ∈ fs, f.header.Valid) {fuel n : Nat}
    {ioS ioR : Io} {s : FrameContext × Io} (hw : ioS.Willing) (hm : ioS.masks = keysOf fs)
    (hs : sendFrames fuel fs FrameContext.new ioS = some s)
    (hr : s.2.wire = ioS.wire ++ pendingOctets ioR.recvs)
    (hn : (pendingOctets ioR.recvs).length + ioR.recvs.length < n) :
    reassemble [] (piecesOf (frameRecvs n FrameContext.new ioR).1) = fs.map Frame.seen ↔
      NoStaleKey fs := by
  have hsent := sendFrames_sent hv (.idle rfl) hw hm hs
  have hnone : FrameContext.new.effKey = none := rfl
  rw [hnone, hr, List.append_cancel_left_eq] at hsent
  have hvalid : ∀ stale gs, (∀ f ∈ gs, f.header.Valid) → ∀ f ∈ distort stale gs, f.header.Valid := by
    intro stale gs hgs
    induction gs generalizing stale with
    | nil => simp [distort]
    | cons g gs ih =>
      intro f hf
      rw [distort, List.mem_cons] at hf
      rcases hf with rfl | hf
      · rw [header_distortFrame]
        exact hgs g (List.mem_cons_self ..)
      · exact ih _ (fun h hh => hgs h (List.mem_cons_of_mem _ hh)) f hf
  obtain ⟨as, hfin, -, hall⟩ := frameRecvs_finish ready_new ioR
  have hshow := hfin [] [] ⟨rfl, rfl⟩
  have hdec := decodeStream_flatMap (hvalid none fs hv) []
  have hend : decodeStream [] = ([], .header []) := decodeStream_more rfl
  rw [List.append_nil, ← hsent, hend, List.append_nil] at hdec
  change Shows (decodeStream (pendingOctets ioR.recvs)).1 (decodeStream (pendingOctets ioR.recvs)).2
    as at hshow
  rw [hdec] at hshow
  have has := hall n (by
    rw [outstanding, List.length_nil]
    omega)
  rw [← piecesOf_answers, has, reassemble_shows hshow, seen_distort, noStaleKey_iff]

/-- A masked frame, and an unmasked one whose payload is under the key of the
first. -/
def staleFrames : List Frame :=
  [⟨true, 0, 1, some ⟨1, 2, 3, 4⟩, [7]⟩, ⟨true, 0, 1, none, [5]⟩]

/-- A world whose `genmask_callback` gives the keys of `staleFrames`. -/
def staleIo : Io := { masks := keysOf staleFrames, sends := List.replicate 4 (.accept 100) }

/-- The octets that sending `staleFrames` puts on the wire. -/
def staleWire : List UInt8 := [129, 129, 1, 2, 3, 4, 6, 129, 1, 4]

/-- The second frame arrives as `[4]`, and not as `[5]`. -/
theorem staleFrames_garbled :
    (∀ f ∈ staleFrames, f.header.Valid) ∧ staleIo.masks = keysOf staleFrames ∧
      (sendFrames 4 staleFrames FrameContext.new staleIo).map (fun s => s.2.wire) = some staleWire ∧
      reassemble [] (piecesOf (frameRecvs 30 FrameContext.new { recvs := [.data staleWire] }).1) =
        [⟨1, 0, 1, true, [7]⟩, ⟨1, 0, 1, false, [4]⟩] ∧
      reassemble [] (piecesOf (frameRecvs 30 FrameContext.new { recvs := [.data staleWire] }).1) ≠
        staleFrames.map Frame.seen := by
  decide +kernel

theorem roundTrip_iff_staleFrames :
    reassemble [] (piecesOf (frameRecvs 30 FrameContext.new { recvs := [.data staleWire] }).1) =
        staleFrames.map Frame.seen ↔
      NoStaleKey staleFrames := by
  have hw : staleIo.Willing := by
    refine ⟨Or.inl rfl, ?_, by decide⟩
    intro r hr
    rw [List.eq_of_mem_replicate hr]
    trivial
  obtain ⟨s, hs, hwire⟩ : ∃ s, sendFrames 4 staleFrames FrameContext.new staleIo = some s ∧
      s.2.wire = staleWire :=
    ⟨_, (Option.some_get (by decide +kernel)).symm, by decide +kernel⟩
  exact roundTrip_iff (by decide +kernel) hw rfl hs hwire (by decide)

end Wslay
