import Wslay.Frame.Bits
import Wslay.Frame.Send

/-!
# What one call of `wslay_frame_send` does

The resumable encoder, seen from outside.  Between two calls it has no frame in
progress, or it has, and then it owes the end of a header and, after some
octets of payload, the rest of that (`Enc`).

* `Transmits` — the effect of calls of `send_callback` on the world.
* `EncView` — the states of the code that stand for an `Enc`.
* `sendPrepHeader_spec` — a header is prepared: it is the encoding the format
  asks for.
* `frameSend_busy` — a call on a frame in progress puts some number of the
  octets it owes on the wire.
-/

namespace Wslay

open Octets (Key beBytes xorFrom)

/-! ## The effect of `send_callback` -/

/-- From `io` to `io'` nothing happened but calls of `send_callback`, which took
`bs`. -/
structure Transmits (io : Io) (bs : List UInt8) (io' : Io) : Prop where
  wire : io'.wire = io.wire ++ bs
  sends : io'.sends <:+ io.sends
  recvs : io'.recvs = io.recvs
  received : io'.received = io.received
  masks : io'.masks = io.masks
  mem : io'.mem = io.mem
  apps : io'.apps = io.apps
  calls : io'.calls = io.calls
  queued : io'.queued = io.queued
  discarded : io'.discarded = io.discarded

theorem Transmits.refl (io : Io) : Transmits io [] io := by
  constructor <;> simp [List.suffix_rfl]

theorem Transmits.trans {io io' io'' : Io} {as bs : List UInt8} (h : Transmits io as io')
    (h' : Transmits io' bs io'') : Transmits io (as ++ bs) io'' where
  wire := by rw [h'.wire, h.wire, List.append_assoc]
  sends := h'.sends.trans h.sends
  recvs := h'.recvs.trans h.recvs
  received := h'.received.trans h.received
  masks := h'.masks.trans h.masks
  mem := h'.mem.trans h.mem
  apps := h'.apps.trans h.apps
  calls := h'.calls.trans h.calls
  queued := h'.queued.trans h.queued
  discarded := h'.discarded.trans h.discarded

/-- `send_callback` never claims to have taken more than it was offered. -/
def Io.Obeys (io : Io) : Prop := ∀ r ∈ io.sends, ∀ n, r ≠ .overrun n

theorem Transmits.obeys {io io' : Io} {bs : List UInt8} (h : Transmits io bs io')
    (ho : io.Obeys) : io'.Obeys :=
  fun r hr => ho r (h.sends.subset hr)

/-- The callback keeps its contract, and fails only by blocking. -/
def SendResult.Willing : SendResult → Prop
  | .accept _ => True
  | .overrun _ => False
  | .fail none => True
  | .fail (some e) => e = 0 ∨ e = Err.wouldblock.code

/-- The callbacks that sending depends on keep their contracts, and no error but
blocking is set. -/
structure Io.Willing (io : Io) : Prop where
  error : io.error = 0 ∨ io.error = Err.wouldblock.code
  sends : ∀ r ∈ io.sends, r.Willing
  masks : none ∉ io.masks

theorem Io.Willing.obeys {io : Io} (hw : io.Willing) : io.Obeys := by
  intro r hr n heq
  subst heq
  exact hw.sends _ hr

/-- A call of `send_callback` takes nothing, takes some of what it is offered, or
claims to have taken more than that. -/
theorem sendCallback_cases (io : Io) (offer : Offer) :
    ((io.sendCallback offer).1 ≤ 0 ∧ Transmits io [] (io.sendCallback offer).2 ∨
      (∃ n, 0 < n ∧ n ≤ offer.data.length ∧ (io.sendCallback offer).1 = n ∧
        Transmits io (offer.data.take n) (io.sendCallback offer).2) ∨
      (offer.data.length : Int) < (io.sendCallback offer).1 ∧ ¬ io.Obeys ∧
        Transmits io [] (io.sendCallback offer).2) ∧
    (io.Willing → (io.sendCallback offer).2.Willing) := by
  unfold Io.sendCallback
  cases hs : io.sends with
  | nil =>
    refine ⟨Or.inl ⟨by simp, ⟨by simp, by simp [hs], rfl, rfl, rfl, rfl, rfl, rfl, rfl, rfl⟩⟩,
      fun hw => ?_⟩
    exact ⟨Or.inr rfl, by simp, hw.masks⟩
  | cons s ss =>
    have hrest : io.Willing → ∀ r ∈ ss, r.Willing := fun hw r hr =>
      hw.sends r (by rw [hs]; exact List.mem_cons_of_mem _ hr)
    have hfirst : io.Willing → s.Willing := fun hw => hw.sends s (by simp [hs])
    have hsuf : ss <:+ io.sends := by
      rw [hs]
      exact List.suffix_cons s ss
    cases s with
    | fail e =>
      refine ⟨Or.inl ⟨by simp, ⟨by simp, hsuf, rfl, rfl, rfl, rfl, rfl, rfl, rfl, rfl⟩⟩,
        fun hw => ?_⟩
      refine ⟨?_, hrest hw, hw.masks⟩
      cases e with
      | none => exact hw.error
      | some e => exact hfirst hw
    | overrun n =>
      refine ⟨Or.inr (Or.inr ⟨?_, fun ho => ho (.overrun n) (by simp [hs]) n rfl,
        ⟨by simp, hsuf, rfl, rfl, rfl, rfl, rfl, rfl, rfl, rfl⟩⟩), fun hw => (hfirst hw).elim⟩
      change (offer.data.length : Int) < offer.data.length + 1 + n
      omega
    | accept n =>
      refine ⟨?_, fun hw => ⟨hw.error, hrest hw, hw.masks⟩⟩
      by_cases h0 : min n offer.data.length = 0
      · have hnil : offer.data.take n = [] := by
          rw [← List.length_eq_zero_iff, List.length_take, h0]
        refine Or.inl ⟨?_, ⟨by simp [hnil], hsuf, rfl, rfl, rfl, rfl, rfl, rfl, rfl, rfl⟩⟩
        change (min (n : Int) offer.data.length) ≤ 0
        omega
      · have htake : offer.data.take n = offer.data.take (min n offer.data.length) := by
          rw [List.take_eq_take_iff, Nat.min_assoc, Nat.min_self]
        refine Or.inr (Or.inl ⟨min n offer.data.length, by omega, Nat.min_le_right _ _, ?_,
          ⟨by rw [← htake], hsuf, rfl, rfl, rfl, rfl, rfl, rfl, rfl, rfl⟩⟩)
        change (min (n : Int) offer.data.length) = _
        omega

/-! ## The encoder -/

/-- Where the encoder stands between two calls. -/
inductive Enc where
  /-- No frame is in progress. -/
  | idle
  /-- In a frame with `len` octets of payload, of which `off` have been sent,
  the octets `hrest` of the header are still to be sent. -/
  | busy (len : Nat) (hrest : List UInt8) (off : Nat)
  deriving DecidableEq, Repr

/-- The code stands at an `Enc`. -/
inductive EncView (c : FrameContext) : Enc → Prop where
  | idle : c.ostate = .prepHeader → EncView c .idle
  | header (len : Nat) (hrest : List UInt8) : c.ostate = .sendHeader → c.oheaderRest = hrest →
      hrest ≠ [] → c.opayloadlen = len → c.opayloadoff = 0 → EncView c (.busy len hrest 0)
  | payload (len off : Nat) : c.ostate = .sendPayload → c.opayloadlen = len →
      c.opayloadoff = off → off < len → EncView c (.busy len [] off)

theorem EncView.ostate_ne {c : FrameContext} {len off : Nat} {hrest : List UInt8}
    (hv : EncView c (.busy len hrest off)) : c.ostate ≠ .prepHeader := by
  cases hv with
  | header _ _ h => rw [h]; simp
  | payload _ _ h => rw [h]; simp

/-- The key that the next octets of payload will be combined with. -/
def FrameContext.effKey (c : FrameContext) : Option Key := if c.omask then some c.omaskkey else none

/-- A string from offset `off` of a payload on, combined with the key if there is one. -/
def maskWith (key : Option Key) (off : Nat) (bs : List UInt8) : List UInt8 :=
  match key with
  | some k => xorFrom k off bs
  | none => bs

theorem maskWith_key (h : Header) (off : Nat) (bs : List UInt8) :
    maskWith h.key off bs = h.mask off bs := rfl

@[simp] theorem length_maskWith (key : Option Key) (off : Nat) (bs : List UInt8) :
    (maskWith key off bs).length = bs.length := by
  unfold maskWith
  cases key <;> simp

theorem maskWith_append (key : Option Key) (off : Nat) (as bs : List UInt8) :
    maskWith key off (as ++ bs) = maskWith key off as ++ maskWith key (off + as.length) bs := by
  cases key with
  | none => rfl
  | some k => exact Octets.xorFrom_append k off as bs

theorem maskWith_take (key : Option Key) (off n : Nat) (bs : List UInt8) :
    (maskWith key off bs).take n = maskWith key off (bs.take n) := by
  cases key with
  | none => rfl
  | some k => exact Octets.xorFrom_take k off n bs

theorem maskWith_drop (key : Option Key) (off n : Nat) (bs : List UInt8) :
    (maskWith key off bs).drop n = maskWith key (off + n) (bs.drop n) := by
  cases key with
  | none => rfl
  | some k => exact Octets.xorFrom_drop k off n bs

/-- Where the encoder stands when it has sent `m` octets more. -/
def Enc.after (len : Nat) (hrest : List UInt8) (off m : Nat) : Enc :=
  if m < hrest.length then .busy len (hrest.drop m) off
  else if off + (m - hrest.length) = len then .idle
  else .busy len [] (off + (m - hrest.length))

/-- The call with result `r` on a frame in progress has put `m` octets on the
wire, of the header octets `hrest` and the payload octets `data`. -/
structure Emits (c : FrameContext) (io : Io) (len : Nat) (hrest : List UInt8) (off : Nat)
    (data : List UInt8) (r : Except Err Nat × FrameContext × Io) (m : Nat) : Prop where
  le : m ≤ hrest.length + data.length
  transmits : Transmits io ((hrest ++ maskWith c.effKey off data).take m) r.2.2
  view : EncView r.2.1 (Enc.after len hrest off m)
  key : r.2.1.effKey = c.effKey
  half : r.2.1.recvHalf = c.recvHalf
  result : r.1 = .error .invalidCallback ∧ m < hrest.length + data.length ∨
    r.1 = if m < hrest.length ∨ m = hrest.length ∧ data ≠ [] then .error .wantWrite
      else .ok (m - hrest.length)
  willing : io.Willing → r.2.2.Willing ∧ r.1 ≠ .error .invalidCallback
  obeys : io.Obeys → r.1 ≠ .error .invalidCallback

/-! ## The payload -/

/-- The masking loop sends the front of the payload; it fails when it sends
nothing. -/
theorem sendMaskedLoop_spec (fuel : Nat) (c : FrameContext) (data : List UInt8) (tot : Nat)
    (io : Io) (hfuel : data.length ≤ fuel) :
    ∃ n, n ≤ data.length ∧
      Transmits io ((xorFrom c.omaskkey c.opayloadoff data).take n)
        (sendMaskedLoop fuel c data tot io).2.2 ∧
      (sendMaskedLoop fuel c data tot io).2.1 = { c with opayloadoff := c.opayloadoff + n } ∧
      ((sendMaskedLoop fuel c data tot io).1 = .error .invalidCallback ∧ n < data.length ∧
          ¬ io.Obeys ∨
        (sendMaskedLoop fuel c data tot io).1 =
          if tot + n = 0 ∧ data ≠ [] then .error .wantWrite else .ok (tot + n)) ∧
      (io.Willing → (sendMaskedLoop fuel c data tot io).2.2.Willing) := by
  induction fuel generalizing c data tot io with
  | zero =>
    have hnil : data = [] := List.length_eq_zero_iff.1 (by omega)
    subst hnil
    exact ⟨0, Nat.le_refl _, .refl io, rfl, Or.inr (by simp [sendMaskedLoop]), id⟩
  | succ fuel ih =>
    unfold sendMaskedLoop
    by_cases hnil : data = []
    · subst hnil
      rw [if_pos rfl]
      exact ⟨0, Nat.le_refl _, .refl io, rfl, Or.inr (by simp), id⟩
    · rw [if_neg hnil]
      obtain ⟨hcases, hwill⟩ := sendCallback_cases io
        ⟨xorFrom c.omaskkey c.opayloadoff (data.take tempSize), false, false⟩
      obtain ⟨r, io₁, hcall⟩ : ∃ r io₁, io.sendCallback
          ⟨xorFrom c.omaskkey c.opayloadoff (data.take tempSize), false, false⟩ = (r, io₁) :=
        ⟨_, _, rfl⟩
      have hpos : 0 < data.length := List.length_pos_of_ne_nil hnil
      simp only [hcall, Octets.length_xorFrom] at hcases hwill ⊢
      rcases hcases with ⟨hr, ht⟩ | ⟨n, hn, hle, rfl, ht⟩ | ⟨hr, hnw, ht⟩
      · -- it blocks
        rw [if_neg (by omega)]
        by_cases htot : 0 < tot
        · rw [if_pos htot]
          exact ⟨0, Nat.zero_le _, by simpa using ht, rfl, Or.inr (by simp; omega), hwill⟩
        · rw [if_neg htot]
          exact ⟨0, Nat.zero_le _, by simpa using ht, rfl,
            Or.inr (by rw [if_pos ⟨by omega, hnil⟩]), hwill⟩
      · -- it takes some
        have hle' : n ≤ data.length := by
          rw [List.length_take] at hle
          omega
        rw [if_pos (by omega), if_neg (by omega), Int.toNat_natCast]
        obtain ⟨n', hn', ht', hc', hres, hwill'⟩ :=
          ih { c with opayloadoff := c.opayloadoff + n } (data.drop n) (tot + n) io₁ (by
            rw [List.length_drop]
            omega)
        rw [List.length_drop] at hn'
        have hsplit : (xorFrom c.omaskkey c.opayloadoff (data.take tempSize)).take n ++
            (xorFrom c.omaskkey (c.opayloadoff + n) (data.drop n)).take n' =
            (xorFrom c.omaskkey c.opayloadoff data).take (n + n') := by
          rw [List.take_add, Octets.xorFrom_drop]
          congr 1
          rw [Octets.xorFrom_take, List.take_take, Nat.min_eq_left (by
            rw [List.length_take] at hle
            omega), Octets.xorFrom_take]
        refine ⟨n + n', by omega, by rw [← hsplit]; exact ht.trans ht', ?_, ?_,
          fun hw => hwill' (hwill hw)⟩
        · rw [hc', Nat.add_assoc]
        · rcases hres with ⟨herr, hlt, hnw⟩ | hres
          · rw [List.length_drop] at hlt
            exact Or.inl ⟨herr, by omega, fun ho => hnw (ht.obeys ho)⟩
          · refine Or.inr ?_
            rw [hres, if_neg (by omega), if_neg (by omega), Nat.add_assoc]
      · -- it overruns
        rw [if_pos (by omega), if_pos hr]
        exact ⟨0, Nat.zero_le _, by simpa using ht, rfl, Or.inl ⟨rfl, hpos, hnw⟩, hwill⟩

/-- Masked or not, the front of the payload is sent. -/
theorem sendData_spec (c : FrameContext) (iocb : Iocb) (io : Io) :
    ∃ n, n ≤ iocb.data.length ∧
      Transmits io ((maskWith c.effKey c.opayloadoff iocb.data).take n)
        (sendData c iocb io).2.2 ∧
      (sendData c iocb io).2.1 = { c with opayloadoff := c.opayloadoff + n } ∧
      ((sendData c iocb io).1 = .error .invalidCallback ∧ n < iocb.data.length ∧ ¬ io.Obeys ∨
        (sendData c iocb io).1 =
          if n = 0 ∧ iocb.data ≠ [] then .error .wantWrite else .ok n) ∧
      (io.Willing → (sendData c iocb io).2.2.Willing) := by
  unfold sendData
  by_cases hnil : iocb.data = []
  · rw [if_pos hnil]
    exact ⟨0, Nat.zero_le _, by simpa using .refl io, rfl, Or.inr (by simp [hnil]), id⟩
  · rw [if_neg hnil]
    by_cases hmask : c.omask = true
    · rw [if_pos hmask]
      have hkey : c.effKey = some c.omaskkey := by rw [FrameContext.effKey, if_pos hmask]
      obtain ⟨n, hn, ht, hc, hres, hw⟩ :=
        sendMaskedLoop_spec iocb.data.length c iocb.data 0 io (Nat.le_refl _)
      rw [Nat.zero_add] at hres
      rw [hkey]
      exact ⟨n, hn, ht, hc, hres, hw⟩
    · rw [if_neg hmask]
      have hkey : c.effKey = none := by rw [FrameContext.effKey, if_neg hmask]
      have hpos : 0 < iocb.data.length := List.length_pos_of_ne_nil hnil
      obtain ⟨hcases, hwill⟩ := sendCallback_cases io ⟨iocb.data, false, true⟩
      obtain ⟨r, io₁, hcall⟩ : ∃ r io₁, io.sendCallback ⟨iocb.data, false, true⟩ = (r, io₁) :=
        ⟨_, _, rfl⟩
      simp only [hcall] at hcases hwill ⊢
      rw [hkey]
      rcases hcases with ⟨hr, ht⟩ | ⟨n, hn, hle, rfl, ht⟩ | ⟨hr, hnw, ht⟩
      · rw [if_neg (by omega)]
        exact ⟨0, Nat.zero_le _, by simpa using ht, rfl, Or.inr (by rw [if_pos ⟨rfl, hnil⟩]), hwill⟩
      · rw [if_pos (by omega), if_neg (by omega), Int.toNat_natCast]
        exact ⟨n, hle, ht, rfl, Or.inr (by rw [if_neg (by omega)]), hwill⟩
      · rw [if_pos (by omega), if_pos hr]
        exact ⟨0, Nat.zero_le _, by simpa using ht, rfl, Or.inl ⟨rfl, hpos, hnw⟩, hwill⟩

/-- The last block sends payload, and ends the frame with its last octet. -/
theorem sendPayload_emits {c : FrameContext} {len off : Nat} (hstate : c.ostate = .sendPayload)
    (hlen : c.opayloadlen = len) (hoff : c.opayloadoff = off) (iocb : Iocb)
    (hdata : off + iocb.data.length ≤ len) (io : Io) :
    ∃ n, Emits c io len [] off iocb.data (sendPayload c iocb io) n := by
  obtain ⟨n, hn, ht, hc, hres, hw⟩ := sendData_spec c iocb io
  obtain ⟨r, c₁, io₁, hcall⟩ : ∃ r c₁ io₁, sendData c iocb io = (r, c₁, io₁) := ⟨_, _, _, rfl⟩
  rw [hcall] at ht hc hres hw
  simp only at ht hc hres hw
  rw [hoff] at ht hc
  have hafter : Enc.after len [] off n = if off + n = len then .idle else .busy len [] (off + n) := by
    simp [Enc.after]
  refine ⟨n, ?_⟩
  rw [sendPayload, if_pos hstate, hcall]
  subst hc
  rcases hres with ⟨rfl, hlt, hnw⟩ | rfl
  · -- a broken callback: the frame stays in progress
    have hshort : off + n ≠ len := by omega
    refine ⟨by simpa using hn, by simpa using ht, ?_, rfl, rfl, Or.inl ⟨rfl, by simpa using hlt⟩,
      fun hwill => absurd hwill.obeys hnw, fun ho => absurd ho hnw⟩
    rw [hafter, if_neg hshort]
    exact .payload _ _ hstate hlen rfl (by omega)
  · by_cases hblock : n = 0 ∧ iocb.data ≠ []
    · -- nothing could be sent
      obtain ⟨rfl, hne⟩ := hblock
      have hpos := List.length_pos_of_ne_nil hne
      rw [if_pos ⟨rfl, hne⟩]
      refine ⟨by simp, by simpa using ht, ?_, rfl, rfl, Or.inr (by simp [hne]),
        fun hwill => ⟨hw hwill, by simp⟩, fun _ => by simp⟩
      rw [hafter, if_neg (by omega)]
      exact .payload _ _ hstate hlen rfl (by omega)
    · rw [if_neg hblock]
      have hok : (Except.ok n : Except Err Nat) =
          if n < ([] : List UInt8).length ∨ n = ([] : List UInt8).length ∧ iocb.data ≠ [] then
            .error .wantWrite
          else .ok (n - ([] : List UInt8).length) := by
        rw [if_neg (by simpa using hblock)]
        rfl
      by_cases hend : off + n = len
      · simp only [hlen, if_pos hend]
        refine ⟨by simpa using hn, by simpa using ht, ?_, rfl, rfl, Or.inr hok,
          fun hwill => ⟨hw hwill, by simp⟩, fun _ => by simp⟩
        rw [hafter, if_pos hend]
        exact .idle rfl
      · simp only [hlen, if_neg hend]
        refine ⟨by simpa using hn, by simpa using ht, ?_, rfl, rfl, Or.inr hok,
          fun hwill => ⟨hw hwill, by simp⟩, fun _ => by simp⟩
        rw [hafter, if_neg hend]
        exact .payload _ _ hstate rfl rfl (by omega)

/-! ## The header -/

/-- The blocks from the second on. -/
def fromSendHeader (c : FrameContext) (iocb : Iocb) (io : Io) :
    Except Err Nat × FrameContext × Io :=
  match sendHeader c iocb io with
  | (some e, c, io) => (.error e, c, io)
  | (none, c, io) => sendPayload c iocb io

/-- **A call on a frame in progress** puts some of the octets that are owed on
the wire. -/
theorem fromSendHeader_emits {c : FrameContext} {len off : Nat} {hrest : List UInt8}
    (hv : EncView c (.busy len hrest off)) (iocb : Iocb) (hdata : off + iocb.data.length ≤ len)
    (io : Io) : ∃ m, Emits c io len hrest off iocb.data (fromSendHeader c iocb io) m := by
  cases hv with
  | payload _ _ hstate hlen hoff hlt =>
    rw [fromSendHeader, sendHeader, if_neg (by rw [hstate]; simp)]
    exact sendPayload_emits hstate hlen hoff iocb hdata io
  | header _ _ hstate hrest' hne hlen hoff =>
    have hpos : 0 < hrest.length := List.length_pos_of_ne_nil hne
    have hmark : c.oheader.length = c.oheadermark + hrest.length := by
      have h := congrArg List.length hrest'
      rw [FrameContext.oheaderRest, List.length_drop] at h
      omega
    obtain ⟨hcases, hwill⟩ := sendCallback_cases io ⟨hrest, decide (iocb.data ≠ []), false⟩
    obtain ⟨r, io₁, hcall⟩ : ∃ r io₁, io.sendCallback
        ⟨hrest, decide (iocb.data ≠ []), false⟩ = (r, io₁) := ⟨_, _, rfl⟩
    rw [fromSendHeader, sendHeader, if_pos hstate, hrest']
    simp only [hcall] at hcases hwill ⊢
    have hsame : Enc.after len hrest 0 0 = .busy len hrest 0 := by
      rw [Enc.after, if_pos hpos, List.drop_zero]
    rcases hcases with ⟨hr, ht⟩ | ⟨n, hn, hle, rfl, ht⟩ | ⟨hr, hnw, ht⟩
    · -- it blocks
      rw [if_neg (by omega)]
      refine ⟨0, Nat.zero_le _, by simpa using ht, ?_, rfl, rfl, Or.inr (by simp [hpos]),
        fun hw => ⟨hwill hw, by simp⟩, fun _ => by simp⟩
      rw [hsame]
      exact .header _ _ hstate hrest' hne hlen hoff
    · rw [if_pos (by omega), if_neg (by omega), Int.toNat_natCast]
      by_cases hall : n = hrest.length
      · -- the header is complete, and the payload follows at once
        subst hall
        rw [List.take_length] at ht
        rw [if_pos hmark.symm]
        simp only
        obtain ⟨m, he⟩ := sendPayload_emits (c := { c with
          oheadermark := c.oheadermark + hrest.length, ostate := .sendPayload })
          rfl hlen hoff iocb hdata io₁
        have hle := he.le
        rw [List.length_nil, Nat.zero_add] at hle
        have hafter : Enc.after len hrest 0 (hrest.length + m) = Enc.after len [] 0 m := by
          simp [Enc.after]
        refine ⟨hrest.length + m, by omega, ?_, by rw [hafter]; exact he.view, he.key, he.half, ?_,
          fun hw => he.willing (hwill hw), fun ho => he.obeys (ht.obeys ho)⟩
        · have ht' := ht.trans he.transmits
          rw [List.nil_append] at ht'
          rw [List.take_append, List.take_of_length_le (Nat.le_add_right _ _),
            Nat.add_sub_cancel_left]
          exact ht'
        · rcases he.result with ⟨hbad, hlt⟩ | hres
          · exact Or.inl ⟨hbad, by simpa using hlt⟩
          · refine Or.inr (hres.trans ?_)
            simp
      · -- some of the header is left
        have hlt : n < hrest.length := by omega
        rw [if_neg (by omega)]
        refine ⟨n, by omega, ?_, ?_, rfl, rfl, Or.inr (by simp [hlt]),
          fun hw => ⟨hwill hw, by simp⟩, fun _ => by simp⟩
        · rw [List.take_append_of_le_length (Nat.le_of_lt hlt)]
          exact ht
        · rw [Enc.after, if_pos hlt]
          refine .header _ _ hstate ?_ (by simpa using hlt) hlen hoff
          rw [← hrest', FrameContext.oheaderRest, FrameContext.oheaderRest, List.drop_drop]
    · -- it overruns
      rw [if_pos (by omega), if_pos hr]
      refine ⟨0, Nat.zero_le _, by simpa using ht, ?_, rfl, rfl, Or.inl ⟨rfl, by omega⟩,
        fun hw => absurd hw.obeys hnw, fun ho => absurd ho hnw⟩
      rw [hsame]
      exact .header _ _ hstate hrest' hne hlen hoff

/-! ## The header that is prepared -/

/-- The header that a call with this `iocb` asks for. -/
def Iocb.header (iocb : Iocb) (key : Option Key) : Header where
  fin := iocb.fin.toNat % 2 == 1
  rsv := ⟨iocb.rsv.toNat % 8, Nat.mod_lt _ (by decide)⟩
  opcode := ⟨iocb.opcode.toNat % 16, Nat.mod_lt _ (by decide)⟩
  key := key
  length := iocb.payloadLength

theorem headerOctet_eq (iocb : Iocb) (key : Option Key) :
    headerOctet iocb = (iocb.header key).octet0 := by
  rw [headerOctet, finOctet_eq, rsvOctet_eq, opcodeBits_eq]
  exact or_octet (iocb.fin.toNat % 2 == 1) (iocb.header key).rsv (iocb.header key).opcode

/-- The length is written in the form the format asks for. -/
theorem headerLength_eq (iocb : Iocb) {key : Option Key} (hkey : key.isSome = iocb.mask) :
    headerLength iocb.mask iocb.payloadLength =
      if iocb.payloadLength < 2 ^ 63 then some (iocb.header key).lengthOctets else none := by
  have hbit := maskBit_or iocb.mask
  have h126 : maskBit iocb.mask ||| 126 = UInt8.ofNat (128 * iocb.mask.toNat + 126) :=
    hbit ⟨126, by decide⟩
  have h127 : maskBit iocb.mask ||| 127 = UInt8.ofNat (128 * iocb.mask.toNat + 127) :=
    hbit ⟨127, by decide⟩
  have hl : (iocb.header key).length = iocb.payloadLength := rfl
  have hk : (iocb.header key).key.isSome = iocb.mask := hkey
  rw [headerLength, Header.lengthOctets, hl, hk, h126, h127]
  by_cases hshort : iocb.payloadLength < 126
  · rw [if_pos hshort, if_pos hshort, if_pos (by omega)]
    exact congrArg (fun b => some [b]) (hbit ⟨iocb.payloadLength, by omega⟩)
  · rw [if_neg hshort, if_neg hshort]
    by_cases hmid : iocb.payloadLength < 65536
    · rw [if_pos (by omega), if_pos hmid, if_pos (by omega)]
    · rw [if_neg (by omega), if_neg hmid]

/-- The calls that the encoder accepts to begin a frame with. -/
def Iocb.Sendable (iocb : Iocb) : Prop :=
  iocb.payloadLength < 2 ^ 63 ∧ (isCtrlFrame iocb.opcode = true → iocb.payloadLength ≤ 125)

/-- The context once the header has been prepared. -/
def FrameContext.prepared (c : FrameContext) (iocb : Iocb) (key : Option Key) : FrameContext :=
  { c with ostate := .sendHeader, oheader := (iocb.header key).encode, oheadermark := 0,
           opayloadlen := iocb.payloadLength, opayloadoff := 0,
           omask := key.isSome || c.omask, omaskkey := key.getD c.omaskkey }

theorem FrameContext.view_prepared (c : FrameContext) (iocb : Iocb) (key : Option Key) :
    EncView (c.prepared iocb key) (.busy iocb.payloadLength (iocb.header key).encode 0) := by
  refine .header _ _ rfl ?_ ?_ rfl rfl
  · rw [FrameContext.oheaderRest]
    exact List.drop_zero
  · simp [Header.encode]

/-- A frame without a key is combined with the key of an earlier one. -/
theorem FrameContext.effKey_prepared (c : FrameContext) (iocb : Iocb) (key : Option Key) :
    (c.prepared iocb key).effKey = if key.isSome then key else c.effKey := by
  cases key <;> rfl

/-- A header is prepared, unless the call is not acceptable or there is no key
for it. -/
theorem sendPrepHeader_spec {c : FrameContext} (hstate : c.ostate = .prepHeader) (iocb : Iocb)
    (io : Io) :
    ¬ iocb.Sendable ∧ sendPrepHeader c iocb io = (some .invalidArgument, c, io) ∨
    iocb.Sendable ∧ (iocb.mask = true ∧ io.genmaskCallback.1 = none ∧
        sendPrepHeader c iocb io = (some .invalidCallback, c, io.genmaskCallback.2) ∨
      iocb.mask = false ∧ sendPrepHeader c iocb io = (none, c.prepared iocb none, io) ∨
      ∃ key io₁, iocb.mask = true ∧ io.genmaskCallback = (some key, io₁) ∧
        sendPrepHeader c iocb io = (none, c.prepared iocb (some key), io₁)) := by
  by_cases hctrl : isCtrlFrame iocb.opcode = true ∧ 125 < iocb.payloadLength
  · refine Or.inl ⟨fun h => absurd (h.2 hctrl.1) (by omega), ?_⟩
    rw [sendPrepHeader, if_pos hstate, if_pos (by simpa using hctrl)]
  · have hguard : ¬ (isCtrlFrame iocb.opcode && decide (125 < iocb.payloadLength)) = true := by
      simpa using hctrl
    by_cases hlong : iocb.payloadLength < 2 ^ 63
    · refine Or.inr ⟨⟨hlong, fun hc => Nat.le_of_not_lt fun hlt => hctrl ⟨hc, hlt⟩⟩, ?_⟩
      have hlen : ∀ key : Option Key, key.isSome = iocb.mask →
          headerLength iocb.mask iocb.payloadLength = some (iocb.header key).lengthOctets := by
        intro key hkey
        rw [headerLength_eq iocb hkey, if_pos hlong]
      cases hmask : iocb.mask with
      | false =>
        refine Or.inr (Or.inl ⟨rfl, ?_⟩)
        rw [sendPrepHeader, if_pos hstate, if_neg hguard, hlen none (by rw [hmask]; rfl),
          headerOctet_eq iocb none]
        simp only [hmask, Bool.false_eq_true, if_false]
        rfl
      | true =>
        obtain ⟨k, io₁, hgen⟩ : ∃ k io₁, io.genmaskCallback = (k, io₁) := ⟨_, _, rfl⟩
        cases k with
        | none =>
          refine Or.inl ⟨rfl, by rw [hgen], ?_⟩
          rw [sendPrepHeader, if_pos hstate, if_neg hguard,
            hlen (some ⟨0, 0, 0, 0⟩) (by rw [hmask]; rfl)]
          simp only [hmask, if_true, hgen]
        | some key =>
          refine Or.inr (Or.inr ⟨key, io₁, rfl, hgen, ?_⟩)
          rw [sendPrepHeader, if_pos hstate, if_neg hguard,
            hlen (some key) (by rw [hmask]; rfl), headerOctet_eq iocb (some key)]
          simp only [hmask, if_true, hgen]
          rfl
    · refine Or.inl ⟨fun h => hlong h.1, ?_⟩
      have hlen : headerLength iocb.mask iocb.payloadLength = none := by
        rw [headerLength, if_neg (by omega), if_neg (by omega), if_neg hlong]
      rw [sendPrepHeader, if_pos hstate, if_neg hguard, hlen]

/-! ## Whole calls -/

theorem frameSend_eq {c : FrameContext} {iocb : Iocb} (hle : iocb.data.length ≤ iocb.payloadLength)
    (io : Io) :
    frameSend c iocb io = match sendPrepHeader c iocb io with
      | (some e, c, io) => (.error e, c, io)
      | (none, c, io) => fromSendHeader c iocb io := by
  rw [frameSend, if_neg (by omega)]
  rfl

/-- A call on a frame in progress puts some of the octets that are owed on the
wire. -/
theorem frameSend_busy {c : FrameContext} {len off : Nat} {hrest : List UInt8}
    (hv : EncView c (.busy len hrest off)) {iocb : Iocb}
    (hle : iocb.data.length ≤ iocb.payloadLength) (hdata : off + iocb.data.length ≤ len) (io : Io) :
    ∃ m, Emits c io len hrest off iocb.data (frameSend c iocb io) m := by
  rw [frameSend_eq hle, sendPrepHeader, if_neg hv.ostate_ne]
  exact fromSendHeader_emits hv iocb hdata io

theorem genmask_willing {io : Io} (hw : io.Willing) : io.genmaskCallback.2.Willing := by
  unfold Io.genmaskCallback
  cases hm : io.masks with
  | nil => exact hw
  | cons k ks =>
    refine ⟨hw.error, hw.sends, fun hmem => hw.masks ?_⟩
    rw [hm]
    exact List.mem_cons_of_mem _ hmem

theorem genmask_isSome {io : Io} (hw : io.Willing) : io.genmaskCallback.1 ≠ none := by
  unfold Io.genmaskCallback
  cases hm : io.masks with
  | nil => simp
  | cons k ks =>
    intro hk
    exact hw.masks (by rw [hm]; simp only at hk; rw [hk]; exact List.mem_cons_self ..)

/-- The key for a frame that is about to begin, and the world after asking for it. -/
def Io.keyFor (io : Io) (mask : Bool) : Option Key × Io :=
  if mask then io.genmaskCallback else (none, io)

/-- **A call that begins a frame** prepares its header and goes on from there,
unless it is refused. -/
theorem frameSend_idle {c : FrameContext} (hv : EncView c .idle) {iocb : Iocb}
    (hle : iocb.data.length ≤ iocb.payloadLength) (io : Io) :
    ¬ iocb.Sendable ∧ frameSend c iocb io = (.error .invalidArgument, c, io) ∨
    iocb.Sendable ∧ (¬ io.Willing ∧ (iocb.mask = true ∧ io.genmaskCallback.1 = none) ∧
        frameSend c iocb io = (.error .invalidCallback, c, (io.keyFor iocb.mask).2) ∨
      (io.keyFor iocb.mask).1.isSome = iocb.mask ∧
        ∃ m, Emits (c.prepared iocb (io.keyFor iocb.mask).1) (io.keyFor iocb.mask).2
          iocb.payloadLength (iocb.header (io.keyFor iocb.mask).1).encode 0 iocb.data
          (frameSend c iocb io) m) := by
  have hstate : c.ostate = .prepHeader := by
    cases hv with
    | idle h => exact h
  have hbegin : ∀ key io₁, ∃ m, Emits (c.prepared iocb key) io₁ iocb.payloadLength
      (iocb.header key).encode 0 iocb.data (fromSendHeader (c.prepared iocb key) iocb io₁) m :=
    fun key io₁ => fromSendHeader_emits (c.view_prepared iocb key) iocb
      (by rw [Nat.zero_add]; exact hle) io₁
  rw [frameSend_eq hle]
  rcases sendPrepHeader_spec hstate iocb io with ⟨hno, heq⟩ | ⟨hyes, ⟨hmask, hgen, heq⟩ |
    ⟨hmask, heq⟩ | ⟨key, io₁, hmask, hgen, heq⟩⟩
  · exact Or.inl ⟨hno, by rw [heq]⟩
  · refine Or.inr ⟨hyes, Or.inl ⟨fun hw => genmask_isSome hw hgen, ⟨hmask, hgen⟩, ?_⟩⟩
    rw [heq, Io.keyFor, if_pos hmask]
  · have hk : io.keyFor iocb.mask = (none, io) := by rw [Io.keyFor, hmask, if_neg (by decide)]
    refine Or.inr ⟨hyes, Or.inr ?_⟩
    rw [heq, hk, hmask]
    exact ⟨rfl, hbegin none io⟩
  · have hk : io.keyFor iocb.mask = (some key, io₁) := by rw [Io.keyFor, if_pos hmask, hgen]
    refine Or.inr ⟨hyes, Or.inr ?_⟩
    rw [heq, hk, hmask]
    exact ⟨rfl, hbegin (some key) io₁⟩

end Wslay
