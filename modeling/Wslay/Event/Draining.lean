import Wslay.Event.Closing
import Wslay.Event.SendInStep

/-!
# `wslay_event_send` does not stall

A call of `wslay_event_send` that leaves something to be sent has been held up from
outside: it has used up a result of `send_callback` or of a `read_callback`, or there
was none.  So a sender that is called again and again has sent everything in the end,
unless it is held up for good.

* `Uses` — what a call of `wslay_frame_send` uses up.
* `EventContext.Dry` — the `read_callback` of the message in hand has nothing to give.
* `budget` — what there is to be used up.
* `sending_ends` — **the result**.
-/

namespace Wslay

open Loop (Step)

/-! ## What a call of `wslay_frame_send` uses up -/

theorem sends_sendCallback (io : Io) (offer : Offer) :
    (io.sendCallback offer).2.sends = io.sends.tail ∧
      (io.sends = [] → (io.sendCallback offer).1 = -1) := by
  unfold Io.sendCallback
  cases hs : io.sends with
  | nil => exact ⟨by simp, fun _ => rfl⟩
  | cons r rs => cases r <;> exact ⟨rfl, fun h => (by cases h)⟩

/-- A call of `send_callback` uses up a result, if there is one. -/
theorem sendCallback_uses (io : Io) (offer : Offer) :
    (io.sendCallback offer).2.sends.length ≤ io.sends.length ∧
      (io.sends = [] ∨ (io.sendCallback offer).2.sends.length < io.sends.length) ∧
      (0 < (io.sendCallback offer).1 →
        (io.sendCallback offer).2.sends.length < io.sends.length) := by
  obtain ⟨htail, hnil⟩ := sends_sendCallback io offer
  rw [htail, List.length_tail]
  have hfewer : io.sends ≠ [] → io.sends.length - 1 < io.sends.length := by
    intro h
    have := List.length_pos_of_ne_nil h
    omega
  refine ⟨Nat.sub_le _ _, ?_, fun hpos => hfewer fun h => ?_⟩
  · by_cases h : io.sends = []
    · exact Or.inl h
    · exact Or.inr (hfewer h)
  · rw [hnil h] at hpos
    omega

/-- What a call that is handed `data` uses up: a call that does not get to the end of
`data` has been held up. -/
structure Uses (data : List UInt8) (io : Io) (x : Except Err Nat × FrameContext × Io) : Prop where
  le : x.2.2.sends.length ≤ io.sends.length
  ok : ∀ n, x.1 = .ok n → n = data.length ∨ x.2.2.sends.length < io.sends.length
  blocked : x.1 = .error .wantWrite → io.sends = [] ∨ x.2.2.sends.length < io.sends.length

theorem Uses.error {data : List UInt8} {io io' : Io} (h : io'.sends.length ≤ io.sends.length)
    {e : Err} (he : e ≠ .wantWrite) (f : FrameContext) : Uses data io (.error e, f, io') :=
  ⟨h, fun n hn => (by cases hn), fun hw => absurd (Except.error.inj hw) he⟩

/-- What comes after some other work that has used up nothing back. -/
theorem Uses.after {data : List UInt8} {io io₁ : Io} {x : Except Err Nat × FrameContext × Io}
    (h : Uses data io₁ x) (hle : io₁.sends.length ≤ io.sends.length) : Uses data io x where
  le := Nat.le_trans h.le hle
  ok := fun n hn => (h.ok n hn).imp id fun hlt => Nat.lt_of_lt_of_le hlt hle
  blocked := by
    intro hw
    rcases h.blocked hw with hnil | hlt
    · by_cases h0 : io.sends = []
      · exact Or.inl h0
      · right
        have := List.length_pos_of_ne_nil h0
        have := h.le
        rw [hnil, List.length_nil] at this
        omega
    · exact Or.inr (Nat.lt_of_lt_of_le hlt hle)

/-- The masking loop, which has sent `totallen` octets before. -/
theorem sendMaskedLoop_uses (fuel : Nat) (f : FrameContext) (data : List UInt8) (totallen : Nat)
    (io : Io) (hfuel : data.length ≤ fuel) :
    let x := sendMaskedLoop fuel f data totallen io
    x.2.2.sends.length ≤ io.sends.length ∧
      (∀ n, x.1 = .ok n → n = totallen + data.length ∨ x.2.2.sends.length < io.sends.length ∨
        io.sends = [] ∧ 0 < totallen) ∧
      (x.1 = .error .wantWrite → io.sends = [] ∨ x.2.2.sends.length < io.sends.length) := by
  induction fuel generalizing f data totallen io with
  | zero =>
    have hnil : data.length = 0 := Nat.le_zero.1 hfuel
    refine ⟨Nat.le_refl _, fun n hn => Or.inl ?_, fun hw => (by cases hw)⟩
    cases hn
    omega
  | succ fuel ih =>
    unfold sendMaskedLoop
    by_cases hnil : data = []
    · simp only [if_pos hnil]
      refine ⟨Nat.le_refl _, fun n hn => Or.inl ?_, fun hw => (by cases hw)⟩
      cases hn
      rw [hnil, List.length_nil, Nat.add_zero]
    · simp only [if_neg hnil]
      obtain ⟨temp, htemp⟩ : ∃ temp, Octets.xorFrom f.omaskkey f.opayloadoff (data.take tempSize) =
          temp := ⟨_, rfl⟩
      have hshort : temp.length ≤ data.length := by
        rw [← htemp, Octets.length_xorFrom, List.length_take]
        exact Nat.min_le_right _ _
      rw [htemp]
      obtain ⟨hle, huse, hpos⟩ := sendCallback_uses io ⟨temp, false, false⟩
      obtain ⟨r, io₁, hcall⟩ : ∃ r io₁, io.sendCallback ⟨temp, false, false⟩ = (r, io₁) :=
        ⟨_, _, rfl⟩
      rw [hcall] at hle huse hpos
      simp only [hcall]
      by_cases hr : 0 < r
      · have hless := hpos hr
        simp only at hless
        rw [if_pos hr]
        by_cases hover : (temp.length : Int) < r
        · rw [if_pos hover]
          exact ⟨hle, fun n hn => (by cases hn), fun hw => (by cases hw)⟩
        · rw [if_neg hover]
          have hstep := ih { f with opayloadoff := f.opayloadoff + r.toNat } (data.drop r.toNat)
            (totallen + r.toNat) io₁ (by rw [List.length_drop]; omega)
          obtain ⟨hle', hok, hblocked⟩ := hstep
          refine ⟨Nat.le_trans hle' hle, fun n hn => Or.inr (Or.inl ?_), fun _ => Or.inr ?_⟩ <;>
            omega
      · rw [if_neg hr]
        by_cases htot : 0 < totallen
        · rw [if_pos htot]
          refine ⟨hle, fun n hn => Or.inr ?_, fun hw => (by cases hw)⟩
          exact huse.symm.imp id fun hnil => ⟨hnil, htot⟩
        · rw [if_neg htot]
          exact ⟨hle, fun n hn => (by cases hn), fun _ => huse⟩

theorem sendData_uses (f : FrameContext) (iocb : Iocb) (io : Io) :
    Uses iocb.data io (sendData f iocb io) := by
  unfold sendData
  by_cases hnil : iocb.data = []
  · rw [if_pos hnil]
    refine ⟨Nat.le_refl _, fun n hn => Or.inl ?_, fun hw => (by cases hw)⟩
    cases hn
    rw [hnil, List.length_nil]
  · rw [if_neg hnil]
    by_cases hmask : f.omask = true
    · rw [if_pos hmask]
      obtain ⟨hle, hok, hblocked⟩ := sendMaskedLoop_uses iocb.data.length f iocb.data 0 io
        (Nat.le_refl _)
      refine ⟨hle, fun n hn => ?_, hblocked⟩
      rcases hok n hn with heq | hlt | ⟨-, h0⟩
      · exact Or.inl (by omega)
      · exact Or.inr hlt
      · omega
    · rw [if_neg hmask]
      obtain ⟨hle, huse, hpos⟩ := sendCallback_uses io ⟨iocb.data, false, true⟩
      obtain ⟨r, io₁, hcall⟩ : ∃ r io₁, io.sendCallback ⟨iocb.data, false, true⟩ = (r, io₁) :=
        ⟨_, _, rfl⟩
      rw [hcall] at hle huse hpos
      simp only [hcall]
      by_cases hr : 0 < r
      · rw [if_pos hr]
        by_cases hover : (iocb.data.length : Int) < r
        · rw [if_pos hover]
          exact .error hle (by decide) f
        · rw [if_neg hover]
          exact ⟨hle, fun n _ => Or.inr (hpos hr), fun hw => (by cases hw)⟩
      · rw [if_neg hr]
        exact ⟨hle, fun n hn => (by cases hn), fun _ => huse⟩

/-- **A call of `wslay_frame_send`** that stops before the end of what it is handed has
been held up by `send_callback`. -/
theorem frameSend_uses (f : FrameContext) (iocb : Iocb) (io : Io) :
    Uses iocb.data io (frameSend f iocb io) := by
  have hpayload : ∀ (f : FrameContext) (io : Io), Uses iocb.data io (sendPayload f iocb io) := by
    intro f io
    have h := sendData_uses f iocb io
    unfold sendPayload
    by_cases hstate : f.ostate = .sendPayload
    · rw [if_pos hstate]
      obtain ⟨r, f₁, io₁, hcall⟩ : ∃ r f₁ io₁, sendData f iocb io = (r, f₁, io₁) := ⟨_, _, _, rfl⟩
      rw [hcall] at h ⊢
      cases r with
      | error e => exact h
      | ok n =>
        simp only
        split_ifs
        · exact ⟨h.le, h.ok, fun hw => (by cases hw)⟩
        · exact h
    · rw [if_neg hstate]
      exact .error (Nat.le_refl _) (by decide) f
  have hheader : ∀ (f : FrameContext) (io : Io),
      (sendHeader f iocb io).2.2.sends.length ≤ io.sends.length ∧
        ((sendHeader f iocb io).1 = some .wantWrite →
          io.sends = [] ∨ (sendHeader f iocb io).2.2.sends.length < io.sends.length) := by
    intro f io
    unfold sendHeader
    by_cases hstate : f.ostate = .sendHeader
    · rw [if_pos hstate]
      obtain ⟨hle, huse, -⟩ := sendCallback_uses io ⟨f.oheaderRest, decide (iocb.data ≠ []), false⟩
      obtain ⟨r, io₁, hcall⟩ : ∃ r io₁, io.sendCallback
          ⟨f.oheaderRest, decide (iocb.data ≠ []), false⟩ = (r, io₁) := ⟨_, _, rfl⟩
      rw [hcall] at hle huse
      simp only [hcall]
      split_ifs
      · exact ⟨hle, fun hw => (by cases hw)⟩
      · exact ⟨hle, fun hw => (by cases hw)⟩
      · exact ⟨hle, fun _ => huse⟩
      · exact ⟨hle, fun _ => huse⟩
    · rw [if_neg hstate]
      exact ⟨Nat.le_refl _, fun hw => (by cases hw)⟩
  have hprep : ∀ (f : FrameContext) (io : Io),
      (sendPrepHeader f iocb io).2.2.sends = io.sends ∧
        (sendPrepHeader f iocb io).1 ≠ some .wantWrite := by
    intro f io
    have hmask : io.genmaskCallback.2.sends = io.sends := by
      unfold Io.genmaskCallback
      cases io.masks <;> rfl
    unfold sendPrepHeader
    by_cases hstate : f.ostate = .prepHeader
    · rw [if_pos hstate]
      by_cases hlong : (isCtrlFrame iocb.opcode && decide (125 < iocb.payloadLength)) = true
      · rw [if_pos hlong]
        exact ⟨rfl, by simp⟩
      · rw [if_neg hlong]
        cases headerLength iocb.mask iocb.payloadLength with
        | none => exact ⟨rfl, by simp⟩
        | some len =>
          simp only
          by_cases hm : iocb.mask = true
          · rw [if_pos hm]
            obtain ⟨key, io₁, hcall⟩ : ∃ key io₁, io.genmaskCallback = (key, io₁) := ⟨_, _, rfl⟩
            rw [hcall] at hmask ⊢
            cases key with
            | none => exact ⟨hmask, by simp⟩
            | some key => exact ⟨hmask, by simp⟩
          · rw [if_neg hm]
            exact ⟨rfl, by simp⟩
    · rw [if_neg hstate]
      exact ⟨rfl, by simp⟩
  unfold frameSend
  by_cases hbad : iocb.payloadLength < iocb.data.length
  · rw [if_pos hbad]
    exact .error (Nat.le_refl _) (by decide) f
  · rw [if_neg hbad]
    obtain ⟨hsame, hno⟩ := hprep f io
    obtain ⟨e, f₁, io₁, h₁⟩ : ∃ e f₁ io₁, sendPrepHeader f iocb io = (e, f₁, io₁) := ⟨_, _, _, rfl⟩
    rw [h₁] at hsame hno ⊢
    simp only at hsame hno
    cases e with
    | some e => exact .error (Nat.le_of_eq (congrArg List.length hsame)) (fun h => hno (h ▸ rfl)) f₁
    | none =>
      obtain ⟨hle, hblocked⟩ := hheader f₁ io₁
      obtain ⟨e, f₂, io₂, h₂⟩ : ∃ e f₂ io₂, sendHeader f₁ iocb io₁ = (e, f₂, io₂) := ⟨_, _, _, rfl⟩
      rw [h₂] at hle hblocked
      simp only [h₂]
      rw [hsame] at hle hblocked
      cases e with
      | some e =>
        refine ⟨hle, fun n hn => (by cases hn), ?_⟩
        intro hw
        exact hblocked (congrArg some (Except.error.inj hw))
      | none => exact (hpayload f₂ io₂).after hle

/-! ## One pass -/

/-- The `read_callback` of the message in hand is to be called, and has nothing to give. -/
def EventContext.Dry (c : EventContext) : Prop :=
  ∃ m, c.omsg = some m ∧ m.type = .fragmented ∧ m.fin = 0 ∧ m.source = []

/-- What there is to be used up: results of `send_callback`, and the frames that may still
be needed. -/
def budget (s : EventContext × Io) : Nat := s.2.sends.length + s.1.workLeft

/-- From `s` to `t` the sender has got on, or it has been held up for good, or there is
nothing more to be sent. -/
inductive GotOn (s t : EventContext × Io) : Prop
  | done : eventWantWrite t.1 = false → GotOn s t
  | less : budget t < budget s → GotOn s t
  | blocked : t.2.sends = [] → GotOn s t
  | dry : t.1.Dry → GotOn s t

/-- To get on from less than there was is to get on. -/
theorem GotOn.of_le {s s' t : EventContext × Io} (hle : budget s' ≤ budget s) (h : GotOn s' t) :
    GotOn s t := by
  cases h with
  | done h => exact .done h
  | less h => exact .less (Nat.lt_of_lt_of_le h hle)
  | blocked h => exact .blocked h
  | dry h => exact .dry h

/-- From `s` to `t` the sender has got on, and no `read_callback` has held it up. -/
inductive Moved (s t : EventContext × Io) : Prop
  | done : eventWantWrite t.1 = false → Moved s t
  | less : budget t < budget s → Moved s t
  | blocked : t.2.sends = [] → Moved s t

theorem Moved.gotOn {s t : EventContext × Io} (h : Moved s t) : GotOn s t := by
  cases h with
  | done h => exact .done h
  | less h => exact .less h
  | blocked h => exact .blocked h

theorem Moved.of_le {s s' t : EventContext × Io} (hle : budget s' ≤ budget s) (h : Moved s' t) :
    Moved s t := by
  cases h with
  | done h => exact .done h
  | less h => exact .less (Nat.lt_of_lt_of_le h hle)
  | blocked h => exact .blocked h

/-- A call of `wslay_frame_send` has been held up. -/
theorem Moved.of_blocked {s t : EventContext × Io} (hwork : t.1.workLeft ≤ s.1.workLeft)
    (hle : t.2.sends.length ≤ s.2.sends.length)
    (h : s.2.sends = [] ∨ t.2.sends.length < s.2.sends.length) : Moved s t := by
  rcases h with hnil | hlt
  · apply Moved.blocked
    apply List.eq_nil_of_length_eq_zero
    rw [hnil, List.length_nil] at hle
    exact Nat.le_zero.1 hle
  · apply Moved.less
    exact Nat.add_lt_add_of_lt_of_le hlt hwork

theorem wantWrite_off {c : EventContext} (h : c.writeEnabled = false) :
    eventWantWrite c = false := by
  unfold eventWantWrite
  rw [h]
  rfl

theorem sendFrameError_gotOn {e : Err} {c : EventContext} {io : Io} {r : Int}
    {t : EventContext × Io} (h : sendFrameError e c io = .leave r t) :
    eventWantWrite t.1 = false ∨ e = .wantWrite ∧ t = (c, io) := by
  unfold sendFrameError at h
  split_ifs at h with hbad
  · cases h
    exact Or.inl (wantWrite_off rfl)
  · cases h
    rw [not_or, not_not] at hbad
    exact Or.inr ⟨hbad.1, rfl⟩

/-- The offset into a message that is sent in one frame is an offset into its data. -/
theorem Holds.sized {c : EventContext} {h : Hand} (hh : Holds c h) {m : EventOmsg}
    (homsg : c.omsg = some m) (htype : m.type = .nonFragmented) :
    m.data.length = c.opayloadlen ∧ c.opayloadoff ≤ c.opayloadlen := by
  have hbusy : ∀ {f : FrameContext} {len off : Nat} {hrest : List UInt8},
      EncView f (.busy len hrest off) → off ≤ len := by
    intro f len off hrest hv
    cases hv with
    | header => exact Nat.zero_le _
    | payload _ _ _ _ _ hlt => exact Nat.le_of_lt hlt
  cases hh with
  | empty hnone =>
    rw [hnone] at homsg
    cases homsg
  | start m' hsome _ _ hlen hoff =>
    rw [homsg] at hsome
    cases hsome
    exact ⟨hlen.symm, by rw [hoff]; exact Nat.zero_le _⟩
  | between m' hsome htype' =>
    rw [homsg] at hsome
    cases hsome
    rw [htype] at htype'
    cases htype'
  | whole m' hrest hsome _ hv hlen =>
    rw [homsg] at hsome
    cases hsome
    exact ⟨hlen.symm, by rw [hlen]; exact hbusy hv⟩
  | fragment m' hrest hsome htype' =>
    rw [homsg] at hsome
    cases hsome
    rw [htype] at htype'
    cases htype'

/-- The output buffer of a fragmented message holds something to be sent, or the message
is between two fragments. -/
theorem Holds.refills {c : EventContext} {h : Hand} (hh : Holds c h) {m : EventOmsg}
    (homsg : c.omsg = some m) (htype : m.type = .fragmented) :
    c.obufmark < c.obuf.length ∨ m.fin = 0 ∧ c.obuf = [] ∧ c.obufmark = 0 := by
  cases hh with
  | empty hnone =>
    rw [hnone] at homsg
    cases homsg
  | start m' hsome hfit =>
    rw [homsg] at hsome
    cases hsome
    exact absurd (htype.symm.trans hfit.1) (by decide)
  | between m' hsome _ hfin _ _ hobuf hmark =>
    rw [homsg] at hsome
    cases hsome
    exact Or.inr ⟨hfin, hobuf, hmark⟩
  | whole m' hrest hsome hfit =>
    rw [homsg] at hsome
    cases hsome
    exact absurd (htype.symm.trans hfit.1) (by decide)
  | fragment _ _ _ _ _ _ _ hlt => exact Or.inl hlt

theorem sendNonFragmented_moved {c : EventContext} {m : EventOmsg} {io : Io} {r : Int}
    {t : EventContext × Io} (hlen : m.data.length = c.opayloadlen)
    (hoff : c.opayloadoff ≤ c.opayloadlen) (h : sendNonFragmented c m io = .leave r t) :
    Moved (c, io) t := by
  have huses := frameSend_uses c.frameCtx (nonFragmentedIocb c m) io
  unfold sendNonFragmented at h
  obtain ⟨x, f, io₁, hcall⟩ : ∃ x f io₁, frameSend c.frameCtx (nonFragmentedIocb c m) io =
      (x, f, io₁) := ⟨_, _, _, rfl⟩
  rw [hcall] at h huses
  cases x with
  | error e =>
    rcases sendFrameError_gotOn h with hdone | ⟨rfl, rfl⟩
    · exact .done hdone
    · exact .of_blocked (Nat.le_refl _) huses.le (huses.blocked rfl)
  | ok n =>
    simp only at h
    split_ifs at h with hend
    cases h
    rcases huses.ok n rfl with hall | hlt
    · -- all that was left has been sent, so the frame is complete
      have hdata : (nonFragmentedIocb c m).data.length = c.opayloadlen - c.opayloadoff := by
        show ((m.data.drop c.opayloadoff).take (c.opayloadlen - c.opayloadoff)).length = _
        rw [List.length_take, List.length_drop, hlen, Nat.min_self]
      rw [hdata] at hall
      exact absurd (by omega) hend
    · exact .of_blocked (Nat.le_refl _) huses.le (Or.inr hlt)

theorem sendFragment_moved {c : EventContext} {m : EventOmsg} {io : Io} {r : Int}
    {t : EventContext × Io} (hmark : c.obufmark < c.obuf.length)
    (h : sendFragment c m io = .leave r t) : Moved (c, io) t := by
  have huses := frameSend_uses c.frameCtx (fragmentIocb c m) io
  unfold sendFragment at h
  obtain ⟨x, f, io₁, hcall⟩ : ∃ x f io₁, frameSend c.frameCtx (fragmentIocb c m) io =
      (x, f, io₁) := ⟨_, _, _, rfl⟩
  rw [hcall] at h huses
  cases x with
  | error e =>
    rcases sendFrameError_gotOn h with hdone | ⟨rfl, rfl⟩
    · exact .done hdone
    · exact .of_blocked (Nat.le_refl _) huses.le (huses.blocked rfl)
  | ok n =>
    simp only at h
    split_ifs at h with hend
    cases h
    rcases huses.ok n rfl with hall | hlt
    · have hdata : (fragmentIocb c m).data.length = c.obuf.length - c.obufmark :=
        List.length_drop
      rw [hdata] at hall
      exact absurd (by omega) hend
    · have hwork : { c with frameCtx := f, obufmark := c.obufmark + n }.workLeft ≤ c.workLeft := by
        unfold EventContext.workLeft
        simp only [if_neg hend, if_neg (Nat.ne_of_lt hmark), Nat.le_refl]
      exact .of_blocked hwork huses.le (Or.inr hlt)

/-- A `read_callback` that has been called has used up one of its results. -/
theorem workLeft_read {c : EventContext} {m m' : EventOmsg} (homsg : c.omsg = some m)
    (hsource : m.source.length = m'.source.length + 1) :
    { c with omsg := some m' }.workLeft < c.workLeft := by
  have hfuel : omsgFuel m = omsgFuel m' + 1 := by
    unfold omsgFuel
    rw [hsource]
  unfold EventContext.workLeft
  rw [homsg]
  simp only [Option.toList_some, List.cons_append, List.map_cons, List.sum_cons, hfuel]
  omega

/-- What it has used up makes up for an output buffer that has been filled. -/
theorem workLeft_fill {c : EventContext} {m m' : EventOmsg} (homsg : c.omsg = some m)
    (hsource : m.source.length = m'.source.length + 1) (hend : c.obufmark = c.obuf.length)
    (bs : List UInt8) (len off : Nat) :
    { c with omsg := some m', obuf := bs, opayloadlen := len, opayloadoff := off }.workLeft ≤
      c.workLeft := by
  have hread := workLeft_read homsg hsource
  unfold EventContext.workLeft at hread ⊢
  simp only [if_pos hend] at hread ⊢
  split_ifs <;> omega

theorem sendFragmented_gotOn {c : EventContext} {m : EventOmsg} {h : Hand} (hh : Holds c h)
    {io : Io} {r : Int} {t : EventContext × Io} (homsg : c.omsg = some m)
    (htype : m.type = .fragmented) (hx : sendFragmented c m io = .leave r t) : GotOn (c, io) t := by
  unfold sendFragmented at hx
  rcases hh.refills homsg htype with hmark | ⟨hfin, hobuf, hmark⟩
  · rw [if_neg fun hread => Nat.ne_of_lt hmark hread.2] at hx
    exact (sendFragment_moved hmark hx).gotOn
  · have hend : c.obufmark = c.obuf.length := by rw [hobuf, hmark, List.length_nil]
    rw [if_pos ⟨hfin, hend⟩] at hx
    unfold readFragment at hx
    cases hsource : m.source with
    | nil =>
      rw [hsource] at hx
      cases hx
      exact .dry ⟨m, homsg, htype, hfin, hsource⟩
    | cons result rs =>
      rw [hsource] at hx
      have hlength : ∀ fin,
          m.source.length = { m with fin := fin, source := rs }.source.length + 1 := by
        intro fin
        rw [hsource, List.length_cons]
      cases result with
      | fail e =>
        cases hx
        exact .done (wantWrite_off rfl)
      | data bs eof fits =>
        by_cases hnil : bs = []
        · simp only [if_pos hnil] at hx
          cases hx
          apply GotOn.less
          exact Nat.add_lt_add_left (workLeft_read homsg (hlength m.fin)) _
        · simp only [if_neg hnil, Step.andThen_again] at hx
          have hfilled : c.obufmark < bs.length := by
            rw [hmark]
            exact List.length_pos_of_ne_nil hnil
          have hgot := (sendFragment_moved hfilled hx).gotOn
          apply hgot.of_le
          apply Nat.add_le_add_left
          exact workLeft_fill homsg (hlength (if eof then 1 else m.fin)) hend bs _ _

theorem Io.Allocates.sends {io io' : Io} (h : io.Allocates io') : io'.sends = io.sends := by
  rw [h.eq]

theorem omsgs_pos {ms : List EventOmsg} (h : ms ≠ []) : 0 < (ms.map omsgFuel).sum := by
  cases ms with
  | nil => exact absurd rfl h
  | cons m ms =>
    rw [List.map_cons, List.sum_cons]
    exact Nat.add_pos_left (Nat.succ_pos _) _

/-- Where no message is chosen there is none, or one that could not be put back, or the
control messages that were in the way have been dropped. -/
theorem sendPick_moved {c : EventContext} {io : Io} {r : Int} {t : EventContext × Io}
    (h : sendPick c io = .leave r t) : Moved (c, io) t := by
  unfold sendPick at h
  cases homsg : c.omsg with
  | none =>
    rw [homsg] at h
    simp only at h
    by_cases hctrl : c.sendCtrlQueue = []
    · rw [if_pos hctrl] at h
      cases hqueue : c.sendQueue with
      | nil =>
        rw [hqueue] at h
        cases h
        apply Moved.done
        simp [eventWantWrite, homsg, hctrl, hqueue]
      | cons m ms =>
        rw [hqueue] at h
        simp only at h
        split_ifs at h
    · rw [if_neg hctrl] at h
      rcases eventSendCtrlQueuePop_spec hctrl io with ⟨dropped, m, rest, -, heq⟩ | ⟨-, -, heq⟩
      · rw [heq] at h
        simp only at h
        split_ifs at h
      · rw [heq] at h
        cases h
        apply Moved.less
        have hpos := omsgs_pos hctrl
        simp [budget, EventContext.workLeft, homsg, Io.release]
        omega
  | some m =>
    rw [homsg] at h
    simp only at h
    split_ifs at h with hpreempt
    simp only [Bool.and_eq_true, decide_eq_true_eq] at hpreempt
    have hctrl : c.sendCtrlQueue ≠ [] := hpreempt.2
    have hsends := io.malloc_allocates.1.sends
    rcases hmalloc : io.malloc with ⟨_ | _, io₁⟩
    · rw [hmalloc] at h
      cases h
      exact .done (wantWrite_off rfl)
    · rw [hmalloc] at h hsends
      simp only at h hsends
      have hctrl' : { c with omsg := some m, sendQueue := m :: c.sendQueue }.sendCtrlQueue ≠ [] :=
        hctrl
      rcases eventSendCtrlQueuePop_spec hctrl' io₁ with
        ⟨dropped, m', rest, -, heq⟩ | ⟨-, -, heq⟩
      · rw [heq] at h
        cases h
      · rw [heq] at h
        cases h
        apply Moved.less
        have hpos := omsgs_pos hctrl
        simp [budget, EventContext.workLeft, homsg, Io.release, hsends]
        omega

/-- A pass gives back no result of `send_callback`. -/
theorem sendOmsg_sends (s : EventContext × Io) :
    (sendOmsg s).All fun t => t.2.sends.length ≤ s.2.sends.length := by
  obtain ⟨c, io⟩ := s
  have hfragment : ∀ (c : EventContext) (m : EventOmsg) (io : Io),
      (sendFragment c m io).All fun t => t.2.sends.length ≤ io.sends.length := by
    intro c m io
    have huses := (frameSend_uses c.frameCtx (fragmentIocb c m) io).le
    unfold sendFragment
    obtain ⟨x, f, io₁, hcall⟩ : ∃ x f io₁, frameSend c.frameCtx (fragmentIocb c m) io =
        (x, f, io₁) := ⟨_, _, _, rfl⟩
    rw [hcall] at huses ⊢
    cases x with
    | error e =>
      simp only [sendFrameError]
      split_ifs <;> exact huses
    | ok n =>
      simp only
      split_ifs <;> exact huses
  unfold sendOmsg
  cases homsg : c.omsg with
  | none => exact Nat.le_refl _
  | some m =>
    simp only
    by_cases htype : m.type = .nonFragmented
    · rw [if_pos htype]
      have huses := (frameSend_uses c.frameCtx (nonFragmentedIocb c m) io).le
      unfold sendNonFragmented
      obtain ⟨x, f, io₁, hcall⟩ : ∃ x f io₁, frameSend c.frameCtx (nonFragmentedIocb c m) io =
          (x, f, io₁) := ⟨_, _, _, rfl⟩
      rw [hcall] at huses ⊢
      cases x with
      | error e =>
        simp only [sendFrameError]
        split_ifs <;> exact huses
      | ok n =>
        simp only
        split_ifs <;> exact huses
    · rw [if_neg htype]
      unfold sendFragmented
      split_ifs with hread
      · unfold readFragment
        rcases m.source with _ | ⟨⟨bs, eof, fits⟩ | e, rs⟩
        · exact Nat.le_refl _
        · by_cases hnil : bs = []
          · simp only [if_pos hnil]
            exact Nat.le_refl _
          · simp only [if_neg hnil, Step.andThen_again]
            exact hfragment _ _ _
        · exact Nat.le_refl _
      · exact hfragment _ _ _

theorem sends_sendPick (c : EventContext) (io : Io) :
    (sendPick c io).state.2.sends = io.sends := by
  have hpop : ∀ (c : EventContext) (io : Io),
      (eventSendCtrlQueuePop c io).2.2.sends = io.sends := by
    intro c io
    unfold eventSendCtrlQueuePop
    split_ifs <;> rfl
  unfold sendPick
  cases homsg : c.omsg with
  | none =>
    simp only
    split_ifs
    · cases c.sendQueue with
      | nil => rfl
      | cons m ms =>
        simp only
        split_ifs <;> rfl
    · have hsame := hpop c io
      obtain ⟨m, c', io', heq⟩ : ∃ m c' io', eventSendCtrlQueuePop c io = (m, c', io') :=
        ⟨_, _, _, rfl⟩
      rw [heq] at hsame ⊢
      cases m with
      | none => exact hsame
      | some m =>
        simp only
        split_ifs <;> exact hsame
  | some m =>
    simp only
    split_ifs
    · have hmem := io.malloc_allocates.1.sends
      rcases hmalloc : io.malloc with ⟨_ | _, io₁⟩
      · rw [hmalloc] at hmem
        exact hmem
      · rw [hmalloc] at hmem
        simp only at hmem ⊢
        have hsame := (hpop { c with sendQueue := m :: c.sendQueue, omsg := some m } io₁).trans hmem
        obtain ⟨m', c', io', heq⟩ : ∃ m' c' io', eventSendCtrlQueuePop
            { c with sendQueue := m :: c.sendQueue, omsg := some m } io₁ = (m', c', io') :=
          ⟨_, _, _, rfl⟩
        rw [heq] at hsame ⊢
        cases m' <;> exact hsame
    · rfl

/-- A call of `wslay_event_send` gives back no result of `send_callback`. -/
theorem eventSend_sends (s : EventContext × Io) :
    (eventSend s.1 s.2).2.2.sends.length ≤ s.2.sends.length := by
  have hpass : ∀ t, t.2.sends.length ≤ s.2.sends.length →
      (sendPass t).All fun u => u.2.sends.length ≤ s.2.sends.length := by
    intro t ht
    unfold sendPass
    split_ifs
    · have hpick := sends_sendPick t.1 t.2
      cases hx : sendPick t.1 t.2 with
      | leave r u =>
        rw [hx] at hpick
        show u.2.sends.length ≤ s.2.sends.length
        rw [show u.2.sends = t.2.sends from hpick]
        exact ht
      | again u =>
        rw [hx] at hpick
        have hle := sendOmsg_sends u
        rw [show u.2.sends = t.2.sends from hpick] at hle
        rw [Step.andThen_again, Step.all_iff] at *
        exact Nat.le_trans hle ht
    · exact ht
  obtain ⟨x, hx⟩ := Option.isSome_iff_exists.1 (eventSend_isSome s.1 s.2)
  have hcall : eventSend s.1 s.2 = x := by
    unfold eventSend
    rw [hx]
    rfl
  rw [hcall]
  exact Loop.run_inv hpass (Nat.le_refl _) hx

/-- What has been chosen is in hand. -/
theorem Picks.inHand {c : EventContext} {io : Io} {h : Hand} {t : EventContext × Io}
    (hp : Picks c io h (.again t)) (hh : Holds c h) : t.1.omsg ≠ none := by
  have hpick : ∀ (c : EventContext) (m : EventOmsg), (c.pick m).omsg ≠ none := by
    intro c m
    unfold EventContext.pick eventOnNonFragmentedMsgPopped
    split_ifs <;> simp
  cases hp with
  | keep hne => exact fun hnone => hne (hh.omsg_eq_none.1 hnone)
  | data => exact hpick _ _
  | ctrl => exact hpick _ _

/-- A message in hand that needs no `read_callback` now. -/
def EventContext.Filled (c : EventContext) : Prop :=
  ∀ m, c.omsg = some m → m.type = .fragmented → c.obufmark < c.obuf.length

theorem sendFragmented_moved {c : EventContext} {m : EventOmsg} {io : Io} {r : Int}
    {t : EventContext × Io} (hmark : c.obufmark < c.obuf.length)
    (hx : sendFragmented c m io = .leave r t) : Moved (c, io) t := by
  unfold sendFragmented at hx
  rw [if_neg fun hread => Nat.ne_of_lt hmark hread.2] at hx
  exact sendFragment_moved hmark hx

/-- With a message in hand the sender gets on, and a message that needs no
`read_callback` is held up by none. -/
theorem sendOmsg_gotOn {c : EventContext} {h : Hand} (hh : Holds c h) (hhand : c.omsg ≠ none)
    {io : Io} {r : Int} {t : EventContext × Io} (hx : sendOmsg (c, io) = .leave r t) :
    GotOn (c, io) t ∧ (c.Filled → Moved (c, io) t) := by
  unfold sendOmsg at hx
  cases homsg : c.omsg with
  | none => exact absurd homsg hhand
  | some m =>
    rw [homsg] at hx
    simp only at hx
    cases htype : m.type with
    | nonFragmented =>
      rw [if_pos htype] at hx
      obtain ⟨hlen, hoff⟩ := hh.sized homsg htype
      have hmoved := sendNonFragmented_moved hlen hoff hx
      exact ⟨hmoved.gotOn, fun _ => hmoved⟩
    | fragmented =>
      rw [if_neg (by rw [htype]; decide)] at hx
      refine ⟨sendFragmented_gotOn hh homsg htype hx, ?_⟩
      intro hfilled
      exact sendFragmented_moved (hfilled m homsg htype) hx

/-- When a control message waits, or the message in hand cannot be preempted, what is
chosen needs no `read_callback`. -/
theorem Picks.filled {c : EventContext} {io : Io} {h : Hand} {t : EventContext × Io}
    (hp : Picks c io h (.again t)) (hh : Holds c h) (hfit : QueuesFit c)
    (hctrl : c.sendCtrlQueue ≠ [] ∨ ¬ h.Preemptible) : t.1.Filled := by
  cases hp with
  | keep hne hfirst =>
    have hbusy : ¬ h.Preemptible := by
      intro hpre
      exact hctrl.elim (fun hne => hne (hfirst hpre)) fun hnot => hnot hpre
    intro m homsg htype
    rcases hh.refills homsg htype with hlt | ⟨hfin, hobuf, -⟩
    · exact hlt
    · cases hh with
      | empty => exact absurd trivial hbusy
      | start m' hsome hfit' =>
        rw [homsg] at hsome
        cases hsome
        exact absurd (htype.symm.trans hfit'.1) (by decide)
      | between => exact absurd trivial hbusy
      | whole m' hrest hsome hfit' =>
        rw [homsg] at hsome
        cases hsome
        exact absurd (htype.symm.trans hfit'.1) (by decide)
      | fragment _ _ _ _ _ _ _ hlt => exact hlt
  | data m ms hempty hnil =>
    subst hempty
    exact hctrl.elim (fun hne => absurd hnil hne) fun hnot => absurd trivial hnot
  | ctrl dropped m rest io' hpre hpops =>
    have hm : m ∈ c.sendCtrlQueue := by
      rw [hpops.1]
      exact List.mem_append_right _ (List.mem_cons_self ..)
    have htype := (hfit.ctrl m hm).1
    intro m' homsg htype'
    unfold EventContext.pick eventOnNonFragmentedMsgPopped at homsg
    rw [if_pos htype] at homsg
    cases homsg
    exact absurd (htype.symm.trans htype') (by decide)

/-- **A pass that leaves** has chosen nothing, or what it has chosen has been held up. -/
theorem sendPass_split {s : EventContext × Io} {h : Hand} (hh : Holds s.1 h)
    (hfit : QueuesFit s.1) {r : Int} {t : EventContext × Io} (hx : sendPass s = .leave r t) :
    Moved s t ∨ ∃ u h₁, Picks s.1 s.2 h (.again u) ∧ Holds u.1 h₁ ∧ budget u ≤ budget s ∧
      sendOmsg u = .leave r t := by
  unfold sendPass at hx
  split_ifs at hx with hwant
  · have hpicks := sendPick_spec hh hfit s.2
    cases hpick : sendPick s.1 s.2 with
    | leave r' t' =>
      rw [hpick, Step.andThen_leave] at hx
      cases hx
      exact Or.inl (sendPick_moved hpick)
    | again u =>
      rw [hpick, Step.andThen_again] at hx
      rw [hpick] at hpicks
      have hsends : u.2.sends = s.2.sends := by
        have hsame := sends_sendPick s.1 s.2
        rwa [hpick] at hsame
      obtain ⟨h₁, hchosen⟩ := hpicks.chosen hh hfit
      refine Or.inr ⟨u, h₁, hpicks, hchosen.holds, ?_, hx⟩
      unfold budget
      rw [hsends]
      exact Nat.add_le_add_left (sendPick_workLeft hpick) _
  · cases hx
    exact Or.inl (.done (Bool.not_eq_true _ ▸ hwant))

theorem sendPass_unwanted {s : EventContext × Io} (hwant : eventWantWrite s.1 = false) :
    sendPass s = .leave 0 s := by
  unfold sendPass
  rw [hwant]
  rfl

/-- A pass that goes round has given nothing back. -/
theorem sendPass_budget {s t : EventContext × Io} (hx : sendPass s = .again t) :
    budget t ≤ budget s := by
  unfold sendPass at hx
  split_ifs at hx
  cases hpick : sendPick s.1 s.2 with
  | leave r u =>
    rw [hpick, Step.andThen_leave] at hx
    cases hx
  | again u =>
    have hsends := sends_sendPick s.1 s.2
    have hle := sendOmsg_sends u
    rw [hpick] at hx hsends
    rw [Step.andThen_again] at hx
    rw [hx] at hle
    have hwork := Nat.le_trans (Nat.le_of_lt (sendOmsg_workLeft hx)) (sendPick_workLeft hpick)
    have hsends' : t.2.sends.length ≤ s.2.sends.length := by
      rw [show s.2.sends = u.2.sends from hsends.symm]
      exact hle
    exact Nat.add_le_add hsends' hwork

/-- A pass that leaves has got on. -/
theorem sendPass_gotOn {s : EventContext × Io} (ha : Accounted s) {r : Int}
    {t : EventContext × Io} (hx : sendPass s = .leave r t) : GotOn s t := by
  cases hlive : s.1.writeEnabled with
  | false =>
    have hwant := wantWrite_off hlive
    rw [sendPass_unwanted hwant] at hx
    cases hx
    exact .done hwant
  | true =>
    obtain ⟨sent, owed, data, ctrl, hacc⟩ := ha
    obtain ⟨h, hh, -, hfit, -⟩ := hacc.live hlive
    rcases sendPass_split hh hfit hx with hmoved | ⟨u, h₁, hpicks, hh₁, hle, homsg⟩
    · exact hmoved.gotOn
    · exact (sendOmsg_gotOn hh₁ (hpicks.inHand hh) homsg).1.of_le hle

/-- A pass that leaves has been held up by no `read_callback`, when a control message
waits, or what is in hand cannot be preempted. -/
theorem sendPass_moved {s : EventContext × Io} {h : Hand} (hh : Holds s.1 h)
    (hfit : QueuesFit s.1) (hctrl : s.1.sendCtrlQueue ≠ [] ∨ ¬ h.Preemptible) {r : Int}
    {t : EventContext × Io} (hx : sendPass s = .leave r t) : Moved s t := by
  rcases sendPass_split hh hfit hx with hmoved | ⟨u, h₁, hpicks, hh₁, hle, homsg⟩
  · exact hmoved
  · have hfilled := hpicks.filled hh hfit hctrl
    exact ((sendOmsg_gotOn hh₁ (hpicks.inHand hh) homsg).2 hfilled).of_le hle

/-! ## Calls of `wslay_event_send` -/

/-- **What a call of `wslay_event_send` comes to** is what its last pass does. -/
theorem eventSend_last {P : EventContext × Io → Prop} {s : EventContext × Io} (hs : P s)
    (hpass : ∀ u, P u → P (sendPass u).state) :
    ∃ u r, P u ∧ budget u ≤ budget s ∧ sendPass u = .leave r (eventSend s.1 s.2).2 := by
  obtain ⟨x, hx⟩ := Option.isSome_iff_exists.1 (eventSend_isSome s.1 s.2)
  have hcall : eventSend s.1 s.2 = x := by
    unfold eventSend
    rw [hx]
    rfl
  obtain ⟨u, hreach, hleave⟩ := Loop.run_leaves hx
  have hkept : P u ∧ budget u ≤ budget s := by
    refine hreach.inv (P := fun v => P v ∧ budget v ≤ budget s) ?_ ⟨hs, Nat.le_refl _⟩
    intro v w hv hvw
    have hnext := hpass v hv.1
    rw [hvw] at hnext
    exact ⟨hnext, Nat.le_trans (sendPass_budget hvw) hv.2⟩
  rw [hcall]
  exact ⟨u, _, hkept.1, hkept.2, hleave⟩

/-- **A call of `wslay_event_send` gets on.** -/
theorem eventSend_gotOn {s : EventContext × Io} (ha : Accounted s) :
    GotOn s (eventSend s.1 s.2).2 := by
  have hpass : ∀ v, Accounted v → Accounted (sendPass v).state := by
    rintro v ⟨sent, owed, data, ctrl, hv⟩
    exact hv.sendPass
  obtain ⟨u, r, hu, hle, hleave⟩ := eventSend_last ha hpass
  exact (sendPass_gotOn hu hleave).of_le hle

/-- Everything that has been queued is on the wire, in whole frames. -/
structure Drained (s : EventContext × Io) (sent : List Frame) : Prop where
  legit : ∀ f ∈ sent, f.Legit s.1.server
  wire : s.2.wire = sent.flatMap Frame.encode
  data : dataOutlines sent = plans s.2.queuedData []
  ctrl : ctrlOutlines sent = s.2.queuedCtrl.map EventOmsg.outline

/-- When there is nothing to be sent, all has been sent: a queued Close would still be ahead. -/
theorem Accounted.drained {s : EventContext × Io} (ha : Accounted s) (hahead : StaysAhead s)
    (hlive : s.1.writeEnabled = true) (hwant : eventWantWrite s.1 = false) :
    ∃ sent, Drained s sent := by
  obtain ⟨sent, owed, data, ctrl, hacc⟩ := ha
  obtain ⟨h, hh, -, -, rfl, hdata, rfl⟩ := hacc.live hlive
  simp only [eventWantWrite, hlive, Bool.true_and, Bool.or_eq_false_iff, Bool.not_eq_false',
    List.isEmpty_iff, Option.isSome_eq_false_iff, Option.isNone_iff_eq_none] at hwant
  obtain ⟨⟨hqueue, hctrl⟩, homsg⟩ := hwant
  obtain rfl := hh.omsg_eq_none.1 homsg
  have hopen : s.1.closeStatus.queued = false := by
    rw [← Bool.not_eq_true]
    intro hq
    obtain ⟨m, -, hm | hm⟩ := hahead hlive hq
    · rw [hctrl] at hm
      cases hm
    · rw [homsg] at hm
      cases hm
  have hwire := hacc.wire
  have hlater := hacc.data []
  rw [hdata, hqueue] at hlater
  refine ⟨sent, hacc.legit, ?_, ?_, ?_⟩
  · simpa [Hand.owed] using hwire
  · simpa [Hand.data, plans] using hlater
  · have hplan := hacc.ctrl hopen
    rw [hctrl] at hplan
    simpa [Hand.ctrl] using hplan

theorem runOps_replicate (s : EventContext × Io) (op : Op) (k : Nat) :
    runOps s (List.replicate k op) = (fun s => (step s op).2)^[k] s := by
  induction k generalizing s with
  | zero => rfl
  | succ k ih => exact ih (step s op).2

/-- There is nothing to be sent, or the sender is held up for good. -/
def AtStandstill (s : EventContext × Io) : Prop :=
  eventWantWrite s.1 = false ∨ s.2.sends = [] ∨ s.1.Dry

/-- **Sending ends.**  From wherever the application can make a call, some calls of
`wslay_event_send`, no more than there are results of `send_callback` and frames that may
be needed, and one, put everything that has been queued on the wire; unless writing is
disabled, or `send_callback` takes no more, or the `read_callback` of the message in hand
gives no more. -/
theorem sending_ends (server : Bool) (callbacks : EventCallbacks) (noBuffering : Bool)
    (maxRecvMsgLength : Nat) {io : Io} (hio : io.Fresh) {s : EventContext × Io}
    (hs : Visits (configured server callbacks noBuffering maxRecvMsgLength, io) s) :
    ∃ k ≤ budget s + 1,
      let t := runOps s (List.replicate k (.call .send))
      t.1.writeEnabled = false ∨ t.2.sends = [] ∨ t.1.Dry ∨ ∃ sent, Drained t sent := by
  have hkeep : ∀ s, Accounted s ∧ StaysAhead s →
      Accounted (step s (.call .send)).2 ∧ StaysAhead (step s (.call .send)).2 :=
    fun s ha => staysAhead_kept.call (a := .send) trivial ha
  have hprogress : ∀ s, Accounted s ∧ StaysAhead s →
      AtStandstill (step s (.call .send)).2 ∨ budget (step s (.call .send)).2 < budget s := by
    intro s ha
    cases eventSend_gotOn ha.1 with
    | done h => exact Or.inl (Or.inl h)
    | less h => exact Or.inr h
    | blocked h => exact Or.inl (Or.inr (Or.inl h))
    | dry h => exact Or.inl (Or.inr (Or.inr h))
  have ha : Accounted s ∧ StaysAhead s := hs.inv staysAhead_kept
    ⟨accounted_configured server callbacks noBuffering maxRecvMsgLength hio, fun _ h => by cases h⟩
  obtain ⟨k, hk, hacc, hend⟩ :=
    Loop.iterate_reaches (Q := AtStandstill) (μ := budget) hkeep hprogress ha
  refine ⟨k, hk, ?_⟩
  rw [runOps_replicate]
  rcases hend with hwant | hsends | hdry
  · by_cases hlive : ((fun s => (step s (.call .send)).2)^[k] s).1.writeEnabled = true
    · exact Or.inr (Or.inr (Or.inr (hacc.1.drained hacc.2 hlive hwant)))
    · exact Or.inl (Bool.not_eq_true _ ▸ hlive)
  · exact Or.inr (Or.inl hsends)
  · exact Or.inr (Or.inr (Or.inl hdry))

/-- A fragmented text with a Ping behind it, and a `send_callback` that takes two octets
at a time. -/
def pingAndText : EventContext × Io :=
  runOps (configured true ⟨false, false, false, false⟩ false 100,
      { sends := List.replicate 9 (.accept 2) })
    [.call (.queueFragmentedMsg ⟨textFrame, [.data [119] false (by decide),
      .data [115, 108] true (by decide)]⟩), .call (.queueMsg ⟨ping, [1]⟩)]

theorem sending_ends_pingAndText :
    ∃ k ≤ budget pingAndText + 1,
      let t := runOps pingAndText (List.replicate k (.call .send))
      t.1.writeEnabled = false ∨ t.2.sends = [] ∨ t.1.Dry ∨ ∃ sent, Drained t sent := by
  have hio : ({ sends := List.replicate 9 (.accept 2) } : Io).Fresh :=
    ⟨rfl, rfl, rfl, rfl, rfl, rfl⟩
  exact sending_ends true ⟨false, false, false, false⟩ false 100 hio (.call _ (.call _ .start))

/-- Six calls send it all. -/
example : (runOps pingAndText (List.replicate 6 (.call .send))).2.wire =
    [0x89, 1, 1, 0x01, 1, 119, 0x80, 2, 115, 108] := by
  decide +kernel

end Wslay
