import Wslay.Frame.DecodeRun
import Wslay.Frame.Encoding

/-!
# What makes a call of the frame layer fail

`WSLAY_ERR_WANT_READ` and `WSLAY_ERR_WANT_WRITE` are returned in three different
situations: the callback has refused, the callback would block, and the callback
has done its work, only not enough of it for a header.  In the last of the three
`ctx->error` is what it was before the call.

* `RecvRefused`, `SendRefused` — the last call of the callback has refused.
* `ShortRead`, `ShortWrite` — a header is cut short, and nothing has failed.
* `frameRecv_waits`, `frameSend_failure` — why a call fails.
-/

namespace Wslay

open Octets (xorFrom)

/-! ## Calls of `recv_callback` -/

/-- A result `<= 0`. -/
def RecvResult.Refuses : RecvResult → Prop
  | .data bs => bs = []
  | .fail _ => True

/-- Between `io` and `io'` calls of `recv_callback` have been made, and the last of
them gave a result `<= 0`. -/
def RecvRefused (io io' : Io) : Prop := ∃ r : RecvResult, r.Refuses ∧ r :: io'.recvs <:+ io.recvs

/-- The last call of `recv_callback` has refused, or it would have blocked. -/
def RecvFails (io io' : Io) : Prop := RecvRefused io io' ∨ io'.error = Err.wouldblock.code

/-- Calls of `recv_callback` that all store something leave `rs'` of `rs`. -/
inductive Stores : List RecvResult → List RecvResult → Prop
  | refl (rs : List RecvResult) : Stores rs rs
  | whole {bs : List UInt8} {rs rs' : List RecvResult} : bs ≠ [] → Stores rs rs' →
      Stores (.data bs :: rs) rs'
  | part {bs bs' : List UInt8} {rs : List RecvResult} : bs ≠ [] → bs' ≠ [] →
      Stores (.data bs :: rs) (.data bs' :: rs)

theorem Stores.trans {rs rs' rs'' : List RecvResult} (h : Stores rs rs') (h' : Stores rs' rs'') :
    Stores rs rs'' := by
  induction h with
  | refl => exact h'
  | whole hne _ ih => exact .whole hne (ih h')
  | part hne _ =>
    cases h' with
    | refl => exact .part hne ‹_›
    | whole _ h' => exact .whole hne h'
    | part _ hne' => exact .part hne hne'

theorem Stores.suffix {rs rs' rest : List RecvResult} (h : Stores rs rs') {r : RecvResult}
    (hr : r.Refuses) (hs : r :: rest <:+ rs') : r :: rest <:+ rs := by
  induction h with
  | refl => exact hs
  | whole _ _ ih => exact (ih hs).trans (List.suffix_cons ..)
  | part _ hne =>
    rcases List.suffix_cons_iff.1 hs with heq | hs
    · cases heq
      exact absurd hr hne
    · exact hs.trans (List.suffix_cons ..)

/-- Between `io` and `io'` every call of `recv_callback` has stored something. -/
structure RecvGives (io io' : Io) : Prop where
  stores : Stores io.recvs io'.recvs
  error : io'.error = io.error

theorem RecvGives.refl (io : Io) : RecvGives io io := ⟨.refl _, rfl⟩

theorem RecvGives.trans {io io' io'' : Io} (h : RecvGives io io') (h' : RecvGives io' io'') :
    RecvGives io io'' :=
  ⟨h.stores.trans h'.stores, h'.error.trans h.error⟩

theorem RecvGives.fails {io io' io'' : Io} (h : RecvGives io io') (h' : RecvFails io' io'') :
    RecvFails io io'' := by
  rcases h' with ⟨r, hr, hs⟩ | hblock
  · exact Or.inl ⟨r, hr, h.stores.suffix hr hs⟩
  · exact Or.inr hblock

/-- A call of `recv_callback` stores something, all there is or as much as fits, or
it fails. -/
theorem recvCallback_gives (io : Io) {len : Nat} (hlen : 0 < len) :
    (∃ bs rs, io.recvs = .data bs :: rs ∧ bs ≠ [] ∧ (io.recvCallback len).1 ≠ [] ∧
        ((io.recvCallback len).1 = bs ∨ (io.recvCallback len).1.length = len) ∧
        RecvGives io (io.recvCallback len).2) ∨
      (io.recvCallback len).1 = [] ∧ RecvFails io (io.recvCallback len).2 := by
  unfold Io.recvCallback
  cases hr : io.recvs with
  | nil => exact Or.inr ⟨rfl, Or.inr rfl⟩
  | cons r rs =>
    cases r with
    | fail e =>
      refine Or.inr ⟨rfl, Or.inl ⟨.fail e, trivial, ?_⟩⟩
      rw [hr]
    | data bs =>
      by_cases hfit : bs.length ≤ len
      · simp only [if_pos hfit]
        by_cases hbs : bs = []
        · refine Or.inr ⟨hbs, Or.inl ⟨.data bs, hbs, ?_⟩⟩
          rw [hr]
        · refine Or.inl ⟨bs, rs, rfl, hbs, hbs, Or.inl rfl, ?_, rfl⟩
          rw [hr]
          exact .whole hbs (.refl rs)
      · simp only [if_neg hfit]
        have hne : bs ≠ [] := by
          rintro rfl
          exact hfit (Nat.zero_le _)
        have htake : (bs.take len).length = len := by
          rw [List.length_take]
          omega
        refine Or.inl ⟨bs, rs, rfl, hne, ?_, Or.inr htake, ?_, rfl⟩
        · apply List.ne_nil_of_length_pos
          omega
        · rw [hr]
          refine .part hne (List.ne_nil_of_length_pos ?_)
          rw [List.length_drop]
          omega

/-! ## Headers that are not yet complete -/

/-- A block of the header that needs `ireqread` octets gets some, and too few. -/
def FallsShort (c : FrameContext) (io : Io) : Prop :=
  ∃ bs rs, io.recvs = .data bs :: rs ∧ bs ≠ [] ∧ (c.avail ++ bs).length < c.ireqread

theorem wslayRecv_gives {c : FrameContext} (hroom : c.avail.length < ibufSize) (io : Io) :
    ((wslayRecv c io).2.1.istate = c.istate ∧ (wslayRecv c io).2.1.ireqread = c.ireqread) ∧
      ((wslayRecv c io).1 = none ∧ RecvGives io (wslayRecv c io).2.2 ∧
          (∃ bs rs, io.recvs = .data bs :: rs ∧ bs ≠ [] ∧
            ((wslayRecv c io).2.1.avail = c.avail ++ bs ∨
              ibufSize ≤ (wslayRecv c io).2.1.avail.length)) ∨
        (wslayRecv c io).1 = some .wantRead ∧ RecvFails io (wslayRecv c io).2.2) := by
  unfold wslayRecv
  -- the window begins with what is available
  obtain ⟨s, hs, hbuf, hmark, hsame⟩ : ∃ s : FrameContext,
      s = (if c.ibufmark ≠ 0 then shiftIbuf c else c) ∧ s.ibuf = c.avail ∧ s.ibufmark = 0 ∧
        s.istate = c.istate ∧ s.ireqread = c.ireqread := by
    by_cases h0 : c.ibufmark ≠ 0
    · exact ⟨shiftIbuf c, by rw [if_pos h0], rfl, rfl, rfl, rfl⟩
    · refine ⟨c, by rw [if_neg h0], ?_, not_not.1 h0, rfl, rfl⟩
      rw [FrameContext.avail, not_not.1 h0, List.drop_zero]
  rw [← hs]
  have hlen : s.ibuf.length < ibufSize := hbuf ▸ hroom
  have hcb := recvCallback_gives io (show 0 < ibufSize - s.ibuf.length by omega)
  obtain ⟨bs, io', heq⟩ : ∃ bs io', io.recvCallback (ibufSize - s.ibuf.length) = (bs, io') :=
    ⟨_, _, rfl⟩
  simp only [heq] at hcb ⊢
  rcases hcb with ⟨bs₀, rs, hrecvs, hne, hbs, htaken, hg⟩ | ⟨hbs, hf⟩
  · rw [if_pos hbs]
    refine ⟨hsame, Or.inl ⟨rfl, hg, bs₀, rs, hrecvs, hne, ?_⟩⟩
    have havail : { s with ibuf := s.ibuf ++ bs }.avail = c.avail ++ bs := by
      rw [FrameContext.avail, hmark, List.drop_zero, hbuf]
    rw [havail]
    rcases htaken with rfl | hfull
    · exact Or.inl rfl
    · refine Or.inr ?_
      rw [List.length_append, hfull, hbuf]
      omega
  · rw [if_neg (not_not.2 hbs)]
    exact ⟨hsame, Or.inr ⟨rfl, hf⟩⟩

/-- A header block that does not get what it needs has been refused, or falls short. -/
theorem requireIbuf_gives {c : FrameContext} (hreq : c.ireqread ≤ 8) (io : Io) :
    (requireIbuf c io).1 = none ∧ RecvGives io (requireIbuf c io).2.2 ∨
      (requireIbuf c io).1 = some .wantRead ∧ (RecvFails io (requireIbuf c io).2.2 ∨
        FallsShort c io ∧ RecvGives io (requireIbuf c io).2.2) := by
  have hsize : 8 < ibufSize := by decide
  unfold requireIbuf
  by_cases hlt : c.avail.length < c.ireqread
  · rw [if_pos hlt]
    obtain ⟨⟨-, hsame⟩, hres⟩ := wslayRecv_gives (show c.avail.length < ibufSize by omega) io
    obtain ⟨e, c', io', heq⟩ : ∃ e c' io', wslayRecv c io = (e, c', io') := ⟨_, _, _, rfl⟩
    simp only [heq] at hsame hres ⊢
    rcases hres with ⟨rfl, hg, bs, rs, hrecvs, hne, hgot⟩ | ⟨rfl, hf⟩
    · simp only [hsame]
      by_cases hlt' : c'.avail.length < c.ireqread
      · rw [if_pos hlt']
        refine Or.inr ⟨rfl, Or.inr ⟨⟨bs, rs, hrecvs, hne, ?_⟩, hg⟩⟩
        rcases hgot with hall | hfull
        · rwa [← hall]
        · omega
      · rw [if_neg hlt']
        exact Or.inl ⟨rfl, hg⟩
    · exact Or.inr ⟨rfl, Or.inl hf⟩
  · rw [if_neg hlt]
    exact Or.inl ⟨rfl, .refl io⟩

/-- The key of the next header falls short. -/
def ShortMaskkey (c : FrameContext) (io : Io) : Prop := c.istate = .recvMaskkey ∧ FallsShort c io

/-- What is left of the next header behind its first two octets falls short. -/
def ShortExtPayloadlen (c : FrameContext) (io : Io) : Prop :=
  c.istate = .recvExtPayloadlen ∧ FallsShort c io ∨
    ∃ c' io', recvExtPayloadlen c io = (none, c', io') ∧ ShortMaskkey c' io'

/-- Reading the next header, `recv_callback` stores something whenever it is
called, and yet there is too little for one of the three header blocks. -/
def ShortRead (c : FrameContext) (io : Io) : Prop :=
  c.istate = .recvHeader1 ∧ FallsShort c io ∨
    ∃ c' io', recvHeader1 c io = (none, c', io') ∧ ShortExtPayloadlen c' io'

/-- A block that needs octets needs a few. -/
def AsksFew (c : FrameContext) : Prop := c.istate ≠ .recvPayload → c.ireqread ≤ 8

/-- What a block of the header comes to. -/
theorem block_gives (st : FrameState) (read : FrameContext → Option Err × FrameContext)
    (hread : ∀ c, ((read c).1 = none ∧ AsksFew (read c).2) ∨ (read c).1 = some .proto)
    {c : FrameContext} (hfew : AsksFew c) (hst : st ≠ .recvPayload) (io : Io)
    {r : Option Err × FrameContext × Io}
    (hr : r = if c.istate = st then
        match requireIbuf c io with
        | (some e, c, io) => (some e, c, io)
        | (none, c, io) => ((read c).1, (read c).2, io)
      else (none, c, io)) :
    (r.1 = none ∧ RecvGives io r.2.2 ∧ AsksFew r.2.1) ∨ r.1 = some .proto ∨
      r.1 = some .wantRead ∧ (RecvFails io r.2.2 ∨
        (c.istate = st ∧ FallsShort c io) ∧ RecvGives io r.2.2) := by
  by_cases hs : c.istate = st
  · rw [if_pos hs] at hr
    have hreq := requireIbuf_gives (hfew (hs ▸ hst)) io
    obtain ⟨e, c', io', heq⟩ : ∃ e c' io', requireIbuf c io = (e, c', io') := ⟨_, _, _, rfl⟩
    simp only [heq] at hreq hr
    subst hr
    rcases hreq with ⟨rfl, hg⟩ | ⟨rfl, hf | ⟨hshort, hg⟩⟩
    · rcases hread c' with ⟨hok, hnext⟩ | hbad
      · exact Or.inl ⟨hok, hg, hnext⟩
      · exact Or.inr (Or.inl hbad)
    · exact Or.inr (Or.inr ⟨rfl, Or.inl hf⟩)
    · exact Or.inr (Or.inr ⟨rfl, Or.inr ⟨⟨hs, hshort⟩, hg⟩⟩)
  · rw [if_neg hs] at hr
    subst hr
    exact Or.inl ⟨rfl, .refl io, hfew⟩

theorem readHeader1_result (c : FrameContext) :
    ((readHeader1 c).1 = none ∧ AsksFew (readHeader1 c).2) ∨ (readHeader1 c).1 = some .proto := by
  unfold readHeader1 AsksFew
  simp only
  split_ifs
  · exact Or.inr rfl
  · exact Or.inl ⟨rfl, fun _ => by simp⟩
  · exact Or.inl ⟨rfl, fun _ => by simp⟩
  · exact Or.inl ⟨rfl, fun _ => by simp⟩
  · exact Or.inl ⟨rfl, fun h => absurd rfl h⟩

theorem readExtPayloadlen_result (c : FrameContext) :
    ((readExtPayloadlen c).1 = none ∧ AsksFew (readExtPayloadlen c).2) ∨
      (readExtPayloadlen c).1 = some .proto := by
  unfold readExtPayloadlen AsksFew
  simp only
  split_ifs
  · exact Or.inr rfl
  · exact Or.inr rfl
  · exact Or.inl ⟨rfl, fun _ => by simp⟩
  · exact Or.inl ⟨rfl, fun h => absurd rfl h⟩

theorem readMaskkey_result (c : FrameContext) : AsksFew (readMaskkey c) := fun h => absurd rfl h

/-- The payload block waits only when it has been refused, and when it has
something to hand out `recv_callback` has not refused. -/
theorem recvPayload_gives (c : FrameContext) (io : Io) :
    ((recvPayload c io).1 ≠ .error .wantRead ∨ RecvFails io (recvPayload c io).2.2) ∧
      ∀ iocb, (recvPayload c io).1 = .ok iocb → RecvGives io (recvPayload c io).2.2 := by
  unfold recvPayload
  by_cases hs : c.istate = .recvPayload
  · rw [if_pos hs]
    by_cases hask : c.avail = [] ∧ 0 < c.ipayloadlen - c.ipayloadoff
    · rw [if_pos hask]
      obtain ⟨-, hres⟩ := wslayRecv_gives (show c.avail.length < ibufSize by
        rw [hask.1]
        decide) io
      obtain ⟨e, c', io', heq⟩ : ∃ e c' io', wslayRecv c io = (e, c', io') := ⟨_, _, _, rfl⟩
      simp only [heq] at hres ⊢
      rcases hres with ⟨rfl, hg, -⟩ | ⟨rfl, hf⟩
      · exact ⟨Or.inl (by simp), fun _ _ => hg⟩
      · exact ⟨Or.inr hf, fun iocb h => by simp at h⟩
    · rw [if_neg hask]
      exact ⟨Or.inl (by simp), fun _ _ => .refl io⟩
  · rw [if_neg hs]
    exact ⟨Or.inl (by simp), fun iocb h => by simp at h⟩

/-- **Why `wslay_frame_recv` waits**: `recv_callback` has refused or would block,
or the header falls short. -/
theorem frameRecv_waits {c : FrameContext} (hfew : AsksFew c) (io : Io)
    (he : (frameRecv c io).1 = .error .wantRead) :
    RecvFails io (frameRecv c io).2.2 ∨ ShortRead c io ∧ RecvGives io (frameRecv c io).2.2 := by
  -- the three header blocks, one after the other, and the payload
  have h1 := block_gives .recvHeader1 readHeader1 readHeader1_result hfew (by simp) io
    (rfl : recvHeader1 c io = _)
  unfold frameRecv at he ⊢
  obtain ⟨e₁, c₁, io₁, heq₁⟩ : ∃ e c' io', recvHeader1 c io = (e, c', io') := ⟨_, _, _, rfl⟩
  simp only [heq₁] at h1 he ⊢
  rcases h1 with ⟨rfl, hg₁, hfew₁⟩ | rfl | ⟨rfl, hf | ⟨hshort, hg₁⟩⟩
  · have h2 := block_gives .recvExtPayloadlen readExtPayloadlen readExtPayloadlen_result hfew₁ (by simp) io₁
      (rfl : recvExtPayloadlen c₁ io₁ = _)
    obtain ⟨e₂, c₂, io₂, heq₂⟩ : ∃ e c' io', recvExtPayloadlen c₁ io₁ = (e, c', io') :=
      ⟨_, _, _, rfl⟩
    simp only [heq₂] at h2 he ⊢
    rcases h2 with ⟨rfl, hg₂, hfew₂⟩ | rfl | ⟨rfl, hf | ⟨hshort, hg₂⟩⟩
    · have h3 := block_gives .recvMaskkey (fun c => (none, readMaskkey c))
        (fun c => Or.inl ⟨rfl, readMaskkey_result c⟩) hfew₂ (by simp) io₂
        (rfl : recvMaskkey c₂ io₂ = _)
      obtain ⟨e₃, c₃, io₃, heq₃⟩ : ∃ e c' io', recvMaskkey c₂ io₂ = (e, c', io') :=
        ⟨_, _, _, rfl⟩
      simp only [heq₃] at h3 he ⊢
      rcases h3 with ⟨rfl, hg₃, -⟩ | rfl | ⟨rfl, hf | ⟨hshort, hg₃⟩⟩
      · rcases (recvPayload_gives c₃ io₃).1 with hne | hf
        · exact absurd he hne
        · exact Or.inl (hg₁.fails (hg₂.fails (hg₃.fails hf)))
      · simp at he
      · exact Or.inl (hg₁.fails (hg₂.fails hf))
      · exact Or.inr ⟨Or.inr ⟨c₁, io₁, heq₁, Or.inr ⟨c₂, io₂, heq₂, hshort⟩⟩,
          (hg₁.trans hg₂).trans hg₃⟩
    · simp at he
    · exact Or.inl (hg₁.fails hf)
    · exact Or.inr ⟨Or.inr ⟨c₁, io₁, heq₁, Or.inl hshort⟩, hg₁.trans hg₂⟩
  · simp at he
  · exact Or.inl hf
  · exact Or.inr ⟨Or.inl hshort, hg₁⟩

/-- Where octets fall short the block waits, and leaves `ctx->error` alone. -/
theorem FallsShort.waits {c : FrameContext} {io : Io} (h : FallsShort c io) :
    (requireIbuf c io).1 = some .wantRead ∧ (requireIbuf c io).2.2.error = io.error := by
  obtain ⟨bs, rs, hrecvs, -, hlt⟩ := h
  have hfew : c.avail.length < c.ireqread := by
    rw [List.length_append] at hlt
    omega
  -- the window after the call, whatever part of `bs` it takes
  obtain ⟨c₀, hc₀⟩ : ∃ c₀, (if c.ibufmark ≠ 0 then shiftIbuf c else c) = c₀ := ⟨_, rfl⟩
  have havail : c₀.ibuf = c.avail ∧ c₀.ibufmark = 0 ∧ c₀.ireqread = c.ireqread := by
    rw [← hc₀]
    split_ifs with h0
    · exact ⟨rfl, rfl, rfl⟩
    · rw [FrameContext.avail, not_not.1 h0]
      exact ⟨rfl, rfl, rfl⟩
  have hshort : ∀ part : List UInt8, part.length ≤ bs.length →
      ({ c₀ with ibuf := c₀.ibuf ++ part } : FrameContext).avail.length < c₀.ireqread := by
    intro part hpart
    rw [FrameContext.avail, havail.2.1, List.drop_zero, havail.1, havail.2.2]
    rw [List.length_append] at hlt ⊢
    omega
  unfold requireIbuf wslayRecv
  simp only [if_pos hfew, hc₀, Io.recvCallback, hrecvs]
  by_cases hroom : bs.length ≤ ibufSize - c₀.ibuf.length
  · simp only [if_pos hroom]
    by_cases hnil : bs = []
    · simp [hnil]
    · simp only [if_pos hnil, if_pos (hshort bs (Nat.le_refl _))]
      exact ⟨trivial, trivial⟩
  · simp only [if_neg hroom]
    by_cases hnil : bs.take (ibufSize - c₀.ibuf.length) = []
    · simp [hnil]
    · simp only [ne_eq, hnil, not_false_eq_true, if_true]
      rw [if_pos (hshort _ (List.length_take_le' _ _))]
      exact ⟨rfl, rfl⟩

/-- A header that falls short makes the call wait, and leaves `ctx->error` as it was. -/
theorem ShortRead.waits {c : FrameContext} {io : Io} (hfew : AsksFew c) (h : ShortRead c io) :
    (frameRecv c io).1 = .error .wantRead ∧ (frameRecv c io).2.2.error = io.error := by
  have hblock : ∀ {c : FrameContext} {io : Io}, FallsShort c io →
      ∃ c' io', requireIbuf c io = (some .wantRead, c', io') ∧ io'.error = io.error := by
    intro c io hshort
    obtain ⟨he, herror⟩ := hshort.waits
    exact ⟨_, _, Prod.ext he rfl, herror⟩
  unfold frameRecv
  rcases h with ⟨hs, hshort⟩ | ⟨c₁, io₁, heq₁, h⟩
  · obtain ⟨c', io', heq, herror⟩ := hblock hshort
    rw [recvHeader1, if_pos hs, heq]
    exact ⟨rfl, herror⟩
  have h1 := block_gives .recvHeader1 readHeader1 readHeader1_result hfew (by simp) io
    (rfl : recvHeader1 c io = _)
  rw [heq₁] at h1 ⊢
  obtain ⟨hg₁, hfew₁⟩ : RecvGives io io₁ ∧ AsksFew c₁ := by
    rcases h1 with ⟨-, h⟩ | h | ⟨h, -⟩
    · exact h
    · cases h
    · cases h
  simp only
  rcases h with ⟨hs, hshort⟩ | ⟨c₂, io₂, heq₂, h⟩
  · obtain ⟨c', io', heq, herror⟩ := hblock hshort
    rw [recvExtPayloadlen, if_pos hs, heq]
    exact ⟨rfl, herror.trans hg₁.error⟩
  have h2 := block_gives .recvExtPayloadlen readExtPayloadlen readExtPayloadlen_result hfew₁
    (by simp) io₁ (rfl : recvExtPayloadlen c₁ io₁ = _)
  rw [heq₂] at h2 ⊢
  have hg₂ : RecvGives io₁ io₂ := by
    rcases h2 with ⟨-, h, -⟩ | h | ⟨h, -⟩
    · exact h
    · cases h
    · cases h
  simp only
  obtain ⟨c', io', heq, herror⟩ := hblock h.2
  rw [recvMaskkey, if_pos h.1, heq]
  exact ⟨rfl, (herror.trans hg₂.error).trans hg₁.error⟩

/-- When `wslay_frame_recv` hands out a piece, `recv_callback` has not refused. -/
theorem frameRecv_gives {c : FrameContext} (hfew : AsksFew c) (io : Io) {iocb : Iocb}
    (hok : (frameRecv c io).1 = .ok iocb) : RecvGives io (frameRecv c io).2.2 := by
  have h1 := block_gives .recvHeader1 readHeader1 readHeader1_result hfew (by simp) io
    (rfl : recvHeader1 c io = _)
  unfold frameRecv at hok ⊢
  obtain ⟨e₁, c₁, io₁, heq₁⟩ : ∃ e c' io', recvHeader1 c io = (e, c', io') := ⟨_, _, _, rfl⟩
  simp only [heq₁] at h1 hok ⊢
  rcases h1 with ⟨rfl, hg₁, hfew₁⟩ | rfl | ⟨rfl, -⟩
  · have h2 := block_gives .recvExtPayloadlen readExtPayloadlen readExtPayloadlen_result hfew₁
      (by simp) io₁ (rfl : recvExtPayloadlen c₁ io₁ = _)
    obtain ⟨e₂, c₂, io₂, heq₂⟩ : ∃ e c' io', recvExtPayloadlen c₁ io₁ = (e, c', io') :=
      ⟨_, _, _, rfl⟩
    simp only [heq₂] at h2 hok ⊢
    rcases h2 with ⟨rfl, hg₂, hfew₂⟩ | rfl | ⟨rfl, -⟩
    · have h3 := block_gives .recvMaskkey (fun c => (none, readMaskkey c))
        (fun c => Or.inl ⟨rfl, readMaskkey_result c⟩) hfew₂ (by simp) io₂
        (rfl : recvMaskkey c₂ io₂ = _)
      obtain ⟨e₃, c₃, io₃, heq₃⟩ : ∃ e c' io', recvMaskkey c₂ io₂ = (e, c', io') :=
        ⟨_, _, _, rfl⟩
      simp only [heq₃] at h3 hok ⊢
      rcases h3 with ⟨rfl, hg₃, -⟩ | rfl | ⟨rfl, -⟩
      · exact ((hg₁.trans hg₂).trans hg₃).trans ((recvPayload_gives c₃ io₃).2 iocb hok)
      · simp at hok
      · simp at hok
    · simp at hok
    · simp at hok
  · simp at hok
  · simp at hok

/-! ## Calls of `send_callback` -/

/-- A result `<= 0`. -/
def SendResult.Refuses : SendResult → Prop
  | .accept n => n = 0
  | .overrun _ => False
  | .fail _ => True

/-- Between `io` and `io'` calls of `send_callback` have been made, and the last of
them gave a result `<= 0`. -/
def SendRefused (io io' : Io) : Prop := ∃ r : SendResult, r.Refuses ∧ r :: io'.sends <:+ io.sends

/-- The last call of `send_callback` has refused, or it would have blocked. -/
def SendFails (io io' : Io) : Prop := SendRefused io io' ∨ io'.error = Err.wouldblock.code

/-- The last call of `send_callback` claims to have taken more than it was offered. -/
def SendOverran (io io' : Io) : Prop := ∃ n, .overrun n :: io'.sends <:+ io.sends

/-- The last call of `genmask_callback` has failed. -/
def MaskFailed (io io' : Io) : Prop := none :: io'.masks <:+ io.masks

/-- A call of `send_callback` fails, takes something, or overruns. -/
theorem sendCallback_ends (io : Io) (offer : Offer) :
    ((io.sendCallback offer).1 ≤ 0 ∧ SendFails io (io.sendCallback offer).2) ∨
      (∃ n, 0 < n ∧ .accept n :: (io.sendCallback offer).2.sends = io.sends ∧
        (io.sendCallback offer).1 = (min n offer.data.length : Nat) ∧
        (io.sendCallback offer).2.error = io.error) ∨
      (offer.data.length : Int) < (io.sendCallback offer).1 ∧
        SendOverran io (io.sendCallback offer).2 := by
  unfold Io.sendCallback
  cases hs : io.sends with
  | nil => exact Or.inl ⟨by simp, Or.inr rfl⟩
  | cons r rs =>
    have hlast : r :: rs <:+ io.sends := hs ▸ List.suffix_rfl
    cases r with
    | fail e => exact Or.inl ⟨by simp, Or.inl ⟨.fail e, trivial, hlast⟩⟩
    | overrun n =>
      refine Or.inr (Or.inr ⟨?_, n, hlast⟩)
      change (offer.data.length : Int) < offer.data.length + 1 + n
      omega
    | accept n =>
      by_cases h0 : n = 0
      · subst h0
        exact Or.inl ⟨by simp, Or.inl ⟨.accept 0, rfl, hlast⟩⟩
      · refine Or.inr (Or.inl ⟨n, by omega, rfl, ?_, rfl⟩)
        change min (n : Int) offer.data.length = _
        omega

/-- What makes the encoder fail once the header is there. -/
def PayloadFailure (e : Err) (io io' : Io) : Prop :=
  e = .wantWrite ∧ SendFails io io' ∨ e = .invalidCallback ∧ SendOverran io io'

/-- Results used before make no difference. -/
theorem PayloadFailure.of_later {e : Err} {io io₁ io' : Io} (hs : io₁.sends <:+ io.sends)
    (h : PayloadFailure e io₁ io') : PayloadFailure e io io' := by
  rcases h with ⟨rfl, ⟨r, hr, h⟩ | hblock⟩ | ⟨rfl, n, h⟩
  · exact Or.inl ⟨rfl, Or.inl ⟨r, hr, h.trans hs⟩⟩
  · exact Or.inl ⟨rfl, Or.inr hblock⟩
  · exact Or.inr ⟨rfl, n, h.trans hs⟩

/-- The masking loop fails when its first piece is refused, or one overruns. -/
theorem sendMaskedLoop_failure (fuel : Nat) (c : FrameContext) (data : List UInt8) (tot : Nat)
    (io : Io) {e : Err} (he : (sendMaskedLoop fuel c data tot io).1 = .error e) :
    PayloadFailure e io (sendMaskedLoop fuel c data tot io).2.2 := by
  induction fuel generalizing c data tot io with
  | zero => simp [sendMaskedLoop] at he
  | succ fuel ih =>
    unfold sendMaskedLoop at he ⊢
    by_cases hnil : data = []
    · rw [if_pos hnil] at he
      simp at he
    · rw [if_neg hnil] at he ⊢
      have hpos : 0 < data.length := List.length_pos_of_ne_nil hnil
      have hlen : 0 < (xorFrom c.omaskkey c.opayloadoff (data.take tempSize)).length := by
        rw [Octets.length_xorFrom, List.length_take, tempSize]
        omega
      have hcb := sendCallback_ends io
        ⟨xorFrom c.omaskkey c.opayloadoff (data.take tempSize), false, false⟩
      obtain ⟨r, io₁, hcall⟩ : ∃ r io₁, io.sendCallback
          ⟨xorFrom c.omaskkey c.opayloadoff (data.take tempSize), false, false⟩ = (r, io₁) :=
        ⟨_, _, rfl⟩
      simp only [hcall] at hcb he ⊢
      rcases hcb with ⟨hr, hf⟩ | ⟨n, hn, hs, hr, -⟩ | ⟨hr, ho⟩
      · rw [if_neg (by omega)] at he ⊢
        by_cases htot : 0 < tot
        · rw [if_pos htot] at he
          simp at he
        · rw [if_neg htot] at he ⊢
          cases he
          exact Or.inl ⟨rfl, hf⟩
      · rw [if_pos (by omega), if_neg (by omega)] at he ⊢
        exact (ih _ _ _ _ he).of_later (hs ▸ List.suffix_cons ..)
      · rw [if_pos (by omega), if_pos hr] at he ⊢
        cases he
        exact Or.inr ⟨rfl, ho⟩

theorem sendData_failure (c : FrameContext) (iocb : Iocb) (io : Io) {e : Err}
    (he : (sendData c iocb io).1 = .error e) : PayloadFailure e io (sendData c iocb io).2.2 := by
  unfold sendData at he ⊢
  by_cases hnil : iocb.data = []
  · rw [if_pos hnil] at he
    simp at he
  · rw [if_neg hnil] at he ⊢
    by_cases hmask : c.omask = true
    · rw [if_pos hmask] at he ⊢
      exact sendMaskedLoop_failure _ _ _ _ _ he
    · rw [if_neg hmask] at he ⊢
      have hpos : 0 < iocb.data.length := List.length_pos_of_ne_nil hnil
      have hcb := sendCallback_ends io ⟨iocb.data, false, true⟩
      obtain ⟨r, io₁, hcall⟩ : ∃ r io₁, io.sendCallback ⟨iocb.data, false, true⟩ = (r, io₁) :=
        ⟨_, _, rfl⟩
      simp only [hcall] at hcb he ⊢
      rcases hcb with ⟨hr, hf⟩ | ⟨n, hn, hs, hr, -⟩ | ⟨hr, ho⟩
      · rw [if_neg (by omega)] at he ⊢
        cases he
        exact Or.inl ⟨rfl, hf⟩
      · rw [if_pos (by omega), if_neg (by omega)] at he
        simp at he
      · rw [if_pos (by omega), if_pos hr] at he ⊢
        cases he
        exact Or.inr ⟨rfl, ho⟩

/-- The last block fails for want of a callback, once it is entered. -/
theorem sendPayload_failure {c : FrameContext} (hs : c.ostate = .sendPayload) (iocb : Iocb) (io : Io)
    {e : Err} (he : (sendPayload c iocb io).1 = .error e) :
    PayloadFailure e io (sendPayload c iocb io).2.2 := by
  unfold sendPayload at he ⊢
  rw [if_pos hs] at he ⊢
  have hdata : ∀ e, (sendData c iocb io).1 = .error e →
      PayloadFailure e io (sendData c iocb io).2.2 := fun _ => sendData_failure c iocb io
  obtain ⟨r, c', io', hcall⟩ : ∃ r c' io', sendData c iocb io = (r, c', io') := ⟨_, _, _, rfl⟩
  simp only [hcall] at hdata he ⊢
  cases r with
  | error e' =>
    cases he
    exact hdata e rfl
  | ok n =>
    simp only at he
    split_ifs at he

/-! ## Headers that are not yet sent -/

/-- `send_callback` takes a part of the rest of the header, and not all of it. -/
def CutsShort (c : FrameContext) (io : Io) : Prop :=
  ∃ n rs, io.sends = .accept n :: rs ∧ 0 < n ∧ n < c.oheaderRest.length

theorem fromSendHeader_failure {c : FrameContext}
    (hs : c.ostate = .sendHeader ∧ c.oheaderRest ≠ [] ∨ c.ostate = .sendPayload) (iocb : Iocb)
    (io : Io) {e : Err} (he : (fromSendHeader c iocb io).1 = .error e) :
    PayloadFailure e io (fromSendHeader c iocb io).2.2 ∨
      e = .wantWrite ∧ (c.ostate = .sendHeader ∧ CutsShort c io) ∧
        (fromSendHeader c iocb io).2.2.error = io.error := by
  rcases hs with ⟨hs, hne⟩ | hs
  · unfold fromSendHeader sendHeader at he ⊢
    rw [if_pos hs] at he ⊢
    have hcb := sendCallback_ends io ⟨c.oheaderRest, decide (iocb.data ≠ []), false⟩
    obtain ⟨r, io₁, hcall⟩ : ∃ r io₁, io.sendCallback
        ⟨c.oheaderRest, decide (iocb.data ≠ []), false⟩ = (r, io₁) := ⟨_, _, rfl⟩
    simp only [hcall] at hcb he ⊢
    rcases hcb with ⟨hr, hf⟩ | ⟨n, hn, hsend, hr, herr⟩ | ⟨hr, ho⟩
    · rw [if_neg (by omega)] at he ⊢
      cases he
      exact Or.inl (Or.inl ⟨rfl, hf⟩)
    · have hpos : 0 < c.oheaderRest.length := List.length_pos_of_ne_nil hne
      rw [if_pos (by omega), if_neg (by omega)] at he ⊢
      have hlen : c.oheaderRest.length = c.oheader.length - c.oheadermark := List.length_drop ..
      by_cases hall : c.oheadermark + r.toNat = c.oheader.length
      · rw [if_pos hall] at he ⊢
        exact Or.inl ((sendPayload_failure rfl iocb io₁ he).of_later (hsend ▸ List.suffix_cons ..))
      · rw [if_neg hall] at he ⊢
        cases he
        have hr' : r.toNat = min n c.oheaderRest.length := by
          rw [hr]
          rfl
        refine Or.inr ⟨rfl, ⟨hs, n, io₁.sends, hsend.symm, hn, ?_⟩, herr⟩
        omega
    · rw [if_pos (by omega), if_pos hr] at he ⊢
      cases he
      exact Or.inl (Or.inr ⟨rfl, ho⟩)
  · have hskip : sendHeader c iocb io = (none, c, io) := by
      rw [sendHeader, if_neg (by rw [hs]; decide)]
    unfold fromSendHeader at he ⊢
    rw [hskip] at he ⊢
    exact Or.inl (sendPayload_failure hs iocb io he)

/-- The header, or what is left of it, is cut short by `send_callback`. -/
def ShortWrite (c : FrameContext) (iocb : Iocb) (io : Io) : Prop :=
  ∃ c' io', sendPrepHeader c iocb io = (none, c', io') ∧ c'.ostate = .sendHeader ∧ CutsShort c' io'

/-- A header that is cut short leaves `ctx->error` as it was. -/
theorem ShortWrite.fails {c : FrameContext} {iocb : Iocb} {io : Io}
    (hle : iocb.data.length ≤ iocb.payloadLength) (h : ShortWrite c iocb io) :
    (frameSend c iocb io).1 = .error .wantWrite ∧ (frameSend c iocb io).2.2.error = io.error := by
  obtain ⟨c', io', hprep, hstate, n, rs, hsends, hpos, hshort⟩ := h
  have herror : io'.error = io.error := by
    have hblock : (sendPrepHeader c iocb io).2.2.error = io.error := by
      unfold sendPrepHeader Io.genmaskCallback
      dsimp only
      split_ifs
      · rfl
      · cases headerLength iocb.mask iocb.payloadLength with
        | none => rfl
        | some len =>
          dsimp only
          cases io.masks with
          | nil => rfl
          | cons m ms => cases m <;> rfl
      · cases headerLength iocb.mask iocb.payloadLength <;> rfl
      · rfl
    rwa [hprep] at hblock
  have hend : c'.oheadermark + n ≠ c'.oheader.length := by
    rw [FrameContext.oheaderRest, List.length_drop] at hshort
    omega
  have hmin : min (n : Int) (c'.oheaderRest.length : Int) = n := by omega
  have hlt : ¬ (c'.oheaderRest.length : Int) < (n : Int) := by omega
  unfold frameSend
  rw [if_neg (Nat.not_lt.2 hle), hprep]
  simp only [sendHeader, hstate, if_true, Io.sendCallback, hsends, hmin, Int.natCast_pos, hpos, hlt,
    if_false, Int.toNat_natCast, hend]
  exact ⟨trivial, herror⟩

/-- **Why `wslay_frame_send` fails**: `send_callback` has refused, overrun or would
block, there is no key, the header is cut short, or the call is not acceptable. -/
theorem frameSend_failure {c : FrameContext} {e : Enc} (hv : EncView c e) {iocb : Iocb}
    (hle : iocb.data.length ≤ iocb.payloadLength) (io : Io) {err : Err}
    (he : (frameSend c iocb io).1 = .error err) :
    err = .wantWrite ∧ (SendFails io (frameSend c iocb io).2.2 ∨
        ShortWrite c iocb io ∧ (frameSend c iocb io).2.2.error = io.error) ∨
      err = .invalidCallback ∧ (SendOverran io (frameSend c iocb io).2.2 ∨
        MaskFailed io (frameSend c iocb io).2.2) ∨
      err = .invalidArgument ∧ e = .idle ∧ ¬ iocb.Sendable := by
  -- what the blocks behind the first one come to, from a world that differs by a key
  have hlater : ∀ c₁ io₁, sendPrepHeader c iocb io = (none, c₁, io₁) →
      io₁.sends = io.sends → io₁.error = io.error →
      (c₁.ostate = .sendHeader ∧ c₁.oheaderRest ≠ [] ∨ c₁.ostate = .sendPayload) →
      err = .wantWrite ∧ (SendFails io (fromSendHeader c₁ iocb io₁).2.2 ∨
          ShortWrite c iocb io ∧ (fromSendHeader c₁ iocb io₁).2.2.error = io.error) ∨
        err = .invalidCallback ∧ SendOverran io (fromSendHeader c₁ iocb io₁).2.2 := by
    intro c₁ io₁ hprep hsends herr hs
    have hcall : frameSend c iocb io = fromSendHeader c₁ iocb io₁ := by
      rw [frameSend_eq hle, hprep]
    rw [hcall] at he
    rcases fromSendHeader_failure hs iocb io₁ he with hp | ⟨rfl, hcut, hsame⟩
    · have hsuf : io₁.sends <:+ io.sends := hsends ▸ List.suffix_rfl
      rcases hp.of_later hsuf with ⟨rfl, hf⟩ | ⟨rfl, ho⟩
      · exact Or.inl ⟨rfl, Or.inl hf⟩
      · exact Or.inr ⟨rfl, ho⟩
    · exact Or.inl ⟨rfl, Or.inr ⟨⟨c₁, io₁, hprep, hcut⟩, hsame.trans herr⟩⟩
  have hweaken : ∀ {io' : Io}, (err = .wantWrite ∧ (SendFails io io' ∨
        ShortWrite c iocb io ∧ io'.error = io.error) ∨ err = .invalidCallback ∧ SendOverran io io') →
      (err = .wantWrite ∧ (SendFails io io' ∨ ShortWrite c iocb io ∧ io'.error = io.error) ∨
        err = .invalidCallback ∧ (SendOverran io io' ∨ MaskFailed io io') ∨
        err = .invalidArgument ∧ e = .idle ∧ ¬ iocb.Sendable) := by
    rintro io' (h | ⟨h, ho⟩)
    · exact Or.inl h
    · exact Or.inr (Or.inl ⟨h, Or.inl ho⟩)
  cases e with
  | busy len hrest off =>
    have hprep : sendPrepHeader c iocb io = (none, c, io) := by
      rw [sendPrepHeader, if_neg hv.ostate_ne]
    rw [frameSend_eq hle, hprep]
    refine hweaken (hlater c io hprep rfl rfl ?_)
    cases hv with
    | header _ _ hs hrest hne => exact Or.inl ⟨hs, by rwa [hrest]⟩
    | payload _ _ hs => exact Or.inr hs
  | idle =>
    have hstate : c.ostate = .prepHeader := by
      cases hv with
      | idle h => exact h
    have hready : ∀ key, (c.prepared iocb key).ostate = .sendHeader ∧
        (c.prepared iocb key).oheaderRest ≠ [] := by
      intro key
      refine ⟨rfl, ?_⟩
      change ((iocb.header key).encode).drop 0 ≠ []
      simp [Header.encode]
    rcases sendPrepHeader_spec hstate iocb io with ⟨hno, heq⟩ | ⟨-, ⟨-, hgen, heq⟩ | ⟨-, heq⟩ |
      ⟨key, io₁, -, hgen, heq⟩⟩
    · rw [frameSend_eq hle, heq] at he
      cases he
      exact Or.inr (Or.inr ⟨rfl, rfl, hno⟩)
    · rw [frameSend_eq hle, heq] at he ⊢
      cases he
      refine Or.inr (Or.inl ⟨rfl, Or.inr ?_⟩)
      unfold MaskFailed
      unfold Io.genmaskCallback at hgen ⊢
      cases hm : io.masks with
      | nil => simp [hm] at hgen
      | cons m ms =>
        simp only [hm] at hgen ⊢
        rw [hgen]
    · rw [frameSend_eq hle, heq]
      exact hweaken (hlater _ io heq rfl rfl (Or.inl (hready none)))
    · rw [frameSend_eq hle, heq]
      have hio : io₁.sends = io.sends ∧ io₁.error = io.error := by
        unfold Io.genmaskCallback at hgen
        cases hm : io.masks with
        | nil =>
          simp only [hm, Prod.mk.injEq] at hgen
          rw [← hgen.2]
          exact ⟨rfl, rfl⟩
        | cons m ms =>
          simp only [hm, Prod.mk.injEq] at hgen
          rw [← hgen.2]
          exact ⟨rfl, rfl⟩
      exact hweaken (hlater _ io₁ heq hio.1 hio.2 (Or.inl (hready (some key))))

end Wslay
