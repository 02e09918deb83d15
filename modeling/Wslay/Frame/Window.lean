import Wslay.Frame.DecodeRun
import Wslay.Frame.Halves

/-!
# The input window

`wslay_frame_recv` looks for its input between `ibufmark` and `ibuflimit`.  The
window is moved to the start of the buffer before a refill, and the payload is
unmasked inside it.

* `Placed` — the window is well placed; this does not depend on what has been
  received, so it outlives a protocol error.
* `Touch`, `frameRecvTouches` — the places in a call where the window is refilled or read.
* `frameRecvNoted_eq` — the call does the same when it is shown what it reads there only.
* `frameRecv_placed` — one call.
* `window_well_placed` — every run of the two functions on a frame context.
-/

namespace Wslay

open Octets (xorFrom)

/-- The state is one of the four that receive, with the number of octets that its
block needs; the offset in the payload does not exceed its length. -/
def Resumable (c : FrameContext) : Prop :=
  match c.istate with
  | .recvHeader1 => c.ireqread = 2
  | .recvExtPayloadlen => c.ireqread = 2 ∨ c.ireqread = 8
  | .recvMaskkey => c.ireqread = 4 ∧ c.ipayloadoff ≤ c.ipayloadlen
  | .recvPayload => c.ipayloadoff ≤ c.ipayloadlen
  | _ => False

/-- **The window is well placed**, and the next call can go on. -/
structure Placed (c : FrameContext) : Prop where
  window : Window c
  state : Resumable c

theorem placed_new : Placed FrameContext.new := ⟨⟨Nat.le_refl _, Nat.zero_le _⟩, rfl⟩

theorem Placed.header1 {c : FrameContext} (hp : Placed c) (hs : c.istate = .recvHeader1) :
    c.ireqread = 2 := by
  have h := hp.state
  rw [Resumable, hs] at h
  exact h

theorem Placed.ext {c : FrameContext} (hp : Placed c) (hs : c.istate = .recvExtPayloadlen) :
    c.ireqread = 2 ∨ c.ireqread = 8 := by
  have h := hp.state
  rw [Resumable, hs] at h
  exact h

theorem Placed.maskkey {c : FrameContext} (hp : Placed c) (hs : c.istate = .recvMaskkey) :
    c.ireqread = 4 ∧ c.ipayloadoff ≤ c.ipayloadlen := by
  have h := hp.state
  rw [Resumable, hs] at h
  exact h

theorem Placed.payload {c : FrameContext} (hp : Placed c) (hs : c.istate = .recvPayload) :
    c.ipayloadoff ≤ c.ipayloadlen := by
  have h := hp.state
  rw [Resumable, hs] at h
  exact h

/-- What is well placed depends on the receiving half only. -/
theorem Placed.congr {c c' : FrameContext} (hp : Placed c) (h : c'.recvHalf = c.recvHalf) :
    Placed c' := by
  simp only [FrameContext.recvHalf, Prod.mk.injEq] at h
  obtain ⟨h1, h2, -, h4, h5, -, -, h8, h9⟩ := h
  refine ⟨⟨by rw [h1, h2]; exact hp.window.mark_le, by rw [h1]; exact hp.window.size_le⟩, ?_⟩
  rw [Resumable, h8, h9, h4, h5]
  exact hp.state

/-- A refill keeps the window well placed. -/
theorem Placed.refilled {c c' : FrameContext} {io io' : Io} {bs : List UInt8} (hp : Placed c)
    (h : Refilled c io bs c' io') : Placed c' := by
  refine ⟨h.window, ?_⟩
  rw [h.rest]
  exact hp.state

/-! ## What happens to the window in a call -/

/-- An access to the input window. -/
inductive Touch where
  /-- `wslay_recv` is called. -/
  | refill (c : FrameContext)
  /-- `n` octets from `ibufmark` on are read. -/
  | read (c : FrameContext) (n : Nat)
  /-- `rempayloadlen` is computed. -/
  | remaining (c : FrameContext)

/-- The room that `wslay_recv` offers to `recv_callback`. -/
def refillRoom (c : FrameContext) : Nat :=
  ibufSize - (if c.ibufmark ≠ 0 then shiftIbuf c else c).ibuf.length

/-- The access is as it should be. -/
def Touch.Safe : Touch → Prop
  | .refill c => 4089 ≤ refillRoom c
  | .read c n => c.ibufmark + n ≤ c.ibuf.length
  | .remaining c => c.ipayloadoff ≤ c.ipayloadlen

/-- The accesses of a header block that reads `n` octets. -/
def headerTouches (n : FrameContext → Nat) (c : FrameContext) (io : Io) : List Touch :=
  (if c.avail.length < c.ireqread then [.refill c] else []) ++
    match requireIbuf c io with
    | (some _, _, _) => []
    | (none, c, _) => [.read c (n c)]

/-- The accesses of the last block. -/
def payloadTouches (c : FrameContext) (io : Io) : List Touch :=
  if c.istate = .recvPayload then
    .remaining c :: if c.avail = [] ∧ 0 < c.ipayloadlen - c.ipayloadoff then
      .refill c :: match wslayRecv c io with
        | (some _, _, _) => []
        | (none, c, _) => [.read c (min c.avail.length (c.ipayloadlen - c.ipayloadoff))]
    else [.read c (min c.avail.length (c.ipayloadlen - c.ipayloadoff))]
  else []

/-- The accesses of a call of `wslay_frame_recv`, block by block. -/
def frameRecvTouches (c : FrameContext) (io : Io) : List Touch :=
  (if c.istate = .recvHeader1 then headerTouches (fun _ => 2) c io else []) ++
    match recvHeader1 c io with
    | (some _, _, _) => []
    | (none, c, io) =>
      (if c.istate = .recvExtPayloadlen then headerTouches FrameContext.ireqread c io else []) ++
        match recvExtPayloadlen c io with
        | (some _, _, _) => []
        | (none, c, io) =>
          (if c.istate = .recvMaskkey then headerTouches (fun _ => 4) c io else []) ++
            match recvMaskkey c io with
            | (some _, _, _) => []
            | (none, c, io) => payloadTouches c io

/-- A refill is offered all of the buffer but what has not been consumed. -/
theorem refillRoom_eq {c : FrameContext} : refillRoom c = ibufSize - c.avail.length := by
  unfold refillRoom
  by_cases h0 : c.ibufmark ≠ 0
  · rw [if_pos h0]
    rfl
  · rw [if_neg h0, FrameContext.avail, not_not.1 h0, List.drop_zero]

theorem Touch.Safe.of_avail {c : FrameContext} {n : Nat} (hw : Window c)
    (h : n ≤ c.avail.length) : (Touch.read c n).Safe := by
  have hlen := length_avail (c := c)
  have hmark := hw.mark_le
  show c.ibufmark + n ≤ c.ibuf.length
  omega

/-! ## The call on no more than it touches -/

/-- The context as a reader of `n` octets sees it: nothing lies behind them. -/
def FrameContext.upTo (c : FrameContext) (n : Nat) : FrameContext :=
  { c with ibuf := c.ibuf.take (c.ibufmark + n) }

/-- What a reader of `n` octets of `c` leaves, with the octets behind them put back. -/
def FrameContext.putBack (c' c : FrameContext) (n : Nat) : FrameContext :=
  { c' with ibuf := c'.ibuf ++ c.ibuf.drop (c.ibufmark + n) }

/-- `requireIbuf`, with the access that it makes. -/
def requireIbufNoted (c : FrameContext) (io : Io) : List Touch × Option Err × FrameContext × Io :=
  if c.avail.length < c.ireqread then
    match wslayRecv c io with
    | (some e, c', io') => ([.refill c], some e, c', io')
    | (none, c', io') =>
      if c'.avail.length < c'.ireqread then ([.refill c], some .wantRead, c', io')
      else ([.refill c], none, c', io')
  else ([], none, c, io)

/-- A header block, with the accesses that it makes: what it reads it is shown, and
nothing else of the window. -/
def headerNoted (st : FrameState) (n : FrameContext → Nat)
    (read : FrameContext → Option Err × FrameContext) (c : FrameContext) (io : Io) :
    List Touch × Option Err × FrameContext × Io :=
  if c.istate = st then
    match requireIbufNoted c io with
    | (ts, some e, c, io) => (ts, some e, c, io)
    | (ts, none, c, io) =>
      (ts ++ [.read c (n c)], (read (c.upTo (n c))).1, (read (c.upTo (n c))).2.putBack c (n c), io)
  else ([], none, c, io)

/-- The octets of the payload that a call hands out of the window. -/
def payloadPart (c : FrameContext) : Nat :=
  min c.avail.length (c.ipayloadlen - c.ipayloadoff)

/-- The last block, with the accesses that it makes. -/
def payloadNoted (c : FrameContext) (io : Io) :
    List Touch × Except Err Iocb × FrameContext × Io :=
  let handOut := fun (ts : List Touch) (c : FrameContext) (io : Io) =>
    (ts ++ [.read c (payloadPart c)], .ok (readPayload (c.upTo (payloadPart c))).1,
      (readPayload (c.upTo (payloadPart c))).2.putBack c (payloadPart c), io)
  if c.istate = .recvPayload then
    if c.avail = [] ∧ 0 < c.ipayloadlen - c.ipayloadoff then
      match wslayRecv c io with
      | (some e, c', io') => ([.remaining c, .refill c], .error e, c', io')
      | (none, c', io') => handOut [.remaining c, .refill c] c' io'
    else handOut [.remaining c] c io
  else ([], .error .invalidArgument, c, io)

/-- `wslay_frame_recv`, with the accesses that it makes to the window. -/
def frameRecvNoted (c : FrameContext) (io : Io) :
    List Touch × Except Err Iocb × FrameContext × Io :=
  match headerNoted .recvHeader1 (fun _ => 2) readHeader1 c io with
  | (ts, some e, c, io) => (ts, .error e, c, io)
  | (ts₁, none, c, io) =>
    match headerNoted .recvExtPayloadlen FrameContext.ireqread readExtPayloadlen c io with
    | (ts₂, some e, c, io) => (ts₁ ++ ts₂, .error e, c, io)
    | (ts₂, none, c, io) =>
      match headerNoted .recvMaskkey (fun _ => 4) (fun c => (none, readMaskkey c)) c io with
      | (ts₃, some e, c, io) => (ts₁ ++ (ts₂ ++ ts₃), .error e, c, io)
      | (ts₃, none, c, io) =>
        match payloadNoted c io with
        | (ts₄, r, c, io) => (ts₁ ++ (ts₂ ++ (ts₃ ++ ts₄)), r, c, io)

/-- The block reads `n` octets of the window: it does the same when it is shown no more. -/
def ReadsOnly (n : FrameContext → Nat) (read : FrameContext → Option Err × FrameContext) : Prop :=
  ∀ c, read c = ((read (c.upTo (n c))).1, (read (c.upTo (n c))).2.putBack c (n c))

theorem avail_upTo (c : FrameContext) (n : Nat) : (c.upTo n).avail = c.avail.take n := by
  simp only [FrameContext.upTo, FrameContext.avail, List.drop_take]
  rw [show c.ibufmark + n - c.ibufmark = n by omega]

theorem readHeader1_readsOnly : ReadsOnly (fun _ => 2) readHeader1 := by
  intro c
  have h0 : (c.upTo 2).avail.getD 0 0 = c.avail.getD 0 0 := by
    simp [avail_upTo, List.getD_eq_getElem?_getD]
  have h1 : (c.upTo 2).avail.getD 1 0 = c.avail.getD 1 0 := by
    simp [avail_upTo, List.getD_eq_getElem?_getD]
  simp only [readHeader1, h0, h1]
  split_ifs <;> simp [FrameContext.putBack, FrameContext.upTo]

theorem readExtPayloadlen_readsOnly : ReadsOnly FrameContext.ireqread readExtPayloadlen := by
  intro c
  have h : (c.upTo c.ireqread).avail.take c.ireqread = c.avail.take c.ireqread := by
    rw [avail_upTo, List.take_take, Nat.min_self]
  simp only [readExtPayloadlen, show (c.upTo c.ireqread).ireqread = c.ireqread from rfl, h]
  split_ifs <;> simp_all [FrameContext.putBack, FrameContext.upTo]

theorem readMaskkey_readsOnly : ReadsOnly (fun _ => 4) (fun c => (none, readMaskkey c)) := by
  intro c
  have h : (c.upTo 4).avail.take 4 = c.avail.take 4 := by
    rw [avail_upTo, List.take_take, Nat.min_self]
  simp only [readMaskkey, h]
  simp [FrameContext.putBack, FrameContext.upTo]

/-- Shown the part of the window that it hands out, `readPayload` does the same. -/
theorem readPayload_upTo (c : FrameContext) :
    readPayload c = ((readPayload (c.upTo (payloadPart c))).1,
      (readPayload (c.upTo (payloadPart c))).2.putBack c (payloadPart c)) := by
  obtain ⟨n, hn⟩ : ∃ n, n = payloadPart c := ⟨_, rfl⟩
  have hpart : min (c.upTo n).avail.length ((c.upTo n).ipayloadlen - (c.upTo n).ipayloadoff) =
      n := by
    have h := avail_upTo c n
    show min (c.upTo n).avail.length (c.ipayloadlen - c.ipayloadoff) = n
    rw [h, List.length_take, hn, payloadPart]
    omega
  have hall : (c.upTo n).avail.take n = c.avail.take n := by
    rw [avail_upTo, List.take_take, Nat.min_self]
  have hnone : (c.upTo n).avail.drop n = [] := by
    rw [avail_upTo, List.drop_take, Nat.sub_self, List.take_zero]
  have hfront : (c.upTo n).ibuf.take (c.upTo n).ibufmark = c.ibuf.take c.ibufmark := by
    show (c.ibuf.take (c.ibufmark + n)).take c.ibufmark = _
    rw [List.take_take, Nat.min_eq_left (Nat.le_add_right _ _)]
  have hbehind : c.ibuf.drop (c.ibufmark + n) = c.avail.drop n := by
    rw [FrameContext.avail, List.drop_drop]
  rw [← hn]
  simp only [readPayload, hpart, hall, hnone, hfront, List.append_nil]
  rw [show min c.avail.length (c.ipayloadlen - c.ipayloadoff) = n from hn.symm]
  by_cases hend : c.ipayloadlen = c.ipayloadoff + n
  · rw [if_pos hend, if_pos (show (c.upTo n).ipayloadlen = (c.upTo n).ipayloadoff + n from hend),
      FrameContext.putBack, hbehind]
    rfl
  · rw [if_neg hend, if_neg (show ¬ (c.upTo n).ipayloadlen = (c.upTo n).ipayloadoff + n from hend),
      FrameContext.putBack, hbehind]
    rfl

theorem requireIbufNoted_eq (c : FrameContext) (io : Io) :
    requireIbufNoted c io =
      (if c.avail.length < c.ireqread then [.refill c] else [], requireIbuf c io) := by
  unfold requireIbufNoted requireIbuf
  split_ifs
  · obtain ⟨e, c', io', heq⟩ : ∃ e c' io', wslayRecv c io = (e, c', io') := ⟨_, _, _, rfl⟩
    simp only [heq]
    cases e with
    | some e => rfl
    | none =>
      simp only
      split_ifs <;> rfl
  · rfl

theorem headerNoted_eq {st : FrameState} {n : FrameContext → Nat}
    {read : FrameContext → Option Err × FrameContext} (hread : ReadsOnly n read)
    (c : FrameContext) (io : Io) :
    headerNoted st n read c io =
      (if c.istate = st then headerTouches n c io else [],
        if c.istate = st then
          match requireIbuf c io with
          | (some e, c, io) => (some e, c, io)
          | (none, c, io) => ((read c).1, (read c).2, io)
        else (none, c, io)) := by
  unfold headerNoted
  by_cases hs : c.istate = st
  · rw [if_pos hs, if_pos hs, if_pos hs, headerTouches, requireIbufNoted_eq]
    obtain ⟨e, c', io', heq⟩ : ∃ e c' io', requireIbuf c io = (e, c', io') := ⟨_, _, _, rfl⟩
    rw [heq]
    cases e with
    | some e => simp only [List.append_nil]
    | none =>
      simp only
      rw [hread c']
  · rw [if_neg hs, if_neg hs, if_neg hs]

theorem payloadNoted_eq (c : FrameContext) (io : Io) :
    payloadNoted c io = (payloadTouches c io, recvPayload c io) := by
  unfold payloadNoted payloadTouches recvPayload
  split_ifs
  · obtain ⟨e, c', io', heq⟩ : ∃ e c' io', wslayRecv c io = (e, c', io') := ⟨_, _, _, rfl⟩
    simp only [heq]
    cases e with
    | some e => rfl
    | none =>
      simp only [readPayload_upTo c']
      rfl
  · simp only [readPayload_upTo c]
    rfl
  · rfl

/-- **The accesses are those of the call**: shown what it notes that it reads, and noting
each refill, `wslay_frame_recv` does as it does. -/
theorem frameRecvNoted_eq (c : FrameContext) (io : Io) :
    frameRecvNoted c io = (frameRecvTouches c io, frameRecv c io) := by
  have h1 : ∀ c io, headerNoted .recvHeader1 (fun _ => 2) readHeader1 c io =
      (if c.istate = .recvHeader1 then headerTouches (fun _ => 2) c io else [],
        recvHeader1 c io) := headerNoted_eq readHeader1_readsOnly
  have h2 : ∀ c io, headerNoted .recvExtPayloadlen FrameContext.ireqread readExtPayloadlen c io =
      (if c.istate = .recvExtPayloadlen then headerTouches FrameContext.ireqread c io else [],
        recvExtPayloadlen c io) := headerNoted_eq readExtPayloadlen_readsOnly
  have h3 : ∀ c io, headerNoted .recvMaskkey (fun _ => 4) (fun c => (none, readMaskkey c)) c io =
      (if c.istate = .recvMaskkey then headerTouches (fun _ => 4) c io else [],
        recvMaskkey c io) := headerNoted_eq readMaskkey_readsOnly
  unfold frameRecvNoted frameRecvTouches frameRecv
  rw [h1]
  obtain ⟨e₁, c₁, io₁, heq₁⟩ : ∃ e c' io', recvHeader1 c io = (e, c', io') := ⟨_, _, _, rfl⟩
  cases e₁ with
  | some e => simp only [heq₁, List.append_nil]
  | none =>
    simp only [heq₁, h2]
    obtain ⟨e₂, c₂, io₂, heq₂⟩ : ∃ e c' io', recvExtPayloadlen c₁ io₁ = (e, c', io') :=
      ⟨_, _, _, rfl⟩
    cases e₂ with
    | some e => simp only [heq₂, List.append_nil]
    | none =>
      simp only [heq₂, h3]
      obtain ⟨e₃, c₃, io₃, heq₃⟩ : ∃ e c' io', recvMaskkey c₂ io₂ = (e, c', io') := ⟨_, _, _, rfl⟩
      cases e₃ with
      | some e => simp only [heq₃, List.append_nil]
      | none => simp only [heq₃, payloadNoted_eq]

/-! ## The blocks -/

/-- From `c`, `io` to `c'`, `io'` the octets `used` have been consumed, and the window
is well placed again. -/
structure Consumes (c : FrameContext) (io : Io) (used : List UInt8) (c' : FrameContext) (io' : Io) :
    Prop where
  stream : ∃ bs, Delivers io bs io' ∧ c.avail ++ bs = used ++ c'.avail
  placed : Placed c'

theorem Consumes.refl {c : FrameContext} (hp : Placed c) (io : Io) : Consumes c io [] c io :=
  ⟨⟨[], .refl io, by simp⟩, hp⟩

theorem Consumes.trans {c c' c'' : FrameContext} {io io' io'' : Io} {used used' : List UInt8}
    (h : Consumes c io used c' io') (h' : Consumes c' io' used' c'' io'') :
    Consumes c io (used ++ used') c'' io'' := by
  obtain ⟨bs, hdel, heq⟩ := h.stream
  obtain ⟨bs', hdel', heq'⟩ := h'.stream
  refine ⟨⟨bs ++ bs', hdel.trans hdel', ?_⟩, h'.placed⟩
  rw [← List.append_assoc, heq, List.append_assoc, heq', List.append_assoc]

/-- Moving the mark over `n` octets consumes them. -/
theorem Consumes.advance {c c' : FrameContext} {n : Nat} (hp : Placed c) (hn : n ≤ c.avail.length)
    (hbuf : c'.ibuf = c.ibuf) (hmark : c'.ibufmark = c.ibufmark + n) (hstate : Resumable c')
    (io : Io) : Consumes c io (c.avail.take n) c' io := by
  have hl := length_avail (c := c)
  have hm := hp.window.mark_le
  refine ⟨⟨[], .refl io, ?_⟩, ⟨?_, ?_⟩, hstate⟩
  · rw [avail_advance hbuf hmark, List.append_nil, List.take_append_drop]
  · rw [hbuf, hmark]
    omega
  · rw [hbuf]
    exact hp.window.size_le

/-- A header block: what it touches, and what it leaves when `read` keeps the window
well placed. -/
theorem headerBlock_placed {st : FrameState} {read : FrameContext → Option Err × FrameContext}
    {n : FrameContext → Nat} {c : FrameContext} (hp : Placed c) (hfew : c.ireqread ≤ 8)
    (hs : c.istate = st)
    (hread : ∀ c, Placed c → c.istate = st → c.ireqread ≤ c.avail.length →
      n c ≤ c.avail.length ∧ ∃ used, ∀ io, Consumes c io used (read c).2 io)
    (io : Io) {r : Option Err × FrameContext × Io}
    (hr : r = match requireIbuf c io with
      | (some e, c, io) => (some e, c, io)
      | (none, c, io) => ((read c).1, (read c).2, io)) :
    (∀ t ∈ headerTouches n c io, t.Safe) ∧ ∃ used, Consumes c io used r.2.1 r.2.2 := by
  have hsize : (8 : Nat) < ibufSize := by decide
  obtain ⟨bs, href, hres⟩ := requireIbuf_refilled hp.window io (by omega)
  obtain ⟨e, c₁, io₁, heq⟩ : ∃ e c₁ io₁, requireIbuf c io = (e, c₁, io₁) := ⟨_, _, _, rfl⟩
  simp only [heq] at href hres hr
  have hp₁ := hp.refilled href
  have hcons : Consumes c io [] c₁ io₁ := ⟨⟨bs, href.delivers, href.avail.symm⟩, hp₁⟩
  have hrefill : ∀ t ∈ (if c.avail.length < c.ireqread then [Touch.refill c] else []), t.Safe := by
    intro t ht
    split_ifs at ht with hlt
    · rw [List.mem_singleton] at ht
      subst ht
      show 4089 ≤ refillRoom c
      rw [refillRoom_eq, ibufSize]
      omega
    · cases ht
  rcases hres with ⟨rfl, hlen⟩ | ⟨rfl, -⟩
  · have hfull : c₁.ireqread ≤ c₁.avail.length := by
      rw [href.avail, href.rest]
      exact hlen
    obtain ⟨hn, used, hused⟩ := hread c₁ hp₁ (by rw [href.rest]; exact hs) hfull
    subst hr
    refine ⟨fun t ht => ?_, used, ?_⟩
    · rw [headerTouches, heq, List.mem_append, List.mem_singleton] at ht
      rcases ht with ht | rfl
      · exact hrefill t ht
      · exact .of_avail hp₁.window hn
    · have h := hcons.trans (hused io₁)
      rwa [List.nil_append] at h
  · subst hr
    refine ⟨fun t ht => ?_, [], hcons⟩
    rw [headerTouches, heq, List.append_nil] at ht
    exact hrefill t ht

theorem readHeader1_placed {c : FrameContext} (hp : Placed c) (hs : c.istate = .recvHeader1)
    (hlen : c.ireqread ≤ c.avail.length) :
    2 ≤ c.avail.length ∧ ∃ used, ∀ io, Consumes c io used (readHeader1 c).2 io := by
  have hreq := hp.header1 hs
  have htwo : 2 ≤ c.avail.length := hreq ▸ hlen
  refine ⟨htwo, c.avail.take 2, fun io => ?_⟩
  unfold readHeader1
  simp only
  split_ifs <;> refine Consumes.advance hp htwo ?_ ?_ ?_ io <;> try rfl
  · simp only [Resumable, hs, hreq]
  · exact Or.inl rfl
  · exact Or.inr rfl
  · exact ⟨rfl, Nat.zero_le _⟩
  · exact Nat.zero_le _

theorem readExtPayloadlen_placed {c : FrameContext} (hp : Placed c)
    (hs : c.istate = .recvExtPayloadlen) (hlen : c.ireqread ≤ c.avail.length) :
    c.ireqread ≤ c.avail.length ∧ ∃ used, ∀ io, Consumes c io used (readExtPayloadlen c).2 io := by
  have hreq := hp.ext hs
  refine ⟨hlen, c.avail.take c.ireqread, fun io => ?_⟩
  unfold readExtPayloadlen
  simp only
  split_ifs <;> refine Consumes.advance hp hlen ?_ ?_ ?_ io <;> try rfl
  · simpa only [Resumable, hs] using hreq
  · simpa only [Resumable, hs] using hreq
  · exact ⟨rfl, Nat.zero_le _⟩
  · exact Nat.zero_le _

theorem readMaskkey_placed {c : FrameContext} (hp : Placed c) (hs : c.istate = .recvMaskkey)
    (hlen : c.ireqread ≤ c.avail.length) :
    4 ≤ c.avail.length ∧ ∃ used, ∀ io, Consumes c io used (readMaskkey c) io := by
  obtain ⟨hreq, hoff⟩ := hp.maskkey hs
  have hfour : 4 ≤ c.avail.length := hreq ▸ hlen
  refine ⟨hfour, c.avail.take 4, fun io => ?_⟩
  refine Consumes.advance hp hfour ?_ ?_ ?_ io
  · rfl
  · rfl
  · exact hoff

/-- The last octets that a call consumes are those it hands out, in the form in which
they were received; with them the offset in the payload is the one noted. -/
def HandsOut (iocb : Iocb) (used : List UInt8) (c' : FrameContext) : Prop :=
  ∃ hdr raw, used = hdr ++ raw ∧ iocb.data.length = raw.length ∧ raw.length ≤ c'.ipayloadoff ∧
    iocb.data =
      if iocb.mask then xorFrom c'.imaskkey (c'.ipayloadoff - raw.length) raw else raw

/-- The payload is unmasked before the mark, and what lies behind it is left alone. -/
theorem readPayload_placed {c : FrameContext} (hp : Placed c) (hs : c.istate = .recvPayload)
    (io : Io) :
    ∃ used, Consumes c io used (readPayload c).2 io ∧
      HandsOut (readPayload c).1 used (readPayload c).2 := by
  obtain ⟨n, hn⟩ : ∃ n, n = min c.avail.length (c.ipayloadlen - c.ipayloadoff) := ⟨_, rfl⟩
  obtain ⟨data, hdata⟩ : ∃ data, data = (if c.imask then
      xorFrom c.imaskkey c.ipayloadoff (c.avail.take n) else c.avail.take n) := ⟨_, rfl⟩
  have hoff := hp.payload hs
  have hl := length_avail (c := c)
  have hm := hp.window.mark_le
  have hlen : data.length = n := by
    rw [hdata]
    split_ifs
    · rw [Octets.length_xorFrom, List.length_take]
      omega
    · rw [List.length_take]
      omega
  have hmark : (c.ibuf.take c.ibufmark).length = c.ibufmark := by
    rw [List.length_take]
    omega
  have hbuf : (c.ibuf.take c.ibufmark ++ data ++ c.avail.drop n).length = c.ibuf.length := by
    simp only [List.length_append, hmark, hlen, List.length_drop]
    omega
  have havail : (c.ibuf.take c.ibufmark ++ data ++ c.avail.drop n).drop (c.ibufmark + n) =
      c.avail.drop n :=
    List.drop_left' (by rw [List.length_append, hmark, hlen])
  have hwin : c.ibufmark + n ≤ (c.ibuf.take c.ibufmark ++ data ++ c.avail.drop n).length ∧
      (c.ibuf.take c.ibufmark ++ data ++ c.avail.drop n).length ≤ ibufSize := by
    rw [hbuf]
    exact ⟨by omega, hp.window.size_le⟩
  have hstream : c.avail ++ [] = c.avail.take n ++ c.avail.drop n := by
    rw [List.append_nil, List.take_append_drop]
  have hraw : (c.avail.take n).length = n := by
    rw [List.length_take]
    omega
  have hdone : (readPayload c).2.ipayloadoff = c.ipayloadoff + n := by
    unfold readPayload
    simp only [← hn]
    split_ifs <;> rfl
  refine ⟨c.avail.take n, ?_, [], c.avail.take n, rfl, ?_, ?_, ?_⟩
  · unfold readPayload
    simp only [← hn, ← hdata]
    by_cases hend : c.ipayloadlen = c.ipayloadoff + n
    · rw [if_pos hend]
      refine ⟨⟨[], .refl io, ?_⟩, ⟨hwin.1, hwin.2⟩, rfl⟩
      rw [hstream]
      exact congrArg (c.avail.take n ++ ·) havail.symm
    · rw [if_neg hend]
      refine ⟨⟨[], .refl io, ?_⟩, ⟨hwin.1, hwin.2⟩, ?_⟩
      · rw [hstream]
        exact congrArg (c.avail.take n ++ ·) havail.symm
      · show Resumable _
        simp only [Resumable, hs]
        omega
  · unfold readPayload
    simp only [← hn, ← hdata, hlen, List.length_take]
    omega
  · rw [hraw, hdone]
    exact Nat.le_add_left _ _
  · rw [hraw, hdone, Nat.add_sub_cancel]
    unfold readPayload
    simp only [← hn]
    split_ifs <;> rfl

theorem recvPayload_placed {c : FrameContext} (hp : Placed c) (io : Io) :
    (∀ t ∈ payloadTouches c io, t.Safe) ∧
      ∃ used, Consumes c io used (recvPayload c io).2.1 (recvPayload c io).2.2 ∧
        ∀ iocb, (recvPayload c io).1 = .ok iocb → HandsOut iocb used (recvPayload c io).2.1 := by
  unfold payloadTouches recvPayload
  by_cases hs : c.istate = .recvPayload
  · rw [if_pos hs, if_pos hs]
    have hremaining : (Touch.remaining c).Safe := hp.payload hs
    by_cases hask : c.avail = [] ∧ 0 < c.ipayloadlen - c.ipayloadoff
    · rw [if_pos hask, if_pos hask]
      have hrefill : (Touch.refill c).Safe := by
        show 4089 ≤ refillRoom c
        rw [refillRoom_eq, hask.1]
        decide
      obtain ⟨bs, href, hres, -⟩ := wslayRecv_refilled hp.window io
      obtain ⟨e, c₁, io₁, heq⟩ : ∃ e c₁ io₁, wslayRecv c io = (e, c₁, io₁) := ⟨_, _, _, rfl⟩
      simp only [heq] at href hres ⊢
      have hp₁ := hp.refilled href
      have hcons : Consumes c io [] c₁ io₁ := ⟨⟨bs, href.delivers, href.avail.symm⟩, hp₁⟩
      rcases hres with ⟨rfl, -⟩ | ⟨rfl, -⟩
      · obtain ⟨used, hused, hout⟩ := readPayload_placed hp₁ (by rw [href.rest]; exact hs) io₁
        refine ⟨?_, used, ?_, ?_⟩
        · intro t ht
          simp only [List.mem_cons, List.not_mem_nil, or_false] at ht
          rcases ht with rfl | rfl | rfl
          · exact hremaining
          · exact hrefill
          · exact .of_avail hp₁.window (Nat.min_le_left _ _)
        · have h := hcons.trans hused
          rwa [List.nil_append] at h
        · intro iocb hok
          cases hok
          exact hout
      · refine ⟨?_, [], hcons, fun iocb hok => by cases hok⟩
        intro t ht
        simp only [List.mem_cons, List.not_mem_nil, or_false] at ht
        rcases ht with rfl | rfl
        · exact hremaining
        · exact hrefill
    · rw [if_neg hask, if_neg hask]
      obtain ⟨used, hused, hout⟩ := readPayload_placed hp hs io
      refine ⟨?_, used, hused, ?_⟩
      · intro t ht
        simp only [List.mem_cons, List.not_mem_nil, or_false] at ht
        rcases ht with rfl | rfl
        · exact hremaining
        · exact .of_avail hp.window (Nat.min_le_left _ _)
      · intro iocb hok
        cases hok
        exact hout
  · rw [if_neg hs, if_neg hs]
    exact ⟨by simp, [], .refl hp io, fun iocb hok => by cases hok⟩

/-! ## A call -/

/-- **One call of `wslay_frame_recv`**, whatever it returns: every access to the window
is as it should be, the window is well placed afterwards, and what it has lost at
the front are the octets consumed, the last of them those handed out. -/
theorem frameRecv_placed {c : FrameContext} (hp : Placed c) (io : Io) :
    (∀ t ∈ frameRecvTouches c io, t.Safe) ∧
      ∃ used, Consumes c io used (frameRecv c io).2.1 (frameRecv c io).2.2 ∧
        ∀ iocb, (frameRecv c io).1 = .ok iocb → HandsOut iocb used (frameRecv c io).2.1 := by
  -- a header block, whether its turn has come or not
  have hblock : ∀ {st : FrameState} (read : FrameContext → Option Err × FrameContext)
      {n : FrameContext → Nat} {c : FrameContext}, Placed c → (c.istate = st → c.ireqread ≤ 8) →
      (∀ c, Placed c → c.istate = st → c.ireqread ≤ c.avail.length →
        n c ≤ c.avail.length ∧ ∃ used, ∀ io, Consumes c io used (read c).2 io) →
      ∀ (io : Io) (r : Option Err × FrameContext × Io),
      r = (if c.istate = st then
        match requireIbuf c io with
        | (some e, c, io) => (some e, c, io)
        | (none, c, io) => ((read c).1, (read c).2, io)
      else (none, c, io)) →
      (∀ t ∈ (if c.istate = st then headerTouches n c io else []), t.Safe) ∧
        ∃ used, Consumes c io used r.2.1 r.2.2 := by
    intro st read n c hp hfew hread io r hr
    by_cases hs : c.istate = st
    · rw [if_pos hs] at hr ⊢
      exact headerBlock_placed hp (hfew hs) hs hread io hr
    · rw [if_neg hs] at hr ⊢
      subst hr
      exact ⟨by simp, [], .refl hp io⟩
  have hjoin : ∀ {ts us : List Touch}, (∀ t ∈ ts, t.Safe) → (∀ t ∈ us, t.Safe) →
      ∀ t ∈ ts ++ us, t.Safe := by
    intro ts us hts hus t ht
    exact (List.mem_append.1 ht).elim (hts t) (hus t)
  obtain ⟨ht₁, u₁, hc₁⟩ := hblock readHeader1 hp (fun hs => by have := hp.header1 hs; omega)
    (fun c => readHeader1_placed) io _ (rfl : recvHeader1 c io = _)
  unfold frameRecvTouches frameRecv
  obtain ⟨e₁, c₁, io₁, heq₁⟩ : ∃ e c' io', recvHeader1 c io = (e, c', io') := ⟨_, _, _, rfl⟩
  simp only [heq₁] at hc₁ ⊢
  cases e₁ with
  | some e => exact ⟨hjoin ht₁ (by simp), u₁, hc₁, fun iocb hok => by cases hok⟩
  | none =>
    have hp₁ := hc₁.placed
    obtain ⟨ht₂, u₂, hc₂⟩ := hblock readExtPayloadlen hp₁ (fun hs => by have := hp₁.ext hs; omega)
      (fun c => readExtPayloadlen_placed) io₁ _ (rfl : recvExtPayloadlen c₁ io₁ = _)
    obtain ⟨e₂, c₂, io₂, heq₂⟩ : ∃ e c' io', recvExtPayloadlen c₁ io₁ = (e, c', io') :=
      ⟨_, _, _, rfl⟩
    simp only [heq₂] at hc₂ ⊢
    cases e₂ with
    | some e =>
      exact ⟨hjoin ht₁ (hjoin ht₂ (by simp)), _, hc₁.trans hc₂, fun iocb hok => by cases hok⟩
    | none =>
      have hp₂ := hc₂.placed
      obtain ⟨ht₃, u₃, hc₃⟩ := hblock (fun c => (none, readMaskkey c)) hp₂
        (fun hs => by have := hp₂.maskkey hs; omega)
        (fun c => readMaskkey_placed) io₂ _ (rfl : recvMaskkey c₂ io₂ = _)
      obtain ⟨e₃, c₃, io₃, heq₃⟩ : ∃ e c' io', recvMaskkey c₂ io₂ = (e, c', io') :=
        ⟨_, _, _, rfl⟩
      simp only [heq₃] at hc₃ ⊢
      cases e₃ with
      | some e =>
        exact ⟨hjoin ht₁ (hjoin ht₂ (hjoin ht₃ (by simp))), _, (hc₁.trans hc₂).trans hc₃,
          fun iocb hok => by cases hok⟩
      | none =>
        obtain ⟨ht₄, u₄, hc₄, hout⟩ := recvPayload_placed hc₃.placed io₃
        refine ⟨hjoin ht₁ (hjoin ht₂ (hjoin ht₃ ht₄)), _, ((hc₁.trans hc₂).trans hc₃).trans hc₄, ?_⟩
        intro iocb hok
        obtain ⟨hdr, raw, rfl, hrest⟩ := hout iocb hok
        exact ⟨u₁ ++ u₂ ++ u₃ ++ hdr, raw, by simp, hrest⟩

/-! ## Runs -/

/-- A call on a frame context. -/
inductive FrameCall where
  | send (iocb : Iocb)
  | recv

/-- One call: the state after it. -/
def frameCall (s : FrameContext × Io) : FrameCall → FrameContext × Io
  | .send iocb => (frameSend s.1 iocb s.2).2
  | .recv => (frameRecv s.1 s.2).2

/-- The state after some calls, whatever they return. -/
def frameCalls (s : FrameContext × Io) (calls : List FrameCall) : FrameContext × Io :=
  calls.foldl frameCall s

/-- What has been received is what has been consumed and what is in the window. -/
def Accounts (start : List UInt8) (s : FrameContext × Io) : Prop :=
  Placed s.1 ∧ ∃ consumed, s.2.received = start ++ consumed ++ s.1.avail

theorem Accounts.call {start : List UInt8} {s : FrameContext × Io} (h : Accounts start s)
    (call : FrameCall) : Accounts start (frameCall s call) := by
  obtain ⟨hp, consumed, hreceived⟩ := h
  cases call with
  | send iocb =>
    obtain ⟨hhalf, hio⟩ := frameRecvSame_frameSend s.1 iocb s.2
    refine ⟨hp.congr hhalf, consumed, ?_⟩
    simp only [FrameContext.recvHalf, Prod.mk.injEq] at hhalf
    simp only [Io.recvHalf, Prod.mk.injEq] at hio
    show (frameSend s.1 iocb s.2).2.2.received =
      start ++ consumed ++ (frameSend s.1 iocb s.2).2.1.avail
    rw [hio.2.2.2.1, hreceived, FrameContext.avail, FrameContext.avail, hhalf.1, hhalf.2.1]
  | recv =>
    obtain ⟨-, used, hc, -⟩ := frameRecv_placed hp s.2
    obtain ⟨bs, hdel, heq⟩ := hc.stream
    refine ⟨hc.placed, consumed ++ used, ?_⟩
    show (frameRecv s.1 s.2).2.2.received =
      start ++ (consumed ++ used) ++ (frameRecv s.1 s.2).2.1.avail
    rw [hdel.received, hreceived]
    simp only [List.append_assoc]
    rw [heq]

/-- **The input window is always well placed.**  In every state that calls of
`wslay_frame_send` and `wslay_frame_recv` lead to, also after a protocol error: the
mark lies in the window and the window in the buffer; what is in the window is the
part of the stream that has been received and not consumed, and the next call
takes octets off its front only, of which it hands out the last ones unmasked;
every refill is offered 4089 octets or more, everything that is read lies in the
window (the accesses are those of the call: it does the same when it is shown no
octet of the window but these), and no payload has been handed out beyond its length. -/
theorem window_well_placed (io : Io) (calls : List FrameCall) :
    let s := frameCalls (FrameContext.new, io) calls
    s.1.ibufmark ≤ s.1.ibuf.length ∧ s.1.ibuf.length ≤ ibufSize ∧
      (∃ consumed, s.2.received = io.received ++ consumed ++ s.1.avail) ∧
      (∃ used bs, Delivers s.2 bs (frameRecv s.1 s.2).2.2 ∧
        s.1.avail ++ bs = used ++ (frameRecv s.1 s.2).2.1.avail ∧
        ∀ iocb, (frameRecv s.1 s.2).1 = .ok iocb → HandsOut iocb used (frameRecv s.1 s.2).2.1) ∧
      (∀ t ∈ frameRecvTouches s.1 s.2, t.Safe) ∧
      frameRecvNoted s.1 s.2 = (frameRecvTouches s.1 s.2, frameRecv s.1 s.2) ∧
      (s.1.istate = .recvPayload → s.1.ipayloadoff ≤ s.1.ipayloadlen) := by
  intro s
  have hs : Accounts io.received s := by
    have hinit : Accounts io.received (FrameContext.new, io) :=
      ⟨placed_new, [], by simp [FrameContext.avail, FrameContext.new]⟩
    have hrun : ∀ (calls : List FrameCall) (t : FrameContext × Io), Accounts io.received t →
        Accounts io.received (frameCalls t calls) := by
      intro calls
      induction calls with
      | nil => exact fun t ht => ht
      | cons call calls ih => exact fun t ht => ih _ (ht.call call)
    exact hrun calls _ hinit
  obtain ⟨hp, hreceived⟩ := hs
  obtain ⟨hsafe, used, hc, hout⟩ := frameRecv_placed hp s.2
  obtain ⟨bs, hdel, heq⟩ := hc.stream
  exact ⟨hp.window.mark_le, hp.window.size_le, hreceived, ⟨used, bs, hdel, heq, hout⟩, hsafe,
    frameRecvNoted_eq s.1 s.2, hp.payload⟩

end Wslay
