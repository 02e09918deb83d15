import Wslay.Frame.Bits
import Wslay.Frame.Recv

/-!
# What one call of `wslay_frame_recv` does

The resumable decoder, seen from outside.  Between two calls it is either
before a header or inside a payload (`Dec`), and it holds octets it has looked
at without giving them out.  `takePiece` says, on octet strings alone, what the
next piece is; `View` relates the states of the code to that description
whatever its four blocks have already put aside; and `frameRecv_takes` is the
specification of the function: a call that is given the octets `N` by
`recv_callback` returns what `takePiece` takes from the octets in hand and `N`.

* `Delivers` — the effect of calls of `recv_callback` on the world.
* `Window` — the input window is well placed.
-/

namespace Wslay

open Octets (Key beVal xorFrom)

/-! ## The effect of `recv_callback` -/

/-- From `io` to `io'` nothing happened but calls of `recv_callback`, which
delivered `bs`. -/
structure Delivers (io : Io) (bs : List UInt8) (io' : Io) : Prop where
  pending : pendingOctets io.recvs = bs ++ pendingOctets io'.recvs
  fewer : io'.recvs.length ≤ io.recvs.length
  received : io'.received = io.received ++ bs
  sends : io'.sends = io.sends
  masks : io'.masks = io.masks
  mem : io'.mem = io.mem
  apps : io'.apps = io.apps
  wire : io'.wire = io.wire
  offers : io'.offers = io.offers
  calls : io'.calls = io.calls
  queued : io'.queued = io.queued
  discarded : io'.discarded = io.discarded

theorem Delivers.refl (io : Io) : Delivers io [] io := by
  constructor <;> simp

theorem Delivers.trans {io io' io'' : Io} {as bs : List UInt8} (h : Delivers io as io')
    (h' : Delivers io' bs io'') : Delivers io (as ++ bs) io'' where
  pending := by rw [h.pending, h'.pending, List.append_assoc]
  fewer := h'.fewer.trans h.fewer
  received := by rw [h'.received, h.received, List.append_assoc]
  sends := h'.sends.trans h.sends
  masks := h'.masks.trans h.masks
  mem := h'.mem.trans h.mem
  apps := h'.apps.trans h.apps
  wire := h'.wire.trans h.wire
  offers := h'.offers.trans h.offers
  calls := h'.calls.trans h.calls
  queued := h'.queued.trans h.queued
  discarded := h'.discarded.trans h.discarded

/-- Something was asked of `recv_callback`, and it gave all it had for now. -/
def Asked (io io' : Io) : Prop := io.recvs = [] ∨ io'.recvs.length < io.recvs.length

theorem Asked.of_later {io io₁ io' : Io} {bs bs' : List UInt8} (h : Delivers io bs io₁)
    (h' : Delivers io₁ bs' io') (ha : Asked io₁ io') : Asked io io' := by
  have h1 := h.fewer
  have h2 := h'.fewer
  rcases ha with hnil | hlt
  · rw [hnil, List.length_nil] at h2
    by_cases h0 : io.recvs = []
    · exact Or.inl h0
    · have := List.length_pos_of_ne_nil h0
      exact Or.inr (by omega)
  · exact Or.inr (by omega)

/-- No callback fails other than by blocking, and no error but that one is set. -/
structure Io.Quiet (io : Io) : Prop where
  error : io.error = 0 ∨ io.error = Err.wouldblock.code
  recvs : ∀ e, RecvResult.fail (some e) ∈ io.recvs → e = 0 ∨ e = Err.wouldblock.code

theorem recvCallback_delivers (io : Io) (len : Nat) :
    Delivers io (io.recvCallback len).1 (io.recvCallback len).2 ∧
      (io.recvCallback len).1.length ≤ len ∧
      ((io.recvCallback len).1.length < len → Asked io (io.recvCallback len).2) := by
  unfold Io.recvCallback
  cases hr : io.recvs with
  | nil =>
    exact ⟨⟨by rw [hr]; rfl, by simp, by simp, rfl, rfl, rfl, rfl, rfl, rfl, rfl, rfl, rfl⟩, by simp,
      fun _ => Or.inl hr⟩
  | cons r rs =>
    cases r with
    | fail e =>
      exact ⟨⟨by simp [hr, pendingOctets], by simp [hr], by simp, rfl, rfl, rfl, rfl, rfl, rfl, rfl,
        rfl, rfl⟩, by simp, fun _ => Or.inr (by simp [hr])⟩
    | data bs =>
      by_cases hlen : bs.length ≤ len
      · simp only [if_pos hlen]
        exact ⟨⟨by simp [hr, pendingOctets], by simp [hr], rfl, rfl, rfl, rfl, rfl, rfl, rfl, rfl,
          rfl, rfl⟩, hlen, fun _ => Or.inr (by simp [hr])⟩
      · simp only [if_neg hlen]
        refine ⟨⟨?_, by simp [hr], rfl, rfl, rfl, rfl, rfl, rfl, rfl, rfl, rfl, rfl⟩, by simp, ?_⟩
        · rw [hr]
          simp only [pendingOctets, List.flatMap_cons, ← List.append_assoc, List.take_append_drop]
        · intro hshort
          rw [List.length_take] at hshort
          omega

theorem recvCallback_quiet {io : Io} (hq : io.Quiet) (len : Nat) :
    (io.recvCallback len).2.Quiet := by
  obtain ⟨herr, hrecvs⟩ := hq
  unfold Io.recvCallback
  cases hr : io.recvs with
  | nil => exact ⟨Or.inr rfl, by simp⟩
  | cons r rs =>
    rw [hr] at hrecvs
    have hrs : ∀ e, RecvResult.fail (some e) ∈ rs → e = 0 ∨ e = Err.wouldblock.code :=
      fun e he => hrecvs e (List.mem_cons_of_mem _ he)
    cases r with
    | fail e =>
      refine ⟨?_, hrs⟩
      cases e with
      | none => exact herr
      | some e => exact hrecvs e (List.mem_cons_self ..)
    | data bs =>
      by_cases hlen : bs.length ≤ len
      · simp only [if_pos hlen]
        exact ⟨herr, hrs⟩
      · simp only [if_neg hlen]
        refine ⟨herr, fun e he => hrs e ?_⟩
        simpa using he

/-! ## Pieces -/

/-- Where the decoder stands between two pieces. -/
inductive Dec where
  /-- Before a header. -/
  | head
  /-- Inside the payload of a frame. -/
  | body (h : Header) (off : Nat)
  deriving DecidableEq, Repr

/-- What the next piece is. -/
inductive Piece where
  /-- The octets do not suffice. -/
  | wait (d : Dec) (look : List UInt8)
  /-- The next header is malformed. -/
  | bad
  /-- The octets `data` from offset `off` of the payload of a frame, after which
  the decoder stands at `d` with the octets `look` in hand. -/
  | piece (h : Header) (off : Nat) (data : List UInt8) (d : Dec) (look : List UInt8)

/-- The next piece of a payload: all there is of it. -/
def takeBody (h : Header) (off : Nat) (look : List UInt8) : Piece :=
  if h.length = off then .piece h off [] .head look
  else if look = [] then .wait (.body h off) []
  else
    let n := min look.length (h.length - off)
    .piece h off (h.mask off (look.take n))
      (if h.length = off + n then .head else .body h (off + n)) (look.drop n)

/-- The next piece. -/
def takePiece (d : Dec) (look : List UInt8) : Piece :=
  match d with
  | .body h off => takeBody h off look
  | .head =>
    match parseHeader look with
    | .more => .wait .head look
    | .malformed => .bad
    | .header h rest => takeBody h 0 rest

/-- Inside a payload there is a valid header, and some payload is missing. -/
def Dec.Ok : Dec → Prop
  | .head => True
  | .body h off => h.Valid ∧ off < h.length

/-- The octets `hdr` lead from `d` to offset `off` of a frame with header `h`. -/
def Dec.Enters (d : Dec) (hdr : List UInt8) (h : Header) (off : Nat) : Prop :=
  d = .head ∧ off = 0 ∧ hdr = h.encode ∨ d = .body h off ∧ hdr = []

/-- Where the decoder stands after `n` octets of payload from offset `off` on. -/
def Dec.after (h : Header) (off n : Nat) : Dec :=
  if h.length = off + n then .head else .body h (off + n)

/-- A piece is what `takeBody` says it is. -/
theorem takeBody_piece {h g : Header} {off off' : Nat} {look look' data : List UInt8} {d' : Dec}
    (hoff : off ≤ h.length) (hp : takeBody h off look = .piece g off' data d' look') :
    g = h ∧ off' = off ∧ ∃ raw, look = raw ++ look' ∧ data = h.mask off raw ∧
      off + raw.length ≤ h.length ∧ (raw = [] → h.length = off) ∧
      d' = Dec.after h off raw.length := by
  unfold takeBody at hp
  split_ifs at hp with hend hnil
  · cases hp
    exact ⟨rfl, rfl, [], rfl, by simp, by simpa using hoff, fun _ => hend, by
      simp [Dec.after, hend]⟩
  · simp only [Piece.piece.injEq] at hp
    obtain ⟨rfl, rfl, rfl, rfl, rfl⟩ := hp
    have hlen : (look.take (min look.length (h.length - off))).length =
        min look.length (h.length - off) := by
      rw [List.length_take]
      omega
    refine ⟨rfl, rfl, _, (List.take_append_drop _ _).symm, rfl, ?_, ?_, ?_⟩
    · rw [hlen]
      omega
    · intro hraw
      rw [hraw, List.length_nil] at hlen
      have := List.length_pos_of_ne_nil hnil
      omega
    · rw [hlen, Dec.after]

/-- What a piece takes, and where it leaves the decoder. -/
theorem takePiece_piece {d d' : Dec} {look look' data : List UInt8} {h : Header} {off : Nat}
    (hd : d.Ok) (hp : takePiece d look = .piece h off data d' look') :
    ∃ hdr raw, look = hdr ++ (raw ++ look') ∧ d.Enters hdr h off ∧ h.Valid ∧
      data = h.mask off raw ∧ off + raw.length ≤ h.length ∧ (raw = [] → h.length = off) ∧
      d' = Dec.after h off raw.length := by
  cases d with
  | head =>
    unfold takePiece at hp
    cases hparse : parseHeader look with
    | more => simp [hparse] at hp
    | malformed => simp [hparse] at hp
    | header g rest =>
      simp only [hparse] at hp
      obtain ⟨rfl, rfl, raw, rfl, hrest⟩ := takeBody_piece (Nat.zero_le _) hp
      obtain ⟨rfl, hv⟩ := parseHeader_header hparse
      exact ⟨h.encode, raw, rfl, Or.inl ⟨rfl, rfl, rfl⟩, hv, hrest⟩
  | body g off₀ =>
    obtain ⟨rfl, rfl, raw, rfl, hrest⟩ := takeBody_piece (Nat.le_of_lt hd.2) hp
    exact ⟨[], raw, rfl, Or.inr ⟨rfl, rfl⟩, hd.1, hrest⟩

theorem Dec.after_ok {h : Header} {off n : Nat} (hv : h.Valid) (hle : off + n ≤ h.length) :
    (Dec.after h off n).Ok := by
  unfold Dec.after
  split_ifs with hend
  · exact trivial
  · exact ⟨hv, by omega⟩

/-- Waiting, the decoder has read a header at most. -/
theorem takePiece_wait {d d' : Dec} {look look' : List UInt8} (hd : d.Ok)
    (hp : takePiece d look = .wait d' look') :
    d'.Ok ∧ takePiece d' look' = .wait d' look' ∧ ∃ hdr, look = hdr ++ look' ∧
      (d' = d ∧ hdr = [] ∨ ∃ h, d = .head ∧ d' = .body h 0 ∧ hdr = h.encode) := by
  cases d with
  | head =>
    unfold takePiece at hp
    cases hparse : parseHeader look with
    | more =>
      simp only [hparse, Piece.wait.injEq] at hp
      obtain ⟨rfl, rfl⟩ := hp
      exact ⟨trivial, by simp [takePiece, hparse], [], rfl, Or.inl ⟨rfl, rfl⟩⟩
    | malformed => simp [hparse] at hp
    | header g rest =>
      simp only [hparse, takeBody] at hp
      split_ifs at hp with hend hnil
      simp only [Piece.wait.injEq] at hp
      obtain ⟨rfl, rfl⟩ := hp
      obtain ⟨rfl, hv⟩ := parseHeader_header hparse
      refine ⟨⟨hv, by omega⟩, ?_, g.encode, by rw [hnil], Or.inr ⟨g, rfl, rfl, rfl⟩⟩
      rw [takePiece, takeBody, if_neg hend, if_pos rfl]
  | body g off₀ =>
    have hp' := hp
    simp only [takePiece, takeBody] at hp
    split_ifs at hp with hend hnil
    simp only [Piece.wait.injEq] at hp
    obtain ⟨rfl, rfl⟩ := hp
    exact ⟨hd, by rw [← hnil]; exact hnil ▸ hp', [], hnil, Or.inl ⟨rfl, rfl⟩⟩

theorem takePiece_bad {d : Dec} {look : List UInt8} (hp : takePiece d look = .bad) :
    d = .head ∧ parseHeader look = .malformed := by
  cases d with
  | head =>
    unfold takePiece at hp
    cases hparse : parseHeader look with
    | more => simp [hparse] at hp
    | malformed => exact ⟨rfl, rfl⟩
    | header g rest =>
      simp only [hparse, takeBody] at hp
      split_ifs at hp
  | body g off =>
    simp only [takePiece, takeBody] at hp
    split_ifs at hp

/-! ## How the code represents a header -/

/-- What the code keeps of the first octet. -/
def Header.memo (h : Header) : OpcodeMemo where
  fin := UInt8.ofNat h.fin.toNat
  opcode := UInt8.ofNat h.opcode.val
  rsv := UInt8.ofNat h.rsv.val

/-- A piece of a frame, as the code reports it. -/
def Header.iocb (h : Header) (data : List UInt8) : Iocb where
  fin := UInt8.ofNat h.fin.toNat
  rsv := UInt8.ofNat h.rsv.val
  opcode := UInt8.ofNat h.opcode.val
  payloadLength := h.length
  mask := h.key.isSome
  data := data

/-! ## The window -/

/-- The input window is well placed: the mark lies inside it, and it fits the
buffer. -/
structure Window (c : FrameContext) : Prop where
  mark_le : c.ibufmark ≤ c.ibuf.length
  size_le : c.ibuf.length ≤ ibufSize

/-- From `c` to `c'` the window has been refilled with `bs`, and nothing else
has changed. -/
structure Refilled (c : FrameContext) (io : Io) (bs : List UInt8) (c' : FrameContext) (io' : Io) :
    Prop where
  delivers : Delivers io bs io'
  quiet : io.Quiet → io'.Quiet
  avail : c'.avail = c.avail ++ bs
  window : Window c'
  rest : c' = { c with ibuf := c'.ibuf, ibufmark := c'.ibufmark }

theorem Refilled.refl {c : FrameContext} (hw : Window c) (io : Io) : Refilled c io [] c io :=
  ⟨.refl io, id, by simp, hw, rfl⟩

theorem wslayRecv_refilled {c : FrameContext} (hw : Window c) (io : Io) :
    ∃ bs, Refilled c io bs (wslayRecv c io).2.1 (wslayRecv c io).2.2 ∧
      ((wslayRecv c io).1 = none ∧ bs ≠ [] ∨ (wslayRecv c io).1 = some .wantRead ∧ bs = []) ∧
      ((c.avail ++ bs).length < ibufSize → Asked io (wslayRecv c io).2.2) := by
  -- shifting the window, when it is not at the start, keeps what is available
  obtain ⟨s, hs, havail, hmark, hsize, hrest⟩ : ∃ s : FrameContext,
      s = (if c.ibufmark ≠ 0 then shiftIbuf c else c) ∧ s.avail = c.avail ∧ s.ibufmark = 0 ∧
        s.ibuf.length ≤ ibufSize ∧ s = { c with ibuf := s.ibuf, ibufmark := s.ibufmark } := by
    have hsize := hw.size_le
    by_cases h0 : c.ibufmark ≠ 0
    · refine ⟨shiftIbuf c, by rw [if_pos h0], by simp [shiftIbuf, FrameContext.avail], rfl, ?_, rfl⟩
      simp only [shiftIbuf, FrameContext.avail, List.length_drop]
      omega
    · exact ⟨c, by rw [if_neg h0], rfl, by simpa using h0, hsize, rfl⟩
  have hbuf : s.ibuf = c.avail := by
    rw [← havail, FrameContext.avail, hmark, List.drop_zero]
  have hspec := recvCallback_delivers io (ibufSize - s.ibuf.length)
  have hquiet : io.Quiet → (io.recvCallback (ibufSize - s.ibuf.length)).2.Quiet :=
    fun hq => recvCallback_quiet hq _
  rw [wslayRecv, ← hs]
  obtain ⟨bs, io', hcb⟩ : ∃ bs io', io.recvCallback (ibufSize - s.ibuf.length) = (bs, io') :=
    ⟨_, _, rfl⟩
  simp only [hcb] at hspec hquiet ⊢
  obtain ⟨hdel, hlen, hasked⟩ := hspec
  have hshort : (c.avail ++ bs).length < ibufSize → Asked io io' := by
    intro h
    rw [List.length_append, ← hbuf] at h
    exact hasked (by omega)
  by_cases hbs : bs = []
  · subst hbs
    refine ⟨[], ?_, Or.inr (by simp), hshort⟩
    simp only [ne_eq, not_true_eq_false, if_false]
    exact ⟨hdel, hquiet, by rw [havail, List.append_nil], ⟨by omega, hsize⟩, hrest⟩
  · have hne : bs ≠ [] := hbs
    rw [if_pos hne]
    refine ⟨bs, ⟨hdel, hquiet, ?_, ⟨?_, ?_⟩, ?_⟩, Or.inl ⟨rfl, hbs⟩, hshort⟩
    · rw [← havail]
      simp [FrameContext.avail, hmark]
    · rw [hmark]
      exact Nat.zero_le _
    · rw [List.length_append]
      omega
    · conv_lhs => rw [hrest]

theorem requireIbuf_refilled {c : FrameContext} (hw : Window c) (io : Io)
    (hreq : c.ireqread ≤ ibufSize) :
    ∃ bs, Refilled c io bs (requireIbuf c io).2.1 (requireIbuf c io).2.2 ∧
      ((requireIbuf c io).1 = none ∧ c.ireqread ≤ (c.avail ++ bs).length ∨
        (requireIbuf c io).1 = some .wantRead ∧ (c.avail ++ bs).length < c.ireqread ∧
          Asked io (requireIbuf c io).2.2) := by
  unfold requireIbuf
  by_cases hlt : c.avail.length < c.ireqread
  · rw [if_pos hlt]
    obtain ⟨bs, href, hres, hasked⟩ := wslayRecv_refilled hw io
    obtain ⟨e, c', io', hwr⟩ : ∃ e c' io', wslayRecv c io = (e, c', io') := ⟨_, _, _, rfl⟩
    simp only [hwr] at href hres hasked ⊢
    have hreq' : c'.ireqread = c.ireqread := by rw [href.rest]
    rcases hres with ⟨rfl, -⟩ | ⟨rfl, rfl⟩
    · simp only [hreq', href.avail]
      by_cases hlt' : (c.avail ++ bs).length < c.ireqread
      · refine ⟨bs, ?_, Or.inr ?_⟩
        · rw [if_pos hlt']; exact href
        · rw [if_pos hlt']; exact ⟨rfl, hlt', hasked (by omega)⟩
      · refine ⟨bs, ?_, Or.inl ?_⟩
        · rw [if_neg hlt']; exact href
        · rw [if_neg hlt']; exact ⟨rfl, by omega⟩
    · rw [List.append_nil] at hasked
      exact ⟨[], href, Or.inr ⟨rfl, by simpa using hlt, hasked (by omega)⟩⟩
  · rw [if_neg hlt]
    exact ⟨[], .refl hw io, Or.inl ⟨rfl, by simpa using hlt⟩⟩

/-! ## The states of the code, seen as decoder states -/

/-- The code is inside the payload of a frame with header `h`, at offset `off`. -/
structure AtPayload (c : FrameContext) (h : Header) (off : Nat) : Prop where
  istate : c.istate = .recvPayload
  iom : c.iom = h.memo
  imask : c.imask = h.key.isSome
  imaskkey : ∀ k, h.key = some k → c.imaskkey = k
  ipayloadlen : c.ipayloadlen = h.length
  ipayloadoff : c.ipayloadoff = off

/-- The code stands at `d`, with the octets `look` in hand: those it has put
aside while reading a header, and those in the window. -/
inductive View (c : FrameContext) : Dec → List UInt8 → Prop where
  /-- Nothing of the header has been read. -/
  | header1 : c.istate = .recvHeader1 → c.ireqread = 2 → View c .head c.avail
  /-- The first two octets have been read, an extended length follows. -/
  | ext (b0 b1 : UInt8) : c.istate = .recvExtPayloadlen → c.iom = (firstOctets b0 b1).memo →
      c.imask = hasKey b1 → badCtrl (firstOctets b0 b1) = false →
      (b1.toNat % 128 = 126 ∧ c.ireqread = 2 ∨ b1.toNat % 128 = 127 ∧ c.ireqread = 8) →
      View c .head (b0 :: b1 :: c.avail)
  /-- All but the key has been read: the octets `hb`, which say `g`. -/
  | maskkey (g : Header) (hb : List UInt8) : c.istate = .recvMaskkey → c.ireqread = 4 →
      c.imask = true → c.iom = g.memo → c.ipayloadlen = g.length → c.ipayloadoff = 0 →
      (∀ x, parseHeader (hb ++ x) = parseKey g true x) → View c .head (hb ++ c.avail)
  /-- The header has been read. -/
  | payload (h : Header) (off : Nat) : AtPayload c h off → off < h.length →
      View c (.body h off) c.avail

/-- The result `r` of a call that leaves the state `c` is what `p` says. -/
def Returns (r : Except Err Iocb) (c : FrameContext) : Piece → Prop
  | .wait d look => r = .error .wantRead ∧ View c d look
  | .bad => r = .error .proto
  | .piece h _ data d look => r = .ok (h.iocb data) ∧ View c d look

/-- A computation that starts in `c`, `io` and ends in `r` takes the piece that
`p` makes of the octets delivered to it. -/
def Takes (c : FrameContext) (io : Io) (r : Except Err Iocb × FrameContext × Io)
    (p : List UInt8 → Piece) : Prop :=
  ∃ bs, Delivers io bs r.2.2 ∧ (io.Quiet → r.2.2.Quiet) ∧ Window r.2.1 ∧
    r.2.1.sendHalf = c.sendHalf ∧ Returns r.1 r.2.1 (p bs) ∧
    (r.1 = .error .wantRead → Asked io r.2.2)

/-- A refill, and a computation from a state that differs in the receiving half
only. -/
theorem Takes.after_refill {c c₁ c₂ : FrameContext} {io io₁ : Io} {bs : List UInt8}
    {r : Except Err Iocb × FrameContext × Io} {p q : List UInt8 → Piece}
    (href : Refilled c io bs c₁ io₁) (hhalf : c₂.sendHalf = c₁.sendHalf)
    (ht : Takes c₂ io₁ r q) (hpq : ∀ x, q x = p (bs ++ x)) : Takes c io r p := by
  obtain ⟨bs', hdel, hquiet, hwin, hsend, hret, hasked⟩ := ht
  refine ⟨bs ++ bs', href.delivers.trans hdel, fun hq => hquiet (href.quiet hq), hwin, ?_, ?_,
    fun hr => (hasked hr).of_later href.delivers hdel⟩
  · rw [hsend, hhalf, href.rest]
    rfl
  · rw [← hpq]
    exact hret

/-! ## The four blocks -/

/-- Moving the mark drops what it moves over. -/
theorem avail_advance {c c' : FrameContext} {n : Nat} (hbuf : c'.ibuf = c.ibuf)
    (hmark : c'.ibufmark = c.ibufmark + n) : c'.avail = c.avail.drop n := by
  rw [FrameContext.avail, hbuf, hmark, FrameContext.avail, List.drop_drop]

theorem length_avail {c : FrameContext} : c.avail.length = c.ibuf.length - c.ibufmark :=
  List.length_drop ..

/-- The payload is unmasked in place, and what lies behind it is left alone. -/
theorem readPayload_spec {c : FrameContext} (hw : Window c) {h : Header} {off : Nat}
    (hp : AtPayload c h off) :
    let n := min c.avail.length (h.length - off)
    (readPayload c).1 = h.iocb (h.mask off (c.avail.take n)) ∧
      Window (readPayload c).2 ∧ (readPayload c).2.sendHalf = c.sendHalf ∧
      (readPayload c).2.avail = c.avail.drop n ∧
      (h.length = off + n → (readPayload c).2.istate = .recvHeader1 ∧
        (readPayload c).2.ireqread = 2) ∧
      (h.length ≠ off + n → AtPayload (readPayload c).2 h (off + n)) := by
  intro n
  have hn : min c.avail.length (c.ipayloadlen - c.ipayloadoff) = n := by
    rw [hp.ipayloadlen, hp.ipayloadoff]
  have hmask : (if c.imask then xorFrom c.imaskkey c.ipayloadoff (c.avail.take n)
      else c.avail.take n) = h.mask off (c.avail.take n) := by
    rw [hp.imask, hp.ipayloadoff, Header.mask]
    cases hk : h.key with
    | none => rfl
    | some k => simp [hp.imaskkey k hk]
  have hlen : (h.mask off (c.avail.take n)).length = n := by
    rw [Header.length_mask, List.length_take]
    omega
  have hmark : (c.ibuf.take c.ibufmark).length = c.ibufmark := by
    rw [List.length_take]
    have := hw.mark_le
    omega
  -- the window after the piece has been taken
  have havail : (c.ibuf.take c.ibufmark ++ h.mask off (c.avail.take n) ++ c.avail.drop n).drop
      (c.ibufmark + n) = c.avail.drop n := by
    exact List.drop_left' (by rw [List.length_append, hmark, hlen])
  have htotal : (c.ibuf.take c.ibufmark ++ h.mask off (c.avail.take n) ++ c.avail.drop n).length =
      c.ibuf.length := by
    have h1 := hw.mark_le
    have h2 := length_avail (c := c)
    simp only [List.length_append, hmark, hlen, List.length_drop]
    omega
  have hle : c.ibufmark + n ≤ c.ibuf.length := by
    have h1 := hw.mark_le
    have h2 := length_avail (c := c)
    omega
  have hiocb : (readPayload c).1 = h.iocb (h.mask off (c.avail.take n)) := by
    simp only [readPayload]
    rw [hn, hmask, hp.iom, hp.ipayloadlen, hp.imask]
    rfl
  refine ⟨hiocb, ?_⟩
  simp only [readPayload]
  rw [hn, hmask, hp.ipayloadlen, hp.ipayloadoff]
  by_cases hend : h.length = off + n
  · rw [if_pos hend]
    exact ⟨⟨by rw [htotal]; exact hle, by rw [htotal]; exact hw.size_le⟩, rfl, havail,
      fun _ => ⟨rfl, rfl⟩, fun hc => absurd hend hc⟩
  · rw [if_neg hend]
    exact ⟨⟨by rw [htotal]; exact hle, by rw [htotal]; exact hw.size_le⟩, rfl, havail,
      fun hc => absurd hc hend,
      fun _ => ⟨hp.istate, hp.iom, hp.imask, hp.imaskkey, rfl, rfl⟩⟩

/-- The last block takes a piece of payload. -/
theorem recvPayload_takes {c : FrameContext} (hw : Window c) (io : Io) {h : Header} {off : Nat}
    (hp : AtPayload c h off) (hoff : off ≤ h.length) :
    Takes c io (recvPayload c io) fun bs => takeBody h off (c.avail ++ bs) := by
  -- what is returned once the window is as it should be
  have hread : ∀ {c₁ : FrameContext}, Window c₁ → AtPayload c₁ h off →
      (c₁.avail = [] → h.length = off) →
      Window (readPayload c₁).2 ∧ (readPayload c₁).2.sendHalf = c₁.sendHalf ∧
        Returns (.ok (readPayload c₁).1) (readPayload c₁).2 (takeBody h off c₁.avail) := by
    intro c₁ hw₁ hp₁ hne
    obtain ⟨hiocb, hwin, hsend, havail, hdone, hmore⟩ := readPayload_spec hw₁ hp₁
    refine ⟨hwin, hsend, ?_⟩
    rw [hiocb, takeBody]
    by_cases hend : h.length = off
    · have hn : min c₁.avail.length (h.length - off) = 0 := by omega
      rw [hn] at havail hdone ⊢
      rw [if_pos hend]
      refine ⟨by simp, ?_⟩
      obtain ⟨h1, h2⟩ := hdone (by omega)
      rw [List.drop_zero] at havail
      rw [← havail]
      exact .header1 h1 h2
    · rw [if_neg hend, if_neg (fun hnil => hend (hne hnil))]
      refine ⟨rfl, ?_⟩
      rw [← havail]
      by_cases hfull : h.length = off + min c₁.avail.length (h.length - off)
      · rw [if_pos hfull]
        obtain ⟨h1, h2⟩ := hdone hfull
        exact .header1 h1 h2
      · rw [if_neg hfull]
        exact .payload h _ (hmore hfull) (by omega)
  unfold recvPayload
  rw [if_pos hp.istate]
  by_cases hask : c.avail = [] ∧ 0 < c.ipayloadlen - c.ipayloadoff
  · rw [if_pos hask]
    obtain ⟨hnil, hpos⟩ := hask
    rw [hp.ipayloadlen, hp.ipayloadoff] at hpos
    obtain ⟨bs, href, hres, hasked⟩ := wslayRecv_refilled hw io
    obtain ⟨e, c₁, io₁, hwr⟩ : ∃ e c₁ io₁, wslayRecv c io = (e, c₁, io₁) := ⟨_, _, _, rfl⟩
    simp only [hwr] at href hres hasked ⊢
    have hp₁ : AtPayload c₁ h off := by
      rw [href.rest]
      exact ⟨hp.istate, hp.iom, hp.imask, hp.imaskkey, hp.ipayloadlen, hp.ipayloadoff⟩
    have hhalf : c₁.sendHalf = c.sendHalf := by rw [href.rest]; rfl
    rcases hres with ⟨rfl, hbs⟩ | ⟨rfl, rfl⟩
    · have havail : c₁.avail = c.avail ++ bs := href.avail
      obtain ⟨hwin, hsend, hret⟩ := hread href.window hp₁ fun hc => by
        rw [havail, hnil, List.nil_append] at hc
        exact absurd hc hbs
      refine ⟨bs, href.delivers, href.quiet, hwin, hsend.trans hhalf, ?_, by simp⟩
      change Returns _ _ (takeBody h off (c.avail ++ bs))
      rw [← havail]
      exact hret
    · rw [hnil] at hasked
      refine ⟨[], href.delivers, href.quiet, href.window, hhalf, ?_, fun _ => hasked (by decide)⟩
      have havail : c₁.avail = [] := by rw [href.avail, hnil]; rfl
      change Returns _ _ (takeBody h off (c.avail ++ []))
      rw [hnil, List.nil_append, takeBody, if_neg (by omega), if_pos rfl]
      refine ⟨rfl, ?_⟩
      rw [← havail]
      exact .payload h off hp₁ (by omega)
  · rw [if_neg hask]
    rw [hp.ipayloadlen, hp.ipayloadoff] at hask
    obtain ⟨hwin, hsend, hret⟩ := hread hw hp fun hc => by
      by_contra hne
      exact hask ⟨hc, by omega⟩
    refine ⟨[], .refl io, id, hwin, hsend, ?_, by simp⟩
    change Returns _ _ (takeBody h off (c.avail ++ []))
    rw [List.append_nil]
    exact hret

/-- A header block: it waits until what it needs is there, and then goes on. -/
theorem Takes.of_requireIbuf {c : FrameContext} {io : Io} {p : List UInt8 → Piece}
    {k : FrameContext → Io → Except Err Iocb × FrameContext × Io} (hw : Window c)
    (hreq : c.ireqread ≤ ibufSize)
    (hwait : ∀ bs c' io', Refilled c io bs c' io' → (c.avail ++ bs).length < c.ireqread →
      Returns (.error .wantRead) c' (p bs))
    (hgo : ∀ bs c' io', Refilled c io bs c' io' → c.ireqread ≤ (c.avail ++ bs).length →
      Takes c' io' (k c' io') fun x => p (bs ++ x)) :
    Takes c io (match requireIbuf c io with
      | (some e, c, io) => (.error e, c, io)
      | (none, c, io) => k c io) p := by
  obtain ⟨bs, href, hres⟩ := requireIbuf_refilled hw io hreq
  obtain ⟨e, c₁, io₁, hr⟩ : ∃ e c₁ io₁, requireIbuf c io = (e, c₁, io₁) := ⟨_, _, _, rfl⟩
  simp only [hr] at href hres ⊢
  have hhalf : c₁.sendHalf = c.sendHalf := by rw [href.rest]; rfl
  rcases hres with ⟨rfl, hlen⟩ | ⟨rfl, hlen, hasked⟩
  · exact Takes.after_refill href rfl (hgo bs c₁ io₁ href hlen) fun _ => rfl
  · exact ⟨bs, href.delivers, href.quiet, href.window, hhalf, hwait bs c₁ io₁ href hlen,
      fun _ => hasked⟩

theorem Takes.congr {c c' : FrameContext} {io : Io} {r : Except Err Iocb × FrameContext × Io}
    {p q : List UInt8 → Piece} (ht : Takes c io r p) (hhalf : c.sendHalf = c'.sendHalf)
    (hpq : ∀ x, p x = q x) : Takes c' io r q := by
  obtain ⟨bs, hdel, hquiet, hwin, hsend, hret, hasked⟩ := ht
  exact ⟨bs, hdel, hquiet, hwin, hsend.trans hhalf, hpq bs ▸ hret, hasked⟩

/-- A computation that rejects the header without doing anything more. -/
theorem Takes.of_proto {c c' : FrameContext} {io : Io} {p : List UInt8 → Piece}
    (hw : Window c') (hhalf : c'.sendHalf = c.sendHalf) (hp : p [] = .bad) :
    Takes c io (.error .proto, c', io) p :=
  ⟨[], .refl io, id, hw, hhalf, by rw [hp]; rfl, by simp⟩

/-- The last two blocks. -/
def fromMaskkey (c : FrameContext) (io : Io) : Except Err Iocb × FrameContext × Io :=
  match recvMaskkey c io with
  | (some e, c, io) => (.error e, c, io)
  | (none, c, io) => recvPayload c io

/-- The last three blocks. -/
def fromExtPayloadlen (c : FrameContext) (io : Io) : Except Err Iocb × FrameContext × Io :=
  match recvExtPayloadlen c io with
  | (some e, c, io) => (.error e, c, io)
  | (none, c, io) => fromMaskkey c io

theorem frameRecv_eq (c : FrameContext) (io : Io) :
    frameRecv c io = match recvHeader1 c io with
      | (some e, c, io) => (.error e, c, io)
      | (none, c, io) => fromExtPayloadlen c io := rfl

theorem fromMaskkey_of_ne {c : FrameContext} (hs : c.istate ≠ .recvMaskkey) (io : Io) :
    fromMaskkey c io = recvPayload c io := by
  rw [fromMaskkey, recvMaskkey, if_neg hs]

theorem fromExtPayloadlen_of_ne {c : FrameContext} (hs : c.istate ≠ .recvExtPayloadlen) (io : Io) :
    fromExtPayloadlen c io = fromMaskkey c io := by
  rw [fromExtPayloadlen, recvExtPayloadlen, if_neg hs]

theorem frameRecv_of_ne {c : FrameContext} (hs : c.istate ≠ .recvHeader1) (io : Io) :
    frameRecv c io = fromExtPayloadlen c io := by
  rw [frameRecv_eq, recvHeader1, if_neg hs]

/-- The mark moves over octets that are there. -/
theorem Window.advance {c : FrameContext} (hw : Window c) {n : Nat} (hn : n ≤ c.avail.length) :
    c.ibufmark + n ≤ c.ibuf.length := by
  have h1 := hw.mark_le
  have h2 := length_avail (c := c)
  omega

/-- The block that reads the key, and what follows. -/
theorem fromMaskkey_takes {c : FrameContext} (hw : Window c) (io : Io) {g : Header}
    (hstate : c.istate = .recvMaskkey) (hreq : c.ireqread = 4) (hmask : c.imask = true)
    (hiom : c.iom = g.memo) (hlen : c.ipayloadlen = g.length) (hoff : c.ipayloadoff = 0)
    {hb : List UInt8} (hparse : ∀ x, parseHeader (hb ++ x) = parseKey g true x) :
    Takes c io (fromMaskkey c io) fun bs => takePiece .head (hb ++ c.avail ++ bs) := by
  have hpiece : ∀ x, takePiece .head (hb ++ x) =
      if x.length < 4 then .wait .head (hb ++ x)
      else takeBody { g with key := some (Key.ofBytes (x.take 4)) } 0 (x.drop 4) := by
    intro x
    rw [takePiece, hparse, parseKey, if_pos rfl]
    by_cases hx : x.length < 4
    · rw [if_pos hx, if_pos hx]
    · rw [if_neg hx, if_neg hx]
  have hblock : fromMaskkey c io = match requireIbuf c io with
      | (some e, c, io) => (.error e, c, io)
      | (none, c, io) => recvPayload (readMaskkey c) io := by
    rw [fromMaskkey, recvMaskkey, if_pos hstate]
    rcases requireIbuf c io with ⟨_ | e, c₁, io₁⟩ <;> rfl
  rw [hblock]
  apply Takes.of_requireIbuf hw (by rw [hreq]; decide)
  · intro bs c' io' href hshort
    rw [hreq] at hshort
    rw [List.append_assoc, hpiece, if_pos hshort]
    refine ⟨rfl, ?_⟩
    rw [← href.avail]
    have hrest := href.rest
    exact .maskkey g hb (by rw [hrest]; exact hstate) (by rw [hrest]; exact hreq)
      (by rw [hrest]; exact hmask) (by rw [hrest]; exact hiom) (by rw [hrest]; exact hlen)
      (by rw [hrest]; exact hoff) hparse
  · intro bs c' io' href henough
    rw [hreq, ← href.avail] at henough
    have hw' : Window (readMaskkey c') := ⟨href.window.advance henough, href.window.size_le⟩
    have hp : AtPayload (readMaskkey c') { g with key := some (Key.ofBytes (c'.avail.take 4)) } 0 :=
      ⟨rfl, by rw [href.rest]; exact hiom, by rw [href.rest]; exact hmask,
        by rintro k ⟨⟩; rfl, by rw [href.rest]; exact hlen, by rw [href.rest]; exact hoff⟩
    refine (recvPayload_takes hw' io' hp (Nat.zero_le _)).congr rfl fun x => ?_
    have havail : (readMaskkey c').avail = c'.avail.drop 4 := avail_advance rfl rfl
    have hnot : ¬ (c'.avail ++ x).length < 4 := by rw [List.length_append]; omega
    rw [List.append_assoc, ← List.append_assoc c.avail, ← href.avail, hpiece, if_neg hnot, havail,
      List.take_append_of_le_length henough, List.drop_append_of_le_length henough]

/-- What the code does once it knows the length: it goes on to the key, or to the
payload. -/
def afterLength (c : FrameContext) : FrameContext :=
  if c.imask then { c with istate := .recvMaskkey, ireqread := 4 }
  else { c with istate := .recvPayload }

/-- The blocks that follow the one that settles the length. -/
theorem afterLength_takes {c : FrameContext} (hw : Window c) (io : Io) {g : Header} {masked : Bool}
    (hkey : g.key = none) (hmask : c.imask = masked) (hiom : c.iom = g.memo)
    (hlen : c.ipayloadlen = g.length) (hoff : c.ipayloadoff = 0) {hb : List UInt8}
    (hparse : ∀ x, parseHeader (hb ++ x) = parseKey g masked x) :
    Takes c io (fromMaskkey (afterLength c) io) fun bs => takePiece .head (hb ++ c.avail ++ bs) := by
  unfold afterLength
  cases masked with
  | true =>
    rw [if_pos hmask]
    exact (fromMaskkey_takes (c := { c with istate := .recvMaskkey, ireqread := 4 })
      ⟨hw.mark_le, hw.size_le⟩ io rfl rfl hmask hiom hlen hoff hparse).congr rfl fun _ => rfl
  | false =>
    rw [if_neg (by rw [hmask]; decide), fromMaskkey_of_ne (by simp)]
    have hp : AtPayload { c with istate := .recvPayload } g 0 :=
      ⟨rfl, hiom, by rw [hkey]; exact hmask, by rw [hkey]; rintro k ⟨⟩, hlen, hoff⟩
    refine (recvPayload_takes (c := { c with istate := .recvPayload }) ⟨hw.mark_le, hw.size_le⟩ io
      hp (Nat.zero_le _)).congr rfl fun x => ?_
    rw [List.append_assoc, takePiece, hparse]
    rfl

theorem parseHeader_ext {b0 b1 : UInt8} {k : Nat} {ok : Nat → Bool}
    (hgood : badCtrl (firstOctets b0 b1) = false)
    (hk : b1.toNat % 128 = 126 ∧ k = 2 ∧ ok = ok16 ∨ b1.toNat % 128 = 127 ∧ k = 8 ∧ ok = ok64)
    (x : List UInt8) :
    parseHeader (b0 :: b1 :: x) = parseExtended (firstOctets b0 b1) (hasKey b1) k ok x := by
  have hl : (firstOctets b0 b1).length = b1.toNat % 128 := rfl
  rw [parseHeader, hgood, if_neg (by decide), parseLength, hl]
  rcases hk with ⟨h, rfl, rfl⟩ | ⟨h, rfl, rfl⟩ <;> rw [h] <;> rfl

/-- How the code tells the lengths that are in shortest form. -/
theorem readExtPayloadlen_eq (c : FrameContext) {k : Nat} {ok : Nat → Bool}
    (hk : k = 2 ∧ ok = ok16 ∨ k = 8 ∧ ok = ok64) (hreq : c.ireqread = k)
    (hlt : beVal (c.avail.take k) < 2 ^ 64) :
    let c' : FrameContext := { c with ipayloadlen := beVal (c.avail.take k), ipayloadoff := 0,
                                      ibufmark := c.ibufmark + k }
    readExtPayloadlen c = if ok (beVal (c.avail.take k)) then (none, afterLength c')
      else (some .proto, c') := by
  intro c'
  have hval : be64toh (List.replicate (8 - k) 0 ++ c.avail.take k) = beVal (c.avail.take k) :=
    Octets.beVal_replicate_zero_append _ _
  -- the test for the top bit is a test of the range
  have htop : beVal (c.avail.take k) < 2 ^ 63 ↔ (beVal (c.avail.take k)).testBit 63 = false := by
    constructor
    · exact Nat.testBit_lt_two_pow
    · intro h
      by_contra hge
      have := Nat.testBit_two_pow_add_eq (beVal (c.avail.take k) - 2 ^ 63) 63
      rw [show 2 ^ 63 + (beVal (c.avail.take k) - 2 ^ 63) = beVal (c.avail.take k) by omega, h,
        Nat.testBit_lt_two_pow (by omega)] at this
      exact absurd this (by decide)
  unfold readExtPayloadlen
  simp only [hreq, hval]
  rcases hk with ⟨rfl, rfl⟩ | ⟨rfl, rfl⟩
  · by_cases hok : 126 ≤ beVal (c.avail.take 2)
    · simp only [ok16, hok, decide_true, if_true, afterLength, c']
      simp [Nat.not_lt.2 hok, hreq]
      split_ifs <;> rfl
    · simp only [ok16, hok, decide_false, Bool.false_eq_true, if_false, c']
      simp [Nat.lt_of_not_le hok, hreq]
  · by_cases hlow : 65536 ≤ beVal (c.avail.take 8)
    · by_cases hhigh : beVal (c.avail.take 8) < 2 ^ 63
      · have htop' := htop.1 hhigh
        simp only [ok64, hlow, hhigh, decide_true, Bool.and_self, if_true, afterLength, c']
        simp [Nat.not_lt.2 hlow, htop', hreq]
        split_ifs <;> rfl
      · have htop' : (beVal (c.avail.take 8)).testBit 63 = true := by
          by_contra h
          exact hhigh (htop.2 (by simpa using h))
        simp only [ok64, hhigh, decide_false, Bool.and_false, Bool.false_eq_true, if_false, c']
        simp [htop', hreq]
    · simp only [ok64, hlow, decide_false, Bool.false_and, Bool.false_eq_true, if_false, c']
      simp [Nat.lt_of_not_le hlow, hreq]

/-- The block that reads the extended length, and what follows. -/
theorem fromExtPayloadlen_takes {c : FrameContext} (hw : Window c) (io : Io) {b0 b1 : UInt8}
    (hstate : c.istate = .recvExtPayloadlen) (hiom : c.iom = (firstOctets b0 b1).memo)
    (hmask : c.imask = hasKey b1) (hgood : badCtrl (firstOctets b0 b1) = false)
    (hreq : b1.toNat % 128 = 126 ∧ c.ireqread = 2 ∨ b1.toNat % 128 = 127 ∧ c.ireqread = 8) :
    Takes c io (fromExtPayloadlen c io) fun bs => takePiece .head (b0 :: b1 :: c.avail ++ bs) := by
  obtain ⟨k, ok, hk, hval, hk256, hform⟩ : ∃ k ok, c.ireqread = k ∧
      (b1.toNat % 128 = 126 ∧ k = 2 ∧ ok = ok16 ∨ b1.toNat % 128 = 127 ∧ k = 8 ∧ ok = ok64) ∧
      256 ^ k ≤ 2 ^ 64 ∧ (k = 2 ∧ ok = ok16 ∨ k = 8 ∧ ok = ok64) := by
    rcases hreq with ⟨h, hr⟩ | ⟨h, hr⟩
    · exact ⟨2, ok16, hr, Or.inl ⟨h, rfl, rfl⟩, by decide, Or.inl ⟨rfl, rfl⟩⟩
    · exact ⟨8, ok64, hr, Or.inr ⟨h, rfl, rfl⟩, by decide, Or.inr ⟨rfl, rfl⟩⟩
  have hparse := fun x => parseHeader_ext hgood hval x
  have hblock : fromExtPayloadlen c io = match requireIbuf c io with
      | (some e, c, io) => (.error e, c, io)
      | (none, c, io) =>
        match readExtPayloadlen c with
        | (some e, c) => (.error e, c, io)
        | (none, c) => fromMaskkey c io := by
    rw [fromExtPayloadlen, recvExtPayloadlen, if_pos hstate]
    rcases requireIbuf c io with ⟨_ | e, c₁, io₁⟩
    · simp only
      rcases readExtPayloadlen c₁ with ⟨_ | e, c₂⟩ <;> rfl
    · rfl
  rw [hblock]
  apply Takes.of_requireIbuf hw (by rcases hreq with ⟨-, h⟩ | ⟨-, h⟩ <;> rw [h] <;> decide)
  · intro bs c' io' href hshort
    rw [hk] at hshort
    change Returns _ _ (takePiece .head (b0 :: b1 :: (c.avail ++ bs)))
    rw [takePiece, hparse, parseExtended, if_pos hshort]
    refine ⟨rfl, ?_⟩
    rw [← href.avail]
    have hrest := href.rest
    exact .ext b0 b1 (by rw [hrest]; exact hstate) (by rw [hrest]; exact hiom)
      (by rw [hrest]; exact hmask) hgood (by rw [hrest]; exact hreq)
  · intro bs c' io' href henough
    rw [hk, ← href.avail] at henough
    have hlt : beVal (c'.avail.take k) < 2 ^ 64 := by
      have := Octets.beVal_lt (c'.avail.take k)
      rw [List.length_take, Nat.min_eq_left henough] at this
      omega
    have hmark := href.window.advance henough
    have hpiece : ∀ x, takePiece .head (b0 :: b1 :: c.avail ++ (bs ++ x)) =
        match parseExtended (firstOctets b0 b1) (hasKey b1) k ok (c'.avail ++ x) with
        | .more => .wait .head (b0 :: b1 :: (c'.avail ++ x))
        | .malformed => .bad
        | .header h rest => takeBody h 0 rest := by
      intro x
      rw [show b0 :: b1 :: c.avail ++ (bs ++ x) = b0 :: b1 :: (c'.avail ++ x) by
        rw [href.avail]; simp]
      rw [takePiece, hparse]
    have hext : ∀ x, parseExtended (firstOctets b0 b1) (hasKey b1) k ok (c'.avail ++ x) =
        if ok (beVal (c'.avail.take k)) then
          parseKey { firstOctets b0 b1 with length := beVal (c'.avail.take k) } (hasKey b1)
            (c'.avail.drop k ++ x)
        else .malformed := by
      intro x
      rw [parseExtended, if_neg (by rw [List.length_append]; omega),
        List.take_append_of_le_length henough, List.drop_append_of_le_length henough]
    rw [readExtPayloadlen_eq c' hform (by rw [href.rest]; exact hk) hlt]
    by_cases hok : ok (beVal (c'.avail.take k)) = true
    · rw [if_pos hok]
      have hkeyed : ∀ x, parseHeader (b0 :: b1 :: c'.avail.take k ++ x) =
          parseKey { firstOctets b0 b1 with length := beVal (c'.avail.take k) } (hasKey b1) x := by
        intro x
        have htake : (c'.avail.take k).length = k := by rw [List.length_take]; omega
        rw [List.cons_append, List.cons_append, hparse, parseExtended,
          if_neg (by rw [List.length_append]; omega), List.take_left' htake,
          List.drop_left' htake, if_pos hok]
      obtain ⟨f, hf⟩ : ∃ f : FrameContext, f = { c' with
          ipayloadlen := beVal (c'.avail.take k), ipayloadoff := 0,
          ibufmark := c'.ibufmark + k } := ⟨_, rfl⟩
      have havail : f.avail = c'.avail.drop k := avail_advance (by rw [hf]) (by rw [hf])
      have hafter := afterLength_takes (c := f) (by rw [hf]; exact ⟨hmark, href.window.size_le⟩) io'
        rfl (by rw [hf, href.rest]; exact hmask) (by rw [hf, href.rest]; exact hiom) (by rw [hf])
        (by rw [hf]) hkeyed
      rw [← hf]
      refine hafter.congr (by rw [hf]; rfl) fun x => ?_
      rw [havail, show b0 :: b1 :: c.avail ++ (bs ++ x) = b0 :: b1 :: (c'.avail ++ x) by
        rw [href.avail]; simp]
      congr 1
      change b0 :: b1 :: (c'.avail.take k ++ c'.avail.drop k ++ x) = _
      rw [List.take_append_drop]
    · rw [if_neg hok]
      refine Takes.of_proto ⟨hmark, href.window.size_le⟩ rfl ?_
      rw [hpiece, hext, if_neg hok]

/-- What the first block makes of the two octets it reads. -/
theorem readHeader1_eq {c : FrameContext} {b0 b1 : UInt8} {rest : List UInt8}
    (havail : c.avail = b0 :: b1 :: rest) :
    let c' : FrameContext := { c with iom := (firstOctets b0 b1).memo, imask := hasKey b1,
                                      ibufmark := c.ibufmark + 2 }
    readHeader1 c =
      if badCtrl (firstOctets b0 b1) then (some .proto, c')
      else if b1.toNat % 128 = 126 then
        (none, { c' with istate := .recvExtPayloadlen, ireqread := 2 })
      else if b1.toNat % 128 = 127 then
        (none, { c' with istate := .recvExtPayloadlen, ireqread := 8 })
      else (none, afterLength { c' with ipayloadlen := b1.toNat % 128, ipayloadoff := 0 }) := by
  intro c'
  have hmemo : (⟨(b0 >>> 7) &&& 1, b0 &&& 0xf, (b0 >>> 4) &&& 7⟩ : OpcodeMemo) =
      (firstOctets b0 b1).memo := by
    rw [finBit_eq, opcodeBits_eq, rsvBits_eq]
    rfl
  have hbad : (isCtrlFrame (b0 &&& 0xf) && (decide (125 < b1 &&& 0x7f) || (b0 >>> 7) &&& 1 == 0)) =
      badCtrl (firstOctets b0 b1) := by
    have hctrl : isCtrlFrame (b0 &&& 0xf) = (firstOctets b0 b1).isCtrl := by
      rw [opcodeBits_eq]
      exact isCtrlFrame_ofNat ⟨b0.toNat % 16, Nat.mod_lt _ (by decide)⟩
    have hlong : decide (125 < b1 &&& 0x7f) = decide (125 < (firstOctets b0 b1).length) := by
      rw [decide_eq_decide, UInt8.lt_iff_toNat_lt, lengthBits_toNat]
      rfl
    have hfin : ((b0 >>> 7) &&& 1 == 0) = !(firstOctets b0 b1).fin := by
      rw [finBit_eq]
      change (UInt8.ofNat (decide (128 ≤ b0.toNat)).toNat == 0) = !decide (128 ≤ b0.toNat)
      cases decide (128 ≤ b0.toNat) <;> rfl
    rw [hctrl, hlong, hfin, badCtrl, Bool.or_comm]
  have hlen : ∀ n : UInt8, (b1 &&& 0x7f = n) ↔ b1.toNat % 128 = n.toNat := by
    intro n
    rw [← UInt8.toNat_inj, lengthBits_toNat]
  unfold readHeader1
  simp only [havail, List.getD_cons_zero, List.getD_cons_succ, hbad, hmemo, maskBit_eq, hlen,
    lengthBits_toNat]
  split_ifs <;> first | rfl | simp_all [afterLength, c']

/-- **What one call of `wslay_frame_recv` does.**  It obtains some octets from
`recv_callback`, and with them it takes the next piece. -/
theorem frameRecv_takes {c : FrameContext} (hw : Window c) (io : Io) {d : Dec} {look : List UInt8}
    (hv : View c d look) : Takes c io (frameRecv c io) fun bs => takePiece d (look ++ bs) := by
  cases hv with
  | header1 hstate hreq =>
    have hblock : frameRecv c io = match requireIbuf c io with
        | (some e, c, io) => (.error e, c, io)
        | (none, c, io) =>
          match readHeader1 c with
          | (some e, c) => (.error e, c, io)
          | (none, c) => fromExtPayloadlen c io := by
      rw [frameRecv_eq, recvHeader1, if_pos hstate]
      rcases requireIbuf c io with ⟨_ | e, c₁, io₁⟩
      · simp only
        rcases readHeader1 c₁ with ⟨_ | e, c₂⟩ <;> rfl
      · rfl
    rw [hblock]
    apply Takes.of_requireIbuf hw (by rw [hreq]; decide)
    · intro bs c' io' href hshort
      rw [hreq, ← href.avail] at hshort
      have hmore : parseHeader c'.avail = .more := by
        match hc : c'.avail with
        | [] => rfl
        | [_] => rfl
        | _ :: _ :: _ => rw [hc, List.length_cons, List.length_cons] at hshort; omega
      rw [← href.avail, takePiece, hmore]
      have hrest := href.rest
      exact ⟨rfl, .header1 (by rw [hrest]; exact hstate) (by rw [hrest]; exact hreq)⟩
    · intro bs c' io' href henough
      rw [hreq, ← href.avail] at henough
      obtain ⟨b0, b1, rest, havail⟩ : ∃ b0 b1 rest, c'.avail = b0 :: b1 :: rest := by
        match hc : c'.avail with
        | [] => rw [hc] at henough; simp at henough
        | [_] => rw [hc] at henough; simp at henough
        | b0 :: b1 :: rest => exact ⟨b0, b1, rest, rfl⟩
      have hwin : ∀ f : FrameContext, f.ibuf = c'.ibuf → f.ibufmark = c'.ibufmark + 2 →
          Window f ∧ f.avail = rest := by
        intro f hbuf hmark
        refine ⟨⟨?_, ?_⟩, ?_⟩
        · rw [hbuf, hmark]; exact href.window.advance henough
        · rw [hbuf]; exact href.window.size_le
        · rw [avail_advance hbuf hmark, havail]; rfl
      have hpiece : ∀ x, takePiece .head (c.avail ++ (bs ++ x)) =
          takePiece .head (b0 :: b1 :: rest ++ x) := by
        intro x
        rw [← List.append_assoc, ← href.avail, havail]
      rw [readHeader1_eq havail]
      split_ifs with hbad h126 h127
      · refine Takes.of_proto ⟨href.window.advance henough, href.window.size_le⟩ rfl ?_
        rw [hpiece, List.append_nil, takePiece, parseHeader, if_pos hbad]
      · obtain ⟨hw', havail'⟩ := hwin { c' with
          iom := (firstOctets b0 b1).memo, imask := hasKey b1, ibufmark := c'.ibufmark + 2,
          istate := .recvExtPayloadlen, ireqread := 2 } rfl rfl
        refine (fromExtPayloadlen_takes hw' io' rfl rfl rfl (by simpa using hbad)
          (Or.inl ⟨h126, rfl⟩)).congr rfl fun x => ?_
        rw [hpiece, havail']
      · obtain ⟨hw', havail'⟩ := hwin { c' with
          iom := (firstOctets b0 b1).memo, imask := hasKey b1, ibufmark := c'.ibufmark + 2,
          istate := .recvExtPayloadlen, ireqread := 8 } rfl rfl
        refine (fromExtPayloadlen_takes hw' io' rfl rfl rfl (by simpa using hbad)
          (Or.inr ⟨h127, rfl⟩)).congr rfl fun x => ?_
        rw [hpiece, havail']
      · obtain ⟨hw', havail'⟩ := hwin { c' with
          iom := (firstOctets b0 b1).memo, imask := hasKey b1, ibufmark := c'.ibufmark + 2,
          ipayloadlen := b1.toNat % 128, ipayloadoff := 0 } rfl rfl
        have hparse : ∀ x, parseHeader ([b0, b1] ++ x) =
            parseKey (firstOctets b0 b1) (hasKey b1) x := by
          intro x
          have hl : (firstOctets b0 b1).length = b1.toNat % 128 := rfl
          have hlt := Nat.mod_lt b1.toNat (show 0 < 128 by decide)
          change parseHeader (b0 :: b1 :: x) = _
          rw [parseHeader, if_neg hbad, parseLength, if_pos (by rw [hl]; omega)]
        change Takes c' io' (fromExtPayloadlen (afterLength _) io') _
        rw [fromExtPayloadlen_of_ne (by unfold afterLength; split_ifs <;> simp)]
        refine (afterLength_takes hw' io' rfl rfl rfl rfl rfl hparse).congr rfl fun x => ?_
        rw [hpiece, havail']
        rfl
  | ext b0 b1 hstate hiom hmask hgood hreq =>
    rw [frameRecv_of_ne (by rw [hstate]; simp)]
    exact fromExtPayloadlen_takes hw io hstate hiom hmask hgood hreq
  | maskkey g hb hstate hreq hmask hiom hlen hoff hparse =>
    rw [frameRecv_of_ne (by rw [hstate]; simp), fromExtPayloadlen_of_ne (by rw [hstate]; simp)]
    exact fromMaskkey_takes hw io hstate hreq hmask hiom hlen hoff hparse
  | payload h off hp hlt =>
    have hstate := hp.istate
    rw [frameRecv_of_ne (by rw [hstate]; simp), fromExtPayloadlen_of_ne (by rw [hstate]; simp),
      fromMaskkey_of_ne (by rw [hstate]; simp)]
    exact recvPayload_takes hw io hp (Nat.le_of_lt hlt)

end Wslay
