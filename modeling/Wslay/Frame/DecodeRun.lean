import Wslay.Frame.Decoding
import Wslay.Wire.Stream

/-!
# Runs of `wslay_frame_recv`

An application calls `wslay_frame_recv` again after every success and every
`WSLAY_ERR_WANT_READ`.  Whatever the calls of `recv_callback` give, what the
application gets to see is the reference decoding of the stream.

* `Ready` — the invariant of the receiving half between two calls.
* `frameRecv_step` — what one call does to it.
* `frameRecvs_decode` — the answers of a whole run.
-/

namespace Wslay

open Octets (Key)

/-! ## What a run shows -/

/-- The results of `n` calls of `wslay_frame_recv`, or of fewer if one fails for
good, and where they lead. -/
def frameRecvs : Nat → FrameContext → Io → List (Except Err Iocb) × FrameContext × Io
  | 0, c, io => ([], c, io)
  | n + 1, c, io =>
    match frameRecv c io with
    | (.error e, c, io) =>
      if e = .wantRead then (.error e :: (frameRecvs n c io).1, (frameRecvs n c io).2)
      else ([.error e], c, io)
    | (.ok iocb, c, io) => (.ok iocb :: (frameRecvs n c io).1, (frameRecvs n c io).2)

/-- A result that says something about the stream. -/
def isAnswer : Except Err Iocb → Bool
  | .error .wantRead => false
  | _ => true

/-- The answers among some results. -/
def answers (rs : List (Except Err Iocb)) : List (Except Err Iocb) := rs.filter isAnswer

/-- The pieces `ps` bring the octets `data` of a frame with header `h`: each
carries what the header says, and none is empty. -/
structure PiecesOf (h : Header) (data : List UInt8) (ps : List Iocb) : Prop where
  header : ∀ p ∈ ps, p = h.iocb p.data
  data : ps.flatMap Iocb.data = data
  nonempty : ∀ p ∈ ps, p.data ≠ []

/-- The pieces `ps` bring the frame `f`; an empty frame is a single empty piece. -/
def Whole (f : Frame) (ps : List Iocb) : Prop :=
  if f.payload = [] then ps = [f.header.iocb []] else PiecesOf f.header f.payload ps

/-- What is seen of the end of a stream: the payload there is, or an error. -/
def Tail.Shown (tail : Tail) (ps : List Iocb) (es : List (Except Err Iocb)) : Prop :=
  match tail with
  | .header _ => ps = [] ∧ es = []
  | .payload h data => PiecesOf h data ps ∧ es = []
  | .malformed => ps = [] ∧ es = [.error .proto]

/-- The answers `as` show the frames `fs` one after the other, and then `tail`. -/
def Shows (fs : List Frame) (tail : Tail) (as : List (Except Err Iocb)) : Prop :=
  ∃ gs g es, as = (gs.flatten ++ g).map .ok ++ es ∧ List.Forall₂ Whole fs gs ∧ tail.Shown g es

theorem PiecesOf.nil (h : Header) : PiecesOf h [] [] := by
  constructor <;> simp

theorem PiecesOf.concat {h : Header} {data more : List UInt8} {ps : List Iocb}
    (hp : PiecesOf h data ps) (hne : more ≠ []) :
    PiecesOf h (data ++ more) (ps ++ [h.iocb more]) where
  header := by
    intro p hmem
    rcases List.mem_append.1 hmem with hmem | hmem
    · exact hp.header p hmem
    · rw [List.mem_singleton.1 hmem]
      rfl
  data := by
    rw [List.flatMap_append, hp.data]
    simp [Header.iocb]
  nonempty := by
    intro p hmem
    rcases List.mem_append.1 hmem with hmem | hmem
    · exact hp.nonempty p hmem
    · rw [List.mem_singleton.1 hmem]
      exact hne

theorem PiecesOf.eq_nil {h : Header} {ps : List Iocb} (hp : PiecesOf h [] ps) : ps = [] := by
  cases ps with
  | nil => rfl
  | cons p ps =>
    have hdata := hp.data
    rw [List.flatMap_cons, List.append_eq_nil_iff] at hdata
    exact absurd hdata.1 (hp.nonempty p (List.mem_cons_self ..))

/-- A frame before what is already shown. -/
theorem Shows.cons {f : Frame} {g : List Iocb} {fs : List Frame} {tail : Tail}
    {as : List (Except Err Iocb)} (hw : Whole f g) (hs : Shows fs tail as) :
    Shows (f :: fs) tail (g.map .ok ++ as) := by
  obtain ⟨gs, g', es, rfl, hgs, htail⟩ := hs
  refine ⟨g :: gs, g', es, ?_, .cons hw hgs, htail⟩
  simp only [List.flatten_cons, List.map_append, List.append_assoc]

/-! ## One call -/

/-- The receiving half stands at `d`, with the octets `look` in hand. -/
structure Ready (c : FrameContext) (d : Dec) (look : List UInt8) : Prop where
  window : Window c
  view : View c d look
  ok : d.Ok

theorem ready_new : Ready FrameContext.new .head [] :=
  ⟨⟨Nat.le_refl _, Nat.zero_le _⟩, .header1 rfl rfl, trivial⟩

/-- The octets in hand and those still to come. -/
def upcoming (look : List UInt8) (io : Io) : List UInt8 := look ++ pendingOctets io.recvs

/-- **What one call of `wslay_frame_recv` does.**  It waits, having asked for
more; it rejects the stream; or it takes a piece. -/
theorem frameRecv_step {c : FrameContext} {d : Dec} {look : List UInt8} (hr : Ready c d look)
    (io : Io) :
    ∃ bs, Delivers io bs (frameRecv c io).2.2 ∧ (io.Quiet → (frameRecv c io).2.2.Quiet) ∧
      (frameRecv c io).2.1.sendHalf = c.sendHalf ∧
      ((frameRecv c io).1 = .error .wantRead ∧ Asked io (frameRecv c io).2.2 ∧
          (∃ d' look', takePiece d (look ++ bs) = .wait d' look' ∧
            Ready (frameRecv c io).2.1 d' look') ∨
        (frameRecv c io).1 = .error .proto ∧ takePiece d (look ++ bs) = .bad ∨
        ∃ h off data d' look', takePiece d (look ++ bs) = .piece h off data d' look' ∧
          (frameRecv c io).1 = .ok (h.iocb data) ∧ Ready (frameRecv c io).2.1 d' look') := by
  obtain ⟨bs, hdel, hquiet, hwin, hsend, hret, hasked⟩ := frameRecv_takes hr.window io hr.view
  change Returns _ _ (takePiece d (look ++ bs)) at hret
  refine ⟨bs, hdel, hquiet, hsend, ?_⟩
  cases hp : takePiece d (look ++ bs) with
  | wait d' look' =>
    rw [hp] at hret
    obtain ⟨hres, hview⟩ := hret
    exact Or.inl ⟨hres, hasked hres, d', look', rfl, hwin, hview, (takePiece_wait hr.ok hp).1⟩
  | bad =>
    rw [hp] at hret
    exact Or.inr (Or.inl ⟨hret, rfl⟩)
  | piece h off data d' look' =>
    rw [hp] at hret
    obtain ⟨hres, hview⟩ := hret
    obtain ⟨hdr, raw, -, -, hv, -, hle, -, rfl⟩ := takePiece_piece hr.ok hp
    exact Or.inr (Or.inr ⟨h, off, data, _, look', rfl, hres, hwin, hview, Dec.after_ok hv hle⟩)

/-! ## Whole runs -/

/-- The octets of the frame in progress, of whose payload `data` has been given
out. -/
def Dec.octets (d : Dec) (data : List UInt8) : List UInt8 :=
  match d with
  | .head => []
  | .body h _ => h.encode ++ h.mask 0 data

/-- The pieces given out of the frame in progress. -/
def Dec.Given (d : Dec) (data : List UInt8) (g : List Iocb) : Prop :=
  match d with
  | .head => data = [] ∧ g = []
  | .body h off => data.length = off ∧ PiecesOf h data g

/-- What is still to be answered: together with what has been given out of the
frame in progress, the answers `as` show the rest of the stream. -/
def Finishes (d : Dec) (stream : List UInt8) (as : List (Except Err Iocb)) : Prop :=
  ∀ data g, d.Given data g →
    Shows (decodeStream (d.octets data ++ stream)).1 (decodeStream (d.octets data ++ stream)).2
      (g.map .ok ++ as)

/-- A piece, and what follows it. -/
theorem Finishes.piece {d : Dec} {hdr raw rest : List UInt8} {h : Header} {off : Nat}
    {as : List (Except Err Iocb)} (henter : d.Enters hdr h off) (hv : h.Valid)
    (hle : off + raw.length ≤ h.length) (hempty : raw = [] → h.length = off) (hd : d.Ok)
    (hf : Finishes (Dec.after h off raw.length) rest as) :
    Finishes d (hdr ++ (raw ++ rest)) (.ok (h.iocb (h.mask off raw)) :: as) := by
  intro data g hgiven
  -- the frame in progress is the one the piece belongs to
  obtain ⟨hoct, hdata, hg, hoff⟩ : d.octets data ++ (hdr ++ (raw ++ rest)) =
      h.encode ++ (h.mask 0 data ++ (raw ++ rest)) ∧ data.length = off ∧ PiecesOf h data g ∧
        (off = 0 ∨ off < h.length) := by
    rcases henter with ⟨rfl, rfl, rfl⟩ | ⟨rfl, rfl⟩
    · obtain ⟨rfl, rfl⟩ := hgiven
      exact ⟨by simp [Dec.octets], rfl, .nil h, Or.inl rfl⟩
    · exact ⟨by simp [Dec.octets], hgiven.1, hgiven.2, Or.inr hd.2⟩
  have hmore : h.mask 0 (data ++ h.mask off raw) = h.mask 0 data ++ raw := by
    rw [Header.mask_append, Nat.zero_add, hdata, Header.mask_mask]
  have hlist : g.map Except.ok ++ Except.ok (h.iocb (h.mask off raw)) :: as =
      (g ++ [h.iocb (h.mask off raw)]).map Except.ok ++ as := by simp
  rw [hoct, hlist]
  by_cases hend : h.length = off + raw.length
  · -- the frame is complete
    rw [Dec.after, if_pos hend] at hf
    have hlen : (data ++ h.mask off raw).length = h.length := by simp [hdata, hend]
    have hheader := Frame.header_ofHeader hlen
    have hcode : h.encode ++ (h.mask 0 data ++ (raw ++ rest)) =
        (Frame.ofHeader h (data ++ h.mask off raw)).encode ++ rest := by
      rw [Frame.encode, hheader]
      change _ = h.encode ++ h.mask 0 (data ++ h.mask off raw) ++ rest
      rw [hmore]
      simp
    rw [hcode, decodeStream_encode (by rw [hheader]; exact hv)]
    refine Shows.cons ?_ (hf [] [] ⟨rfl, rfl⟩)
    unfold Whole
    rw [hheader]
    change if data ++ h.mask off raw = [] then _ else _
    by_cases hraw : raw = []
    · have hoff0 : off = 0 := by
        have := hempty hraw
        omega
      have hdnil : data = [] := List.length_eq_zero_iff.1 (by omega)
      subst hdnil
      rw [hraw, hg.eq_nil]
      simp
    · have hne : h.mask off raw ≠ [] := by simpa using hraw
      rw [if_neg (by simp [hne])]
      exact hg.concat hne
  · -- some payload is missing
    have hne : h.mask off raw ≠ [] := by
      intro hnil
      have hraw : raw = [] := by simpa using hnil
      exact hend (by rw [hraw, List.length_nil, Nat.add_zero]; exact hempty hraw)
    rw [Dec.after, if_neg hend] at hf
    have := hf (data ++ h.mask off raw) (g ++ [h.iocb (h.mask off raw)])
      ⟨by simp [hdata], hg.concat hne⟩
    rw [Dec.octets, hmore] at this
    simpa using this

/-- A header read while waiting belongs to what follows it. -/
theorem Finishes.wait {d d' : Dec} {hdr rest : List UInt8} {as : List (Except Err Iocb)}
    (hw : d' = d ∧ hdr = [] ∨ ∃ h, d = .head ∧ d' = .body h 0 ∧ hdr = h.encode)
    (hf : Finishes d' rest as) : Finishes d (hdr ++ rest) as := by
  rcases hw with ⟨rfl, rfl⟩ | ⟨h, rfl, rfl, rfl⟩
  · exact hf
  · rintro data g ⟨rfl, rfl⟩
    have := hf [] [] ⟨rfl, .nil h⟩
    rw [Dec.octets, Header.mask_nil, List.append_nil] at this
    exact this

/-- A stream that ends while the decoder waits. -/
theorem Finishes.end {d : Dec} {look : List UInt8} (hd : d.Ok)
    (hp : takePiece d look = .wait d look) : Finishes d look [] := by
  intro data g hgiven
  cases d with
  | head =>
    obtain ⟨rfl, rfl⟩ := hgiven
    have hmore : parseHeader look = .more := by
      unfold takePiece at hp
      cases hparse : parseHeader look with
      | more => rfl
      | malformed => simp [hparse] at hp
      | header h rest =>
        simp only [hparse, takeBody] at hp
        split_ifs at hp
        simp at hp
    change Shows (decodeStream look).1 (decodeStream look).2 _
    rw [decodeStream_more hmore]
    exact ⟨[], [], [], rfl, .nil, rfl, rfl⟩
  | body h off =>
    obtain ⟨hlen, hg⟩ := hgiven
    obtain ⟨hv, hlt⟩ := hd
    have hnil : look = [] := by
      simp only [takePiece, takeBody] at hp
      split_ifs at hp with hend hnil
      exact hnil
    subst hnil
    rw [Dec.octets, List.append_nil, decodeStream_header (parseHeader_encode hv _),
      if_pos (by rw [Header.length_mask]; omega), Header.mask_mask]
    exact ⟨[], g, [], by simp, .nil, hg, rfl⟩

theorem Finishes.bad {look rest : List UInt8} (hp : parseHeader look = .malformed) :
    Finishes .head (look ++ rest) [.error .proto] := by
  rintro data g ⟨rfl, rfl⟩
  change Shows (decodeStream (look ++ rest)).1 (decodeStream (look ++ rest)).2 _
  rw [decodeStream_malformed (parseHeader_malformed_append hp rest)]
  exact ⟨[], [], [.error .proto], rfl, .nil, rfl, rfl⟩

/-- The octets and the calls of `recv_callback` still to come bound the calls
that a run needs. -/
def outstanding (look : List UInt8) (io : Io) : Nat :=
  look.length + (pendingOctets io.recvs).length + io.recvs.length

theorem frameRecvs_of_wait {c : FrameContext} {d : Dec} {look : List UInt8} (hr : Ready c d look)
    {io : Io} (hnil : io.recvs = []) (hp : takePiece d look = .wait d look) (n : Nat) :
    answers (frameRecvs n c io).1 = [] := by
  induction n generalizing c d look io with
  | zero => rfl
  | succ n ih =>
    obtain ⟨bs, hdel, -, -, hres⟩ := frameRecv_step hr io
    have hbs : bs = [] ∧ (frameRecv c io).2.2.recvs = [] := by
      have hpend := hdel.pending
      have hfew := hdel.fewer
      rw [hnil] at hpend hfew
      exact ⟨(List.append_eq_nil_iff.1 hpend.symm).1, List.length_eq_zero_iff.1 (by simpa using hfew)⟩
    rw [hbs.1, List.append_nil, hp] at hres
    rcases hres with ⟨hwant, -, d', look', hsame, hready⟩ | ⟨-, hbad⟩ | ⟨_, _, _, _, _, hpiece, -⟩
    · cases hsame
      obtain ⟨r, c₁, io₁, hcall⟩ : ∃ r c₁ io₁, frameRecv c io = (r, c₁, io₁) := ⟨_, _, _, rfl⟩
      rw [hcall] at hwant hready hbs
      simp only at hwant hready hbs
      subst hwant
      simp only [frameRecvs, hcall, if_true, answers, List.filter_cons, isAnswer]
      exact ih hready hbs.2 hp
    · cases hbad
    · cases hpiece

/-- From a state between two calls the runs answer `as`: all of it once they are long
enough, and a front of it before. -/
structure Answers (c : FrameContext) (d : Dec) (look : List UInt8) (io : Io)
    (as : List (Except Err Iocb)) : Prop where
  finishes : Finishes d (upcoming look io) as
  front : ∀ n, answers (frameRecvs n c io).1 <+: as
  all : ∀ n, outstanding look io < n → answers (frameRecvs n c io).1 = as

/-- A call that answers `a` lowers what is outstanding, and the runs go on behind it. -/
theorem Answers.cons {c c₁ : FrameContext} {d d₁ : Dec} {look look₁ : List UInt8} {io io₁ : Io}
    {a as : List (Except Err Iocb)}
    (hcall : ∀ n, answers (frameRecvs (n + 1) c io).1 = a ++ answers (frameRecvs n c₁ io₁).1)
    (hless : outstanding look₁ io₁ < outstanding look io)
    (hfin : Finishes d (upcoming look io) (a ++ as)) (h : Answers c₁ d₁ look₁ io₁ as) :
    Answers c d look io (a ++ as) := by
  refine ⟨hfin, fun n => ?_, fun n hn => ?_⟩
  · cases n with
    | zero => exact List.nil_prefix
    | succ n =>
      rw [hcall]
      exact (List.prefix_append_right_inj a).2 (h.front n)
  · cases n with
    | zero => omega
    | succ n => rw [hcall, h.all n (by omega)]

/-- The first call rejects the stream. -/
theorem Answers.rejects {c : FrameContext} {d : Dec} {look : List UInt8} {io : Io}
    (hcall : ∀ n, answers (frameRecvs (n + 1) c io).1 = [.error .proto])
    (hfin : Finishes d (upcoming look io) [.error .proto]) :
    Answers c d look io [.error .proto] := by
  refine ⟨hfin, fun n => ?_, fun n hn => ?_⟩
  · cases n with
    | zero => exact List.nil_prefix
    | succ n => rw [hcall]
  · cases n with
    | zero => omega
    | succ n => exact hcall n

/-- The answers of a run from any state between two calls. -/
theorem frameRecvs_finish {c : FrameContext} {d : Dec} {look : List UInt8} (hr : Ready c d look)
    (io : Io) : ∃ as, Answers c d look io as := by
  -- by induction on what is outstanding, which every call lowers
  induction hm : outstanding look io using Nat.strong_induction_on generalizing c d look io with
  | _ m ih =>
    obtain ⟨bs, hdel, -, -, hres⟩ := frameRecv_step hr io
    obtain ⟨r, c₁, io₁, hcall⟩ : ∃ r c₁ io₁, frameRecv c io = (r, c₁, io₁) := ⟨_, _, _, rfl⟩
    rw [hcall] at hdel hres
    simp only at hdel hres
    have hup : upcoming look io = look ++ bs ++ pendingOctets io₁.recvs := by
      rw [upcoming, hdel.pending, List.append_assoc]
    have hpend : (pendingOctets io.recvs).length = bs.length + (pendingOctets io₁.recvs).length := by
      rw [hdel.pending, List.length_append]
    have hfew := hdel.fewer
    rcases hres with ⟨rfl, hasked, d', look', hp, hready⟩ | ⟨rfl, hp⟩ |
      ⟨h, off, data, d', look', hp, rfl, hready⟩
    · -- the call waits
      have hruns : ∀ n, answers (frameRecvs (n + 1) c io).1 = answers (frameRecvs n c₁ io₁).1 := by
        intro n
        simp only [frameRecvs, hcall, if_true, answers, List.filter_cons, isAnswer]
        rfl
      obtain ⟨hok, hp', hdr, hlook, hwait⟩ := takePiece_wait hr.ok hp
      have hlen : look.length + bs.length = hdr.length + look'.length := by
        rw [← List.length_append, hlook, List.length_append]
      by_cases hnil : io.recvs = []
      · have hnil₁ : io₁.recvs = [] := by
          rw [hnil] at hfew
          exact List.length_eq_zero_iff.1 (by simpa using hfew)
        have hall : ∀ n, answers (frameRecvs n c io).1 = [] := by
          intro n
          cases n with
          | zero => rfl
          | succ n => rw [hruns, frameRecvs_of_wait hready hnil₁ hp']
        refine ⟨[], ?_, fun n => by rw [hall n], fun n _ => hall n⟩
        rw [hup, hlook, List.append_assoc]
        refine Finishes.wait hwait ?_
        rw [hnil₁]
        change Finishes d' (look' ++ []) []
        rw [List.append_nil]
        exact .end hok hp'
      · have hlt := hasked.resolve_left hnil
        have hless : outstanding look' io₁ < outstanding look io := by
          rw [outstanding, outstanding]
          omega
        obtain ⟨as, has⟩ := ih _ (hm ▸ hless) hready io₁ rfl
        refine ⟨_, Answers.cons (a := []) hruns hless ?_ has⟩
        rw [hup, hlook, List.append_assoc]
        exact Finishes.wait hwait has.finishes
    · -- the call rejects the stream
      obtain ⟨rfl, hbad⟩ := takePiece_bad hp
      refine ⟨_, Answers.rejects (fun n => ?_) (by rw [hup]; exact .bad hbad)⟩
      simp [frameRecvs, hcall, answers, isAnswer]
    · -- the call takes a piece
      have hruns : ∀ n, answers (frameRecvs (n + 1) c io).1 =
          [.ok (h.iocb data)] ++ answers (frameRecvs n c₁ io₁).1 := by
        intro n
        simp only [frameRecvs, hcall, answers, List.filter_cons, isAnswer, if_true]
        rfl
      obtain ⟨hdr, raw, hlook, henter, hv, rfl, hle, hempty, rfl⟩ := takePiece_piece hr.ok hp
      have hlen : look.length + bs.length = hdr.length + (raw.length + look'.length) := by
        rw [← List.length_append, hlook, List.length_append, List.length_append]
      have hpos : 0 < hdr.length + raw.length := by
        rcases henter with ⟨-, -, rfl⟩ | ⟨rfl, -⟩
        · rw [Header.encode, List.cons_append, List.length_cons]
          omega
        · have hlt := hr.ok.2
          by_contra h0
          have hraw : raw = [] := List.length_eq_zero_iff.1 (by omega)
          have := hempty hraw
          omega
      have hless : outstanding look' io₁ < outstanding look io := by
        rw [outstanding, outstanding]
        omega
      obtain ⟨as, has⟩ := ih _ (hm ▸ hless) hready io₁ rfl
      refine ⟨_, Answers.cons hruns hless ?_ has⟩
      rw [hup, hlook, List.append_assoc, List.append_assoc]
      exact Finishes.piece henter hv hle hempty hr.ok has.finishes

/-- A run neither loses octets nor sees them twice. -/
theorem frameRecvs_accounts {c : FrameContext} {d : Dec} {look : List UInt8} (hr : Ready c d look)
    (io : Io) (n : Nat) :
    (frameRecvs n c io).2.2.received ++ pendingOctets (frameRecvs n c io).2.2.recvs =
      io.received ++ pendingOctets io.recvs := by
  induction n generalizing c d look io with
  | zero => rfl
  | succ n ih =>
    obtain ⟨bs, hdel, -, -, hres⟩ := frameRecv_step hr io
    obtain ⟨r, c₁, io₁, hcall⟩ : ∃ r c₁ io₁, frameRecv c io = (r, c₁, io₁) := ⟨_, _, _, rfl⟩
    rw [hcall] at hdel hres
    simp only at hdel hres
    have hone : io₁.received ++ pendingOctets io₁.recvs = io.received ++ pendingOctets io.recvs := by
      rw [hdel.received, hdel.pending, List.append_assoc]
    rcases hres with ⟨rfl, -, d', look', -, hready⟩ | ⟨rfl, -⟩ | ⟨_, _, _, _, _, -, rfl, hready⟩
    · simp only [frameRecvs, hcall, if_true]
      rw [ih hready io₁, hone]
    · simp only [frameRecvs, hcall]
      exact hone
    · simp only [frameRecvs, hcall]
      rw [ih hready io₁, hone]

/-- **`wslay_frame_recv` decodes the frame format**, for every stream and every
behaviour of `recv_callback`.  Apart from `WSLAY_ERR_WANT_READ` a run on a fresh
context answers with the pieces of the frames of the reference decoding, in
order, and with `WSLAY_ERR_PROTO` if and where that decoding meets a malformed
header; it answers so completely when it is long enough, and no octet is lost
or read twice. -/
theorem frameRecvs_decode (io : Io) :
    (∃ as, Shows (decodeStream (pendingOctets io.recvs)).1 (decodeStream (pendingOctets io.recvs)).2
        as ∧
      (∀ n, answers (frameRecvs n FrameContext.new io).1 <+: as) ∧
      ∀ n, (pendingOctets io.recvs).length + io.recvs.length < n →
        answers (frameRecvs n FrameContext.new io).1 = as) ∧
    ∀ n, (frameRecvs n FrameContext.new io).2.2.received ++
        pendingOctets (frameRecvs n FrameContext.new io).2.2.recvs =
      io.received ++ pendingOctets io.recvs := by
  obtain ⟨as, hfin, hpre, hall⟩ := frameRecvs_finish ready_new io
  refine ⟨⟨as, hfin [] [] ⟨rfl, rfl⟩, hpre, fun n hn => hall n ?_⟩,
    fun n => frameRecvs_accounts ready_new io n⟩
  rw [outstanding, List.length_nil]
  omega

end Wslay
