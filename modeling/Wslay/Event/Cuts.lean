import Wslay.Event.Tape

/-!
# Where the octets are cut does not matter

What comes of a stream is what comes of its frames, each taken in one piece; only
the calls of `on_frame_recv_chunk_callback` can tell.  The exception is a Close
that comes in several pieces: of each of them two octets are passed over before
its text is read, and that can be seen as soon as its reason is not ASCII.

* `Report.Alike` — two reports are the same, as far as one looks.
* `Dec.items` — the pieces of a stream that is not cut.
* `Rx.react_append` — a piece, and the same piece in two parts.
* `Reads.cuts` — **any reading of a stream comes to the same**.
* `Trace.whole` — what a context has done depends on the octets only.
-/

namespace Wslay

open Utf8 (read)

/-! ## Reports that look alike -/

namespace Report

/-- The reports are the same when of each call is seen what `g` tells. -/
structure Alike {α : Type} (g : Call → List α) (R R' : Report) : Prop where
  calls : R.calls.flatMap g = R'.calls.flatMap g
  replies : R.replies = R'.replies
  fate : R.fate = R'.fate

variable {α : Type} {g : Call → List α} {R R' R'' : Report}

theorem Alike.refl (g : Call → List α) (R : Report) : Alike g R R := ⟨rfl, rfl, rfl⟩

theorem Alike.symm (h : Alike g R R') : Alike g R' R :=
  ⟨h.calls.symm, h.replies.symm, h.fate.symm⟩

theorem Alike.trans (h : Alike g R R') (h' : Alike g R' R'') : Alike g R R'' :=
  ⟨h.calls.trans h'.calls, h.replies.trans h'.replies, h.fate.trans h'.fate⟩

/-- What looks alike goes on to look alike. -/
theorem Alike.andThen (h : Alike g R R') {f f' : Rx → Report}
    (hf : ∀ rx, R'.fate = .live rx → Alike g (f rx) (f' rx)) :
    Alike g (R.andThen f) (R'.andThen f') := by
  cases hfate : R'.fate with
  | live rx =>
    have hrest := hf rx hfate
    rw [andThen_live (h.fate.trans hfate), andThen_live hfate]
    refine ⟨?_, ?_, hrest.fate⟩
    · simp only [List.flatMap_append, h.calls, hrest.calls]
    · simp only [h.replies, hrest.replies]
  | off heard r =>
    rw [andThen_off (h.fate.trans hfate), andThen_off hfate]
    exact h

/-- What `g'` tells can be told from what `g` tells. -/
theorem Alike.mono {β : Type} {g' : Call → List β} {k : List α → List β}
    (hk : ∀ calls : List Call, calls.flatMap g' = k (calls.flatMap g)) (h : Alike g R R') :
    Alike g' R R' :=
  ⟨by rw [hk, hk, h.calls], h.replies, h.fate⟩

end Report

/-- What a report says stays said. -/
theorem Report.prefix_andThen (R : Report) (f : Rx → Report) :
    R.calls <+: (R.andThen f).calls ∧ R.replies <+: (R.andThen f).replies := by
  cases h : R.fate with
  | live rx =>
    rw [andThen_live h]
    exact ⟨List.prefix_append _ _, List.prefix_append _ _⟩
  | off heard r =>
    rw [andThen_off h]
    exact ⟨List.prefix_rfl, List.prefix_rfl⟩

/-- A call of `on_frame_recv_chunk_callback` is not seen, and any other is. -/
def unlessChunk : Call → List Call
  | .frameRecvChunk _ => []
  | c => [c]

/-- Of the calls of `on_frame_recv_chunk_callback` the octets are seen, but not how
many calls have brought them. -/
def seen : Call → List (Call ⊕ UInt8)
  | .frameRecvChunk data => data.map .inr
  | c => [.inl c]

theorem seen_append (x y : List UInt8) :
    seen (.frameRecvChunk (x ++ y)) = seen (.frameRecvChunk x) ++ seen (.frameRecvChunk y) :=
  List.map_append ..

/-- What is seen is of a callback that is set. -/
def EventCallbacks.shows (cb : EventCallbacks) : Call ⊕ UInt8 → Bool
  | .inl c => cb.takes c
  | .inr _ => cb.onFrameRecvChunk

theorem flatMap_seen_filter (cb : EventCallbacks) (calls : List Call) :
    (calls.filter cb.takes).flatMap seen = (calls.flatMap seen).filter cb.shows := by
  induction calls with
  | nil => rfl
  | cons c calls ih =>
    have hone : (seen c).filter cb.shows = if cb.takes c then seen c else [] := by
      cases c with
      | frameRecvChunk data =>
        change (data.map Sum.inr).filter cb.shows = if cb.onFrameRecvChunk then _ else _
        cases hset : cb.onFrameRecvChunk with
        | true =>
          refine List.filter_eq_self.2 fun x hx => ?_
          obtain ⟨b, -, rfl⟩ := List.mem_map.1 hx
          exact hset
        | false =>
          refine List.filter_eq_nil_iff.2 fun x hx => ?_
          obtain ⟨b, -, rfl⟩ := List.mem_map.1 hx
          exact ne_true_of_eq_false hset
      | frameRecvStart fin rsv opcode len => cases h : cb.onFrameRecvStart <;>
          simp [seen, EventCallbacks.shows, EventCallbacks.takes, h]
      | frameRecvEnd => cases h : cb.onFrameRecvEnd <;>
          simp [seen, EventCallbacks.shows, EventCallbacks.takes, h]
      | msgRecv rsv opcode msg code => cases h : cb.onMsgRecv <;>
          simp [seen, EventCallbacks.shows, EventCallbacks.takes, h]
    rw [List.flatMap_cons, List.filter_append, hone, ← ih, List.filter_cons]
    split_ifs <;> rfl

/-- A call of `on_msg_recv_callback`. -/
def Call.isMsg : Call → Bool
  | .msgRecv .. => true
  | _ => false

/-- The calls of `on_msg_recv_callback` are among what is seen. -/
theorem filter_isMsg (calls : List Call) :
    calls.filter Call.isMsg =
      (calls.flatMap seen).filterMap fun
        | .inl c => if c.isMsg then some c else none
        | .inr _ => none := by
  induction calls with
  | nil => rfl
  | cons c calls ih =>
    rw [List.flatMap_cons, List.filterMap_append, ← ih]
    cases c with
    | frameRecvChunk data => simp [seen, Call.isMsg]
    | frameRecvStart fin rsv opcode len => rfl
    | frameRecvEnd => rfl
    | msgRecv rsv opcode msg code => rfl

/-! ## The pieces of a stream that is not cut -/

/-- The piece that a frame is. -/
def Frame.item (f : Frame) : Item := .piece f.header f.payload

/-- The pieces that the end of a stream is. -/
def Tail.items : Tail → List Item
  | .header _ => []
  | .payload h data => if data = [] then [] else [.piece h data]
  | .malformed => [.malformed]

/-- The pieces that a stream consists of. -/
def streamItems (s : List UInt8) : List Item :=
  (decodeStream s).1.map Frame.item ++ (decodeStream s).2.items

/-- The pieces from offset `off` of the payload of a frame on. -/
def payloadItems (h : Header) (off : Nat) (look : List UInt8) : List Item :=
  if look.length < h.length - off then
    if look = [] then [] else [.piece h (h.mask off look)]
  else
    .piece h (h.mask off (look.take (h.length - off))) :: streamItems (look.drop (h.length - off))

/-- The pieces of octets that are not cut. -/
def Dec.items (d : Dec) (look : List UInt8) : List Item :=
  match d with
  | .head => streamItems look
  | .body h off => payloadItems h off look

theorem streamItems_header {h : Header} (hv : h.Valid) (look : List UInt8) :
    streamItems (h.encode ++ look) = payloadItems h 0 look := by
  unfold streamItems payloadItems
  rw [decodeStream_header (parseHeader_encode hv look), Nat.sub_zero]
  by_cases hlt : look.length < h.length
  · rw [if_pos hlt, if_pos hlt]
    simp [Tail.items]
  · rw [if_neg hlt, if_neg hlt]
    have hlen : (h.mask 0 (look.take h.length)).length = h.length := by
      rw [Header.length_mask, List.length_take]
      omega
    simp only [List.map_cons, List.cons_append, Frame.item, Frame.header_ofHeader hlen]
    rfl

theorem streamItems_malformed {s : List UInt8} (hp : parseHeader s = .malformed) :
    streamItems s = [.malformed] := by
  rw [streamItems, decodeStream_malformed hp]
  rfl

/-- The stream of some frames, and what follows them. -/
theorem streamItems_flatMap {fs : List Frame} (hv : ∀ f ∈ fs, f.header.Valid) (s : List UInt8) :
    streamItems (fs.flatMap Frame.encode ++ s) = fs.map Frame.item ++ streamItems s := by
  rw [streamItems, decodeStream_flatMap hv]
  simp [streamItems]

/-- The octets of the header belong to the piece. -/
theorem Dec.items_enters {d : Dec} {hdr : List UInt8} {h : Header} {off : Nat}
    (henter : d.Enters hdr h off) (hv : h.Valid) (look : List UInt8) :
    d.items (hdr ++ look) = payloadItems h off look := by
  rcases henter with ⟨rfl, rfl, rfl⟩ | ⟨rfl, rfl⟩
  · exact streamItems_header hv look
  · rfl

/-- The rest of a payload, and what follows it. -/
theorem payloadItems_done {h : Header} {off : Nat} {raw : List UInt8}
    (hend : off + raw.length = h.length) (look : List UInt8) :
    payloadItems h off (raw ++ look) = .piece h (h.mask off raw) :: streamItems look := by
  have hsub : h.length - off = raw.length := by omega
  have hnot : ¬ (raw ++ look).length < h.length - off := by
    rw [List.length_append]
    omega
  rw [payloadItems, if_neg hnot, hsub, List.take_left' rfl, List.drop_left' rfl]

/-- A part of a payload, and the rest of it. -/
theorem payloadItems_part {h : Header} {off : Nat} {raw look : List UInt8}
    (hlt : off + raw.length < h.length) (hne : look ≠ []) :
    ∃ y rest, y ≠ [] ∧ off + raw.length + y.length ≤ h.length ∧
      payloadItems h (off + raw.length) look = .piece h y :: rest ∧
      payloadItems h off (raw ++ look) = .piece h (h.mask off raw ++ y) :: rest := by
  by_cases hshort : look.length < h.length - (off + raw.length)
  · refine ⟨h.mask (off + raw.length) look, [], by simpa using hne, ?_, ?_, ?_⟩
    · rw [Header.length_mask]
      omega
    · rw [payloadItems, if_pos hshort, if_neg hne]
    · have hshort' : (raw ++ look).length < h.length - off := by
        rw [List.length_append]
        omega
      have hne' : raw ++ look ≠ [] := by simp [hne]
      rw [payloadItems, if_pos hshort', if_neg hne', Header.mask_append]
  · obtain ⟨n, hn⟩ : ∃ n, h.length - (off + raw.length) = n := ⟨_, rfl⟩
    have hle : n ≤ look.length := by omega
    have hsum : h.length - off = raw.length + n := by omega
    refine ⟨h.mask (off + raw.length) (look.take n), streamItems (look.drop n), ?_, ?_, ?_, ?_⟩
    · rw [ne_eq, Header.mask_eq_nil_iff, List.take_eq_nil_iff, not_or]
      exact ⟨by omega, hne⟩
    · rw [Header.length_mask, List.length_take]
      omega
    · rw [payloadItems, if_neg hshort, hn]
    · have hnot : ¬ (raw ++ look).length < h.length - off := by
        rw [List.length_append]
        omega
      rw [payloadItems, if_neg hnot, hsum, List.take_length_add_append, List.drop_length_add_append,
        Header.mask_append]

/-! ## A piece in two parts -/

/-- The text of the message reads on from `x` to `y`. -/
def Draft.Joins (k : Draft) (x y : List UInt8) : Prop :=
  k.scan 2 (x ++ y) = (k.scan 2 x).bind fun text => { k with text := text }.scan 2 y

theorem Draft.joins_of_ne {k : Draft} (h8 : k.opcode ≠ 8) (x y : List UInt8) : k.Joins x y := by
  unfold Draft.Joins Draft.scan
  by_cases h1 : k.opcode = 1
  · simp only [h1, if_true]
    exact Utf8.read_append k.text x y
  · simp only [h1, h8, if_false, Option.bind_some]

/-- What is left of an ASCII text is nothing to wait for. -/
theorem Draft.scan_ascii {k : Draft} (h8 : k.opcode = 8) (htext : k.text = []) {x : List UInt8}
    (hx : ∀ b ∈ x.drop 2, b ≤ 0x7f) : k.scan 2 x = some [] := by
  have h1 : ¬ k.opcode = 1 := by
    rw [h8]
    decide
  rw [Draft.scan, if_neg h1, if_pos h8, htext]
  exact Utf8.read_ascii hx

theorem mem_drop_append_left {x y : List UInt8} {n : Nat} {b : UInt8} (h : b ∈ x.drop n) :
    b ∈ (x ++ y).drop n := by
  rw [List.drop_append]
  exact List.mem_append_left _ h

theorem Draft.joins_ascii {k : Draft} (h8 : k.opcode = 8) (htext : k.text = []) {x y : List UInt8}
    (hx : ∀ b ∈ x.drop 2, b ≤ 0x7f) (hy : ∀ b ∈ y.drop 2, b ≤ 0x7f)
    (hxy : ∀ b ∈ (x ++ y).drop 2, b ≤ 0x7f) : k.Joins x y := by
  unfold Draft.Joins
  rw [Draft.scan_ascii h8 htext hxy, Draft.scan_ascii h8 htext hx, Option.bind_some]
  exact (Draft.scan_ascii (k := { k with text := [] }) h8 rfl hy).symm

/-- In two parts the message is the same. -/
theorem Progress.advance_advance (cfg : RxConfig) (f : Progress) (x y : List UInt8)
    (t t' : List Utf8.Range) :
    (f.advance cfg x t).advance cfg y t' = f.advance cfg (x ++ y) t' := by
  simp only [Progress.advance, List.length_append, Nat.add_assoc]
  split_ifs
  · rw [List.append_assoc]
  · rfl

section

variable {α : Type} {g : Call → List α} {q : Bool} {cfg : RxConfig}

/-- **A piece of a frame, in two parts.** -/
theorem Progress.piece_append (hg : ∀ x y, g (.frameRecvChunk (x ++ y)) =
      g (.frameRecvChunk x) ++ g (.frameRecvChunk y)) {f : Progress} {x y : List UInt8}
    (hlt : f.off + x.length < f.header.length) (hjoin : f.draft.Joins x y)
    (hseen : (∀ x, g (.frameRecvChunk x) = []) ∨ (f.draft.scan 2 (x ++ y)).isSome)
    (waiting : Option Draft) :
    f.piece 2 cfg waiting x = ⟨[], .reject codeInvalidFramePayloadData⟩ ∧
        f.piece 2 cfg waiting (x ++ y) = ⟨[], .reject codeInvalidFramePayloadData⟩ ∨
      ∃ text, f.draft.scan 2 x = some text ∧ f.piece 2 cfg waiting x =
          ⟨[.frameRecvChunk x], .more ⟨waiting, some (f.advance cfg x text)⟩⟩ ∧
        (f.piece 2 cfg waiting (x ++ y)).verdict =
          ((f.advance cfg x text).piece 2 cfg waiting y).verdict ∧
        (f.piece 2 cfg waiting (x ++ y)).calls.flatMap g = g (.frameRecvChunk x) ++
          ((f.advance cfg x text).piece 2 cfg waiting y).calls.flatMap g := by
  unfold Draft.Joins at hjoin
  have hne : ¬ f.off + x.length = f.header.length := by omega
  rcases f.piece_cases 2 cfg waiting x with ⟨hscan, heq⟩ | ⟨text, hscan, ⟨hend, -⟩ | ⟨-, heq⟩⟩
  · rw [hscan, Option.bind_none] at hjoin
    exact Or.inl ⟨heq, by rw [Progress.piece, hjoin]⟩
  · exact absurd hend hne
  · rw [hscan, Option.bind_some] at hjoin
    have hscan' : (f.advance cfg x text).draft.scan 2 y = f.draft.scan 2 (x ++ y) := by
      rw [hjoin]
      rfl
    refine Or.inr ⟨text, hscan, heq, ?_⟩
    rw [Progress.piece, Progress.piece, hscan']
    cases hall : f.draft.scan 2 (x ++ y) with
    | none =>
      have hblind := hseen.resolve_right (by simp [hall])
      exact ⟨rfl, by simp [hblind]⟩
    | some text' =>
      simp only [Progress.advance_advance]
      split_ifs
      · exact ⟨rfl, by simp [hg]⟩
      · exact ⟨rfl, by simp [hg]⟩

/-- Reactions that look alike have reports that do. -/
theorem Reaction.report_alike {R R' : Reaction} (hv : R.verdict = R'.verdict)
    (hc : R.calls.flatMap g = R'.calls.flatMap g) :
    Report.Alike g (R.report q) (R'.report q) := by
  unfold Reaction.report
  rw [hv]
  cases R'.verdict with
  | more rx => exact ⟨hc, rfl, rfl⟩
  | reject code => exact ⟨hc, rfl, rfl⟩
  | overflow => exact ⟨hc, rfl, rfl⟩
  | done opcode msg rx =>
    have hmore : (R.calls ++ [msgCall opcode msg]).flatMap g =
        (R'.calls ++ [msgCall opcode msg]).flatMap g := by
      simp only [List.flatMap_append, hc]
    by_cases h8 : opcode = 8
    · simp only [if_pos h8]
      cases q with
      | true => exact ⟨hmore, rfl, rfl⟩
      | false => exact ⟨hc, rfl, rfl⟩
    · simp only [if_neg h8]
      exact ⟨hmore, rfl, rfl⟩

/-- The calls that a reaction begins with. -/
theorem Reaction.report_append (cs : List Call) (R : Reaction) :
    Reaction.report q ⟨cs ++ R.calls, R.verdict⟩ =
      ⟨cs ++ (R.report q).calls, (R.report q).replies, (R.report q).fate⟩ := by
  unfold Reaction.report
  cases R.verdict with
  | more rx => rfl
  | reject code => rfl
  | overflow => rfl
  | done opcode msg rx =>
    simp only
    split_ifs <;> simp only [List.append_assoc]

/-- A piece of a frame that is in progress. -/
theorem Rx.react_frame (waiting : Option Draft) (f : Progress) (h : Header) (data : List UInt8) :
    Rx.react q cfg ⟨waiting, some f⟩ (.piece h data) = (f.piece 2 cfg waiting data).report q := rfl

/-- **A piece, in two parts.** -/
theorem Rx.react_append (hg : ∀ x y, g (.frameRecvChunk (x ++ y)) =
      g (.frameRecvChunk x) ++ g (.frameRecvChunk y)) {rx : Rx} {h : Header} {x y : List UInt8}
    (hjoin : ∀ calls f waiting, rx.enter cfg h = .ok (calls, f, waiting) →
      f.off + x.length < f.header.length ∧ f.draft.Joins x y ∧
        ((∀ x, g (.frameRecvChunk x) = []) ∨ (f.draft.scan 2 (x ++ y)).isSome)) :
    Report.Alike g (rx.react q cfg (.piece h (x ++ y)))
      ((rx.react q cfg (.piece h x)).andThen fun rx => rx.react q cfg (.piece h y)) := by
  cases he : rx.enter cfg h with
  | error code =>
    have heq : ∀ data, rx.react q cfg (.piece h data) = Reaction.report q ⟨[], .reject code⟩ := by
      intro data
      rw [Rx.react, Rx.piece_error he]
    rw [heq, heq, Report.andThen_off rfl]
    exact .refl g _
  | ok z =>
    obtain ⟨calls, f, waiting⟩ := z
    obtain ⟨hlt, hj, hseen⟩ := hjoin calls f waiting he
    have heq : ∀ data, rx.react q cfg (.piece h data) = Reaction.report q
        ⟨calls ++ (f.piece 2 cfg waiting data).calls, (f.piece 2 cfg waiting data).verdict⟩ := by
      intro data
      rw [Rx.react, Rx.piece_ok he]
    rw [heq, heq]
    rcases Progress.piece_append hg hlt hj hseen waiting with ⟨hx, hxy⟩ | ⟨text, -, hx, hv, hc⟩
    · rw [hx, hxy, Report.andThen_off rfl]
      exact .refl g _
    · rw [hx, Report.andThen_live rfl, Rx.react_frame]
      obtain ⟨G, hG⟩ : ∃ G, (f.advance cfg x text).piece 2 cfg waiting y = G := ⟨_, rfl⟩
      rw [hG] at hv hc ⊢
      have hsame : (calls ++ (f.piece 2 cfg waiting (x ++ y)).calls).flatMap g =
          ((calls ++ [Call.frameRecvChunk x]) ++ G.calls).flatMap g := by
        simp only [List.flatMap_append, hc, List.flatMap_singleton, List.append_assoc]
      have halike : Report.Alike g
          (Reaction.report q ⟨calls ++ (f.piece 2 cfg waiting (x ++ y)).calls,
            (f.piece 2 cfg waiting (x ++ y)).verdict⟩)
          (Reaction.report q ⟨(calls ++ [.frameRecvChunk x]) ++ G.calls, G.verdict⟩) :=
        Reaction.report_alike hv hsame
      have hfront := Reaction.report_append (q := q) (calls ++ [.frameRecvChunk x]) G
      exact hfront ▸ halike

/-! ## Any reading -/

/-- `P` holds of every item at which the receiver still goes on. -/
def Rx.Meets (q : Bool) (cfg : RxConfig) (P : Rx → Item → Prop) : Rx → List Item → Prop
  | _, [] => True
  | rx, i :: is => P rx i ∧ ∀ rx', (rx.react q cfg i).fate = .live rx' → rx'.Meets q cfg P is

/-- Cutting the item is not seen: if it is of a Close that is let in, its reason is
ASCII, and if chunks are seen its text can be read. -/
def Rx.Smooth (g : Call → List α) (cfg : RxConfig) (rx : Rx) : Item → Prop
  | .malformed => True
  | .piece h data => ∀ calls f waiting, rx.enter cfg h = .ok (calls, f, waiting) →
      (f.draft.opcode = 8 → f.draft.text = [] ∧ ∀ b ∈ data.drop (2 - f.off), b ≤ 0x7f) ∧
        ((∀ x, g (.frameRecvChunk x) = []) ∨ (f.draft.scan 2 data).isSome)

theorem mem_drop_of_le {l : List UInt8} {m n : Nat} (hle : m ≤ n) {b : UInt8} (h : b ∈ l.drop n) :
    b ∈ l.drop m := by
  obtain ⟨k, rfl⟩ := Nat.exists_eq_add_of_le hle
  rw [← List.drop_drop] at h
  exact List.mem_of_mem_drop h

theorem mem_drop_append_right {x y : List UInt8} {n : Nat} {b : UInt8}
    (h : b ∈ y.drop (n - x.length)) : b ∈ (x ++ y).drop n := by
  rw [List.drop_append]
  exact List.mem_append_right _ h

theorem Rx.Smooth.joins {rx : Rx} {h : Header} {x y : List UInt8}
    (ha : rx.Smooth g cfg (.piece h (x ++ y))) {calls : List Call} {f : Progress}
    {waiting : Option Draft} (he : rx.enter cfg h = .ok (calls, f, waiting)) :
    f.draft.Joins x y := by
  by_cases h8 : f.draft.opcode = 8
  · obtain ⟨htext, hascii⟩ := (ha calls f waiting he).1 h8
    have hall : ∀ b ∈ (x ++ y).drop 2, b ≤ 0x7f := fun b hb =>
      hascii b (mem_drop_of_le (Nat.sub_le 2 f.off) hb)
    refine Draft.joins_ascii h8 htext (fun b hb => hall b (mem_drop_append_left hb)) ?_ hall
    exact fun b hb => hall b (mem_drop_append_right (mem_drop_of_le (Nat.sub_le 2 x.length) hb))
  · exact Draft.joins_of_ne h8 x y

/-- The rest of a piece after its first part. -/
theorem Rx.Smooth.rest {rx rx' : Rx} {h : Header} {x y : List UInt8}
    (ha : rx.Smooth g cfg (.piece h (x ++ y)))
    (hshort : ∀ calls f waiting, rx.enter cfg h = .ok (calls, f, waiting) →
      f.off + x.length < f.header.length)
    (hlive : (rx.react q cfg (.piece h x)).fate = .live rx') :
    rx'.Smooth g cfg (.piece h y) := by
  cases he : rx.enter cfg h with
  | error code =>
    rw [Rx.react, Rx.piece_error he] at hlive
    cases hlive
  | ok z =>
    obtain ⟨calls, f, waiting⟩ := z
    rw [Rx.react, Rx.piece_ok he] at hlive
    have hlt := hshort calls f waiting he
    have hne : ¬ f.off + x.length = f.header.length := by omega
    rcases f.piece_cases 2 cfg waiting x with ⟨-, heq⟩ | ⟨text, hscan, ⟨hend, -⟩ | ⟨-, heq⟩⟩
    · rw [heq] at hlive
      cases hlive
    · exact absurd hend hne
    · rw [heq] at hlive
      cases hlive
      obtain ⟨hclose, hseen⟩ := ha calls f waiting he
      rintro calls' g' waiting' ⟨⟩
      refine ⟨fun h8 => ?_, hseen.imp_right fun hsome => ?_⟩
      · have h8' : f.draft.opcode = 8 := h8
        obtain ⟨htext, hascii⟩ := hclose h8'
        have hx : ∀ b ∈ x.drop 2, b ≤ 0x7f := fun b hb =>
          hascii b (mem_drop_append_left (mem_drop_of_le (Nat.sub_le 2 f.off) hb))
        refine ⟨?_, fun b hb => hascii b (mem_drop_append_right ?_)⟩
        · rw [Draft.scan_ascii h8' htext hx] at hscan
          exact (Option.some.inj hscan).symm
        · change b ∈ y.drop (2 - (f.off + x.length)) at hb
          rwa [Nat.sub_sub]
      · have hjoin : f.draft.Joins x y := ha.joins he
        rw [Draft.Joins, hscan, Option.bind_some] at hjoin
        rw [hjoin] at hsome
        exact hsome

/-- **Any reading of a stream comes to the same** as the reading without cuts. -/
theorem Reads.cuts (hg : ∀ x y, g (.frameRecvChunk (x ++ y)) =
      g (.frameRecvChunk x) ++ g (.frameRecvChunk y)) {d d' : Dec} {look look' : List UInt8}
    {items : List Item} (h : Reads d look items d' look') {rx : Rx} (hp : rx.Place d)
    (hm : rx.Meets q cfg (Rx.Smooth g cfg) (d.items look)) :
    Report.Alike g (rx.run q cfg (d.items look))
      ((rx.run q cfg items).andThen fun rx => rx.run q cfg (d'.items look')) := by
  induction h generalizing rx with
  | stop d look =>
    have hrun : rx.run q cfg [] = .start rx := rfl
    rw [hrun, Report.start_andThen]
    exact .refl g _
  | malformed hparse =>
    have hitems : Dec.head.items _ = [.malformed] := streamItems_malformed hparse
    rw [hitems]
    have hoff : ((rx.run q cfg [.malformed]).fate) =
        .off none (if q then Err.callbackFailure.code else 1) := rfl
    rw [Report.andThen_off hoff]
    exact .refl g _
  | header hv hpos _ ih =>
    rename_i h look items d' look' _
    have hitems : Dec.head.items (h.encode ++ look) = (Dec.body h 0).items look :=
      streamItems_header hv look
    rw [hitems] at hm ⊢
    refine ih ?_ hm
    unfold Rx.Place at hp ⊢
    cases hf : rx.frame with
    | none => exact Or.inr ⟨h, rfl⟩
    | some g =>
      simp only [hf] at hp
      cases hp
  | piece henter hv hle hempty _ ih =>
    rename_i d hdr raw look h off items d' look' _
    rw [Dec.items_enters henter hv] at hm ⊢
    -- a receiver that goes on after the piece is where the decoder is
    have hplace : ∀ rx', (rx.react q cfg (.piece h (h.mask off raw))).fate = .live rx' →
        rx'.Place (Dec.after h off raw.length) := fun rx' hlive =>
      hp.piece henter hle hempty (Reaction.report_live hlive)
    have hassoc : (rx.run q cfg (.piece h (h.mask off raw) :: items)).andThen
        (fun rx => rx.run q cfg (d'.items look')) =
        (rx.react q cfg (.piece h (h.mask off raw))).andThen fun rx =>
          (rx.run q cfg items).andThen fun rx => rx.run q cfg (d'.items look') :=
      Report.andThen_assoc _ _ _
    rw [hassoc]
    by_cases hwhole : off + raw.length = h.length ∨ look = []
    · -- the next piece, if there is one, is of another frame
      have hitems : payloadItems h off (raw ++ look) =
          .piece h (h.mask off raw) :: (Dec.after h off raw.length).items look := by
        by_cases hend : off + raw.length = h.length
        · rw [payloadItems_done hend, Dec.after, if_pos hend.symm]
          rfl
        · obtain rfl := hwhole.resolve_left hend
          have hraw : raw ≠ [] := fun hnil => hend (by rw [hnil]; exact (hempty hnil).symm)
          have hlt : (raw ++ []).length < h.length - off := by
            rw [List.append_nil]
            omega
          have hlt' : ([] : List UInt8).length < h.length - (off + raw.length) := by
            rw [List.length_nil]
            omega
          have hnil : (Dec.body h (off + raw.length)).items [] = [] := by
            change payloadItems h (off + raw.length) [] = []
            rw [payloadItems, if_pos hlt', if_pos rfl]
          rw [payloadItems, if_pos hlt, if_neg (by simpa using hraw), Dec.after,
            if_neg fun he => hend he.symm, hnil, List.append_nil]
      rw [hitems] at hm ⊢
      exact (Report.Alike.refl g _).andThen fun rx' hlive =>
        ih (hplace rx' hlive) (hm.2 rx' hlive)
    · -- the next piece goes on with the payload
      rw [not_or] at hwhole
      have hlt : off + raw.length < h.length := by omega
      obtain ⟨y, rest, -, -, hy, hxy⟩ := payloadItems_part hlt hwhole.2
      have hafter : (Dec.after h off raw.length).items look = .piece h y :: rest := by
        rw [Dec.after, if_neg fun he => hwhole.1 he.symm]
        exact hy
      rw [hxy] at hm ⊢
      obtain ⟨hsmooth, hrest⟩ := hm
      have hshort : ∀ calls f waiting, rx.enter cfg h = .ok (calls, f, waiting) →
          f.off + (h.mask off raw).length < f.header.length := by
        intro calls f waiting he
        obtain ⟨hh, hoff⟩ := hp.enter henter he
        rw [Header.length_mask, hh, hoff]
        exact hlt
      have happ := Rx.react_append (q := q) hg fun calls f waiting he =>
        ⟨hshort calls f waiting he, hsmooth.joins he, (hsmooth calls f waiting he).2⟩
      have hsplit : Report.Alike g (rx.run q cfg (.piece h (h.mask off raw ++ y) :: rest))
          ((rx.react q cfg (.piece h (h.mask off raw))).andThen fun rx =>
            rx.run q cfg (.piece h y :: rest)) := by
        have hall := happ.andThen fun rx _ => Report.Alike.refl g (rx.run q cfg rest)
        rw [Report.andThen_assoc] at hall
        exact hall
      refine hsplit.trans ((Report.Alike.refl g _).andThen fun rx' hlive => ?_)
      rw [← hafter]
      refine ih (hplace rx' hlive) ?_
      rw [hafter]
      refine ⟨hsmooth.rest hshort hlive, fun rx'' hlive' => hrest rx'' ?_⟩
      have hfate := happ.fate
      rw [Report.andThen_live hlive] at hfate
      exact hfate.trans hlive'

/-! ## Runs -/

/-- Octets that the decoder waits with are no piece. -/
theorem Dec.items_wait {d : Dec} {look : List UInt8} (hd : d.Ok)
    (hp : takePiece d look = .wait d look) : d.items look = [] := by
  cases d with
  | head =>
    have hmore : parseHeader look = .more := by
      unfold takePiece at hp
      cases hparse : parseHeader look with
      | more => rfl
      | malformed => simp [hparse] at hp
      | header h rest =>
        simp only [hparse, takeBody] at hp
        split_ifs at hp
        simp at hp
    change streamItems look = []
    rw [streamItems, decodeStream_more hmore]
    rfl
  | body h off =>
    obtain ⟨-, hlt⟩ := hd
    have hnil : look = [] := by
      simp only [takePiece, takeBody] at hp
      split_ifs at hp with hend hnil
      exact hnil
    have hshort : ([] : List UInt8).length < h.length - off := by
      rw [List.length_nil]
      omega
    rw [hnil]
    change payloadItems h off [] = []
    rw [payloadItems, if_pos hshort, if_pos rfl]

section

variable {s s' : EventContext × Io} {rx : Rx} {d d' : Dec} {look look' new : List UInt8}
  {items : List Item}

/-- What has been read belongs to any stream that begins like this. -/
theorem Trace.more (ht : Trace cfg q s rx d look s' new items d' look')
    (hg : ∀ x y, g (.frameRecvChunk (x ++ y)) = g (.frameRecvChunk x) ++ g (.frameRecvChunk y))
    (hp : rx.Place d) (more : List UInt8)
    (hm : rx.Meets q cfg (Rx.Smooth g cfg) (d.items (look ++ (new ++ more)))) :
    Report.Alike g (rx.run q cfg (d.items (look ++ (new ++ more))))
      ((rx.run q cfg items).andThen fun rx => rx.run q cfg (d'.items (look' ++ more))) := by
  have hreads := ht.reads.extend more
  rw [List.append_assoc] at hreads
  exact hreads.cuts hg hp hm

/-- **A context that waits has done what the octets received so far come to.** -/
theorem Trace.whole (ht : Trace cfg q s rx d look s' new items d' look')
    (hg : ∀ x y, g (.frameRecvChunk (x ++ y)) = g (.frameRecvChunk x) ++ g (.frameRecvChunk y))
    (hp : rx.Place d) (hm : rx.Meets q cfg (Rx.Smooth g cfg) (d.items (look ++ new)))
    (hwait : ∀ rx', (rx.run q cfg items).fate = .live rx' → takePiece d' look' = .wait d' look') :
    Report.Alike g (rx.run q cfg (d.items (look ++ new))) (rx.run q cfg items) := by
  have hall := ht.reads.cuts hg hp hm
  cases hfate : (rx.run q cfg items).fate with
  | off heard r =>
    rw [Report.andThen_off hfate] at hall
    exact hall
  | live rx' =>
    have hnil := Dec.items_wait (ht.listens rx' hfate).1.ready.ok (hwait rx' hfate)
    rw [hnil] at hall
    have hstart : (rx.run q cfg items).andThen (fun rx => rx.run q cfg []) = rx.run q cfg items :=
      Report.andThen_start _
    rw [hstart] at hall
    exact hall

/-- **A run of enough calls does all that the octets come to.** -/
theorem recvRun_finishes (hr : Runs cfg q s rx d look) {n : Nat} (hn : s.2.recvs.length < n) :
    ∃ new items d' look' more, Trace cfg q s rx d look (recvRun s n) new items d' look' ∧
      new ++ more = pendingOctets s.2.recvs ∧
      ((rx.run q cfg items).andThen fun rx => rx.run q cfg (d'.items (look' ++ more))) =
        rx.run q cfg items := by
  obtain ⟨new, items, d', look', ht, hwait⟩ := recvRun_drains hr hn
  refine ⟨new, items, d', look', _, ht, ht.pending.symm, ?_⟩
  cases hfate : (rx.run q cfg items).fate with
  | off heard r => exact Report.andThen_off hfate _
  | live rx' =>
    obtain ⟨hstill, hall⟩ := hwait rx' hfate
    have hnil : pendingOctets (recvRun s n).2.recvs = [] := by
      have hpend := ht.pending
      rw [← hall] at hpend
      simpa using hpend
    rw [hnil, List.append_nil, Dec.items_wait (ht.listens rx' hfate).1.ready.ok hstill]
    exact Report.andThen_start _

end

end

end Wslay
