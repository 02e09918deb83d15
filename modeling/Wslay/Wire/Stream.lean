import Wslay.Wire.Format

/-!
# Streams of frames

The reference decoding of a whole octet stream: the frames it starts with, and
what is left when no further frame is complete.

* `decodeStream` — the reference decoder.
* `decodeStream_encode` — a stream that starts with the encoding of a valid
  frame decodes to that frame and what the rest decodes to.
-/

namespace Wslay

open Octets (Key)

/-- What a stream ends in, after its complete frames. -/
inductive Tail where
  /-- An incomplete header. -/
  | header (look : List UInt8)
  /-- A header, and the part `data` of its payload, unmasked. -/
  | payload (h : Header) (data : List UInt8)
  /-- Something that is not a valid header. -/
  | malformed
  deriving DecidableEq, Repr

theorem parseHeader_rest_lt {bs rest : List UInt8} {h : Header}
    (hp : parseHeader bs = .header h rest) : rest.length < bs.length := by
  obtain ⟨rfl, -⟩ := parseHeader_header hp
  rw [List.length_append, Header.encode, List.cons_append, List.length_cons]
  omega

/-- The frames that a stream consists of, and what it ends in. -/
def decodeStream (s : List UInt8) : List Frame × Tail :=
  match _ : parseHeader s with
  | .more => ([], .header s)
  | .malformed => ([], .malformed)
  | .header h rest =>
    if rest.length < h.length then ([], .payload h (h.mask 0 rest))
    else
      (Frame.ofHeader h (h.mask 0 (rest.take h.length)) :: (decodeStream (rest.drop h.length)).1,
        (decodeStream (rest.drop h.length)).2)
termination_by s.length
decreasing_by
  all_goals
    have := parseHeader_rest_lt ‹_›
    rw [List.length_drop]
    omega

theorem decodeStream_more {s : List UInt8} (hp : parseHeader s = .more) :
    decodeStream s = ([], .header s) := by
  rw [decodeStream]
  split <;> simp_all

theorem decodeStream_malformed {s : List UInt8} (hp : parseHeader s = .malformed) :
    decodeStream s = ([], .malformed) := by
  rw [decodeStream]
  split <;> simp_all

theorem decodeStream_header {s rest : List UInt8} {h : Header}
    (hp : parseHeader s = .header h rest) :
    decodeStream s =
      if rest.length < h.length then ([], .payload h (h.mask 0 rest))
      else
        (Frame.ofHeader h (h.mask 0 (rest.take h.length)) :: (decodeStream (rest.drop h.length)).1,
          (decodeStream (rest.drop h.length)).2) := by
  rw [decodeStream]
  split
  · simp_all
  · simp_all
  · next h' rest' hp' =>
    rw [hp] at hp'
    cases hp'
    rfl

/-- **The first frame of a stream, and the rest.** -/
theorem decodeStream_encode {f : Frame} (hv : f.header.Valid) (s : List UInt8) :
    decodeStream (f.encode ++ s) = (f :: (decodeStream s).1, (decodeStream s).2) := by
  have hlen : (f.header.mask 0 f.payload).length = f.header.length := by simp
  have hp : parseHeader (f.encode ++ s) = .header f.header (f.header.mask 0 f.payload ++ s) := by
    rw [Frame.encode, List.append_assoc]
    exact parseHeader_encode hv _
  have hnot : ¬ (f.header.mask 0 f.payload ++ s).length < f.header.length := by
    rw [List.length_append]
    omega
  rw [decodeStream_header hp, if_neg hnot, List.take_left' hlen, List.drop_left' hlen,
    Header.mask_mask]
  rfl

/-- A stream of complete frames, and what follows them. -/
theorem decodeStream_flatMap {fs : List Frame} (hv : ∀ f ∈ fs, f.header.Valid) (s : List UInt8) :
    decodeStream (fs.flatMap Frame.encode ++ s) = (fs ++ (decodeStream s).1, (decodeStream s).2) := by
  induction fs with
  | nil => rfl
  | cons f fs ih =>
    rw [List.flatMap_cons, List.append_assoc, decodeStream_encode (hv f (List.mem_cons_self ..)),
      ih fun g hg => hv g (List.mem_cons_of_mem _ hg)]
    rfl

/-- The frames of a stream are valid. -/
theorem decodeStream_valid (s : List UInt8) : ∀ f ∈ (decodeStream s).1, f.header.Valid := by
  induction s using decodeStream.induct with
  | case1 s hp =>
    rw [decodeStream_more hp]
    intro f hf
    cases hf
  | case2 s hp =>
    rw [decodeStream_malformed hp]
    intro f hf
    cases hf
  | case3 s h rest hp hshort =>
    rw [decodeStream_header hp, if_pos hshort]
    intro f hf
    cases hf
  | case4 s h rest hp hlong ih =>
    rw [decodeStream_header hp, if_neg hlong]
    intro f hf
    rcases List.mem_cons.1 hf with rfl | hf
    · have hlen : (h.mask 0 (rest.take h.length)).length = h.length := by
        rw [Header.length_mask, List.length_take]
        omega
      rw [Frame.header_ofHeader hlen]
      exact (parseHeader_header hp).2
    · exact ih f hf

end Wslay
