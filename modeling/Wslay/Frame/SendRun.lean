import Wslay.Frame.RoundTrip

/-!
# Runs of `wslay_frame_send`

The caller of `wslay_frame_send`, at its most liberal.  It has frames to send,
all masked or none, and hands the payload over in any pieces: it may offer any
front of what it has not been told of yet, again and again, whatever the call
before has returned.

* `Caller` — the caller, with the context and the world it calls into.
* `Caller.Stands` — the invariant: how far the frame in progress has got.
* `calls_encode` — what is on the wire is a prefix of the encodings, and the
  lengths that the caller has been told are those of the payload sent.
* `sentFrame_received_iff` — when the decoder takes what the encoder has sent.
-/

namespace Wslay

open Octets (Key)

/-! ## The caller -/

/-- The control block of a call that offers `k` octets, or what is left, of the
payload of `f` from `off` on. -/
def pieceIocb (f : Frame) (off k : Nat) : Iocb :=
  { frameIocb f off with data := (f.payload.drop off).take k }

/-- The caller of `wslay_frame_send`. -/
structure Caller where
  /-- The frames that have not been sent completely. -/
  todo : List Frame
  /-- As much of the payload of the first of them has been reported as sent. -/
  off : Nat
  /-- The sum of the lengths reported. -/
  reported : Nat
  ctx : FrameContext
  io : Io

namespace Caller

/-- The caller after a call for the frame `f`, with the frames `fs` behind it. -/
def told (s : Caller) (f : Frame) (fs : List Frame) (r : Except Err Nat × FrameContext × Io) :
    Caller :=
  match r with
  | (.ok n, c, io) =>
    if s.off + n = f.payload.length then ⟨fs, 0, s.reported + n, c, io⟩
    else ⟨f :: fs, s.off + n, s.reported + n, c, io⟩
  | (.error _, c, io) => ⟨f :: fs, s.off, s.reported, c, io⟩

/-- A call that offers `k` octets of payload. -/
def call (s : Caller) (k : Nat) : Caller :=
  match s.todo with
  | [] => s
  | f :: fs => s.told f fs (frameSend s.ctx (pieceIocb f s.off k) s.io)

theorem call_nil {s : Caller} (h : s.todo = []) (k : Nat) : s.call k = s := by
  rw [call, h]

theorem call_cons {s : Caller} {f : Frame} {fs : List Frame} (h : s.todo = f :: fs) (k : Nat) :
    s.call k = s.told f fs (frameSend s.ctx (pieceIocb f s.off k) s.io) := by
  rw [call, h]

/-- Some calls. -/
def calls (s : Caller) (ks : List Nat) : Caller := ks.foldl call s

end Caller

/-- A caller with a fresh context. -/
def callerNew (fs : List Frame) (io : Io) : Caller := ⟨fs, 0, 0, .new, io⟩

/-- The frame fits the format, but for `fin`, which the encoder does not look at. -/
def Frame.Fits (f : Frame) : Prop :=
  f.payload.length < 2 ^ 63 ∧ (f.header.isCtrl = true → f.payload.length ≤ 125)

instance (f : Frame) : Decidable f.Fits := by unfold Frame.Fits; infer_instance

/-- The octets of payload of some frames, counted. -/
def payloadOctets (fs : List Frame) : Nat := (fs.map fun f => f.payload.length).sum

/-! ## The invariant -/

/-- Every frame fits, and is masked if and only if the others are. -/
def Uniform (mask : Bool) (fs : List Frame) : Prop := ∀ f ∈ fs, f.Fits ∧ f.key.isSome = mask

namespace Caller

/-- Where a caller stands that has sent the frames `finished`, from a world with
`base` on the wire: between two frames, or with `sent` of the frame in progress
on the wire.  The keys `rest` are those that `genmask_callback` has to give
after those of the frames. -/
inductive Stands (mask : Bool) (base : List UInt8) (rest : List Key) (finished : List Frame)
    (s : Caller) : Prop where
  | between : EncView s.ctx .idle → (mask = false → s.ctx.effKey = none) → s.off = 0 →
      s.io.wire = base ++ finished.flatMap Frame.encode →
      s.reported = payloadOctets finished →
      s.io.masks.filterMap id = s.todo.filterMap Frame.key ++ rest → Stands mask base rest finished s
  | within (f : Frame) (fs : List Frame) (m : Nat) : s.todo = f :: fs → m < f.encode.length →
      EncView s.ctx (.busy f.payload.length (f.header.encode.drop m) s.off) →
      s.ctx.effKey = f.key → s.off = m - f.header.encode.length →
      s.io.wire = base ++ finished.flatMap Frame.encode ++ f.encode.take m →
      s.reported = payloadOctets finished + s.off →
      s.io.masks.filterMap id = fs.filterMap Frame.key ++ rest → Stands mask base rest finished s

end Caller

theorem length_encode_frame (f : Frame) :
    f.encode.length = f.header.encode.length + f.payload.length := by
  rw [Frame.encode, List.length_append, Header.length_mask]

/-- The end of an encoding, from the octet `m` on. -/
theorem drop_encode (f : Frame) (m : Nat) :
    f.encode.drop m = f.header.encode.drop m ++
      maskWith f.key (m - f.header.encode.length) (f.payload.drop (m - f.header.encode.length)) := by
  have hkey : f.header.mask 0 f.payload = maskWith f.key 0 f.payload := rfl
  rw [Frame.encode, List.drop_append, hkey, maskWith_drop, Nat.zero_add]

/-- What a call can put on the wire is the front of what is left of the frame. -/
theorem take_owed (f : Frame) {m k n : Nat}
    (hn : n ≤ (f.header.encode.drop m).length +
      ((f.payload.drop (m - f.header.encode.length)).take k).length) :
    (f.header.encode.drop m ++ maskWith f.key (m - f.header.encode.length)
      ((f.payload.drop (m - f.header.encode.length)).take k)).take n =
    (f.encode.drop m).take n := by
  have htake : ((f.payload.drop (m - f.header.encode.length)).take k).take
      (n - (f.header.encode.drop m).length) =
      (f.payload.drop (m - f.header.encode.length)).take (n - (f.header.encode.drop m).length) := by
    rw [List.length_take] at hn
    rw [List.take_take, List.take_eq_take_iff]
    omega
  rw [drop_encode, List.take_append, List.take_append, maskWith_take, maskWith_take, htake]

/-- **A call for a frame in progress**, or for one that has just been begun. -/
theorem Caller.Stands.told {mask : Bool} {base : List UInt8} {rest : List Key}
    {finished fs : List Frame} {f : Frame} {s : Caller} {c : FrameContext} {io : Io} {m n k : Nat}
    {r : Except Err Nat × FrameContext × Io} (hmask : f.key.isSome = mask)
    (he : Emits c io f.payload.length (f.header.encode.drop m) s.off (pieceIocb f s.off k).data r n)
    (hob : io.Obeys) (hlt : m < f.encode.length) (hkey : c.effKey = f.key)
    (hoff : s.off = m - f.header.encode.length)
    (hwire : io.wire = base ++ finished.flatMap Frame.encode ++ f.encode.take m)
    (hrep : s.reported = payloadOctets finished + s.off)
    (hm : io.masks.filterMap id = fs.filterMap Frame.key ++ rest) :
    ((s.told f fs r).todo = fs ∧ (s.told f fs r).Stands mask base rest (finished ++ [f]) ∨
      (s.told f fs r).todo = f :: fs ∧ (s.told f fs r).Stands mask base rest finished) ∧
      (s.told f fs r).io.Obeys := by
  obtain ⟨r₁, c₁, io₁⟩ := r
  have hres := he.result.resolve_left fun hbad => he.obeys hob hbad.1
  have hle := he.le
  have hview := he.view
  have ht := he.transmits
  have hkey₁ := he.key.trans hkey
  have hdata : (pieceIocb f s.off k).data = (f.payload.drop s.off).take k := rfl
  rw [hdata] at hle hres ht
  rw [hkey, hoff, take_owed f (by rw [← hoff]; exact hle)] at ht
  simp only at hres hview ht hkey₁
  have hob₁ := ht.obeys hob
  have hm₁ : io₁.masks.filterMap id = fs.filterMap Frame.key ++ rest := by rw [ht.masks, hm]
  have hwire₁ : io₁.wire = base ++ finished.flatMap Frame.encode ++ f.encode.take (m + n) := by
    rw [ht.wire, hwire, List.take_add, List.append_assoc]
  rw [length_encode_frame] at hlt
  have hhead : (f.header.encode.drop m).length = f.header.encode.length - m := List.length_drop
  have hlen : ((f.payload.drop s.off).take k).length = min k (f.payload.length - s.off) := by
    rw [List.length_take, List.length_drop]
  rw [hlen] at hle
  by_cases hblock : n < (f.header.encode.drop m).length ∨
      n = (f.header.encode.drop m).length ∧ (f.payload.drop s.off).take k ≠ []
  · -- no octet of payload has been sent
    have hn : n ≤ (f.header.encode.drop m).length ∧ (n < (f.header.encode.drop m).length ∨
        s.off < f.payload.length) := by
      rcases hblock with h | ⟨h, hne⟩
      · exact ⟨Nat.le_of_lt h, Or.inl h⟩
      · have hpos := List.length_pos_of_ne_nil hne
        exact ⟨Nat.le_of_eq h, Or.inr (by omega)⟩
    have hafter : Enc.after f.payload.length (f.header.encode.drop m) s.off n =
        .busy f.payload.length (f.header.encode.drop (m + n)) s.off := by
      unfold Enc.after
      by_cases h : n < (f.header.encode.drop m).length
      · rw [if_pos h, List.drop_drop]
      · have hnil : f.header.encode.drop (m + n) = [] := List.drop_eq_nil_of_le (by omega)
        have hzero : n - (f.header.encode.drop m).length = 0 := by omega
        rw [if_neg h, hzero, Nat.add_zero, if_neg (by omega), hnil]
    rw [if_pos hblock] at hres
    subst hres
    rw [hafter] at hview
    refine ⟨Or.inr ⟨rfl, ?_⟩, hob₁⟩
    exact .within f fs (m + n) rfl (by rw [length_encode_frame]; omega) hview hkey₁
      (show s.off = _ by omega) hwire₁ hrep hm₁
  · -- the header has been sent, and all that can be said is about the payload
    rw [if_neg hblock] at hres
    subst hres
    obtain ⟨j, rfl⟩ : ∃ j, n = (f.header.encode.drop m).length + j :=
      ⟨n - (f.header.encode.drop m).length, by omega⟩
    have hj : (f.header.encode.drop m).length + j - (f.header.encode.drop m).length = j := by omega
    rw [hj]
    by_cases hend : s.off + j = f.payload.length
    · have hafter : Enc.after f.payload.length (f.header.encode.drop m) s.off
          ((f.header.encode.drop m).length + j) = .idle := by
        rw [Enc.after, if_neg (by omega), if_pos (by omega)]
      have hall : f.encode.take (m + ((f.header.encode.drop m).length + j)) = f.encode :=
        List.take_of_length_le (by rw [length_encode_frame]; omega)
      rw [hafter] at hview
      rw [hall] at hwire₁
      have htold : s.told f fs (.ok j, c₁, io₁) = ⟨fs, 0, s.reported + j, c₁, io₁⟩ := if_pos hend
      rw [htold]
      refine ⟨Or.inl ⟨rfl, .between hview ?_ rfl ?_ ?_ hm₁⟩, hob₁⟩
      · intro hno
        rw [hno, Option.isSome_eq_false_iff, Option.isNone_iff_eq_none] at hmask
        rw [← hmask]
        exact hkey₁
      · rw [List.flatMap_append, List.flatMap_singleton, ← List.append_assoc]
        exact hwire₁
      · simp only [payloadOctets, List.map_append, List.sum_append, List.map_cons, List.map_nil,
          List.sum_singleton] at hrep ⊢
        omega
    · have hafter : Enc.after f.payload.length (f.header.encode.drop m) s.off
          ((f.header.encode.drop m).length + j) = .busy f.payload.length (f.header.encode.drop
            (m + ((f.header.encode.drop m).length + j))) (s.off + j) := by
        rw [Enc.after, if_neg (by omega), if_neg (by omega), hj, List.drop_eq_nil_of_le (by omega)]
      rw [hafter] at hview
      have htold : s.told f fs (.ok j, c₁, io₁) =
          ⟨f :: fs, s.off + j, s.reported + j, c₁, io₁⟩ := if_neg hend
      rw [htold]
      refine ⟨Or.inr ⟨rfl, ?_⟩, hob₁⟩
      exact .within f fs _ rfl (by rw [length_encode_frame]; omega) hview hkey₁
        (show s.off + j = _ by omega) hwire₁ (by simp only; omega) hm₁

/-- A frame gets its key from `genmask_callback`. -/
theorem keyFor_frame {f : Frame} {fs : List Frame} {rest : List Key} {io : Io}
    (hm : io.masks.filterMap id = (f :: fs).filterMap Frame.key ++ rest)
    (hsome : (io.keyFor f.key.isSome).1.isSome = f.key.isSome) :
    ∃ io₁, io.keyFor f.key.isSome = (f.key, io₁) ∧ io₁.wire = io.wire ∧ io₁.sends = io.sends ∧
      io₁.masks.filterMap id = fs.filterMap Frame.key ++ rest := by
  unfold Io.keyFor at hsome ⊢
  cases hk : f.key with
  | none =>
    rw [List.filterMap_cons_none hk] at hm
    exact ⟨io, rfl, rfl, rfl, hm⟩
  | some key =>
    rw [List.filterMap_cons_some hk] at hm
    rw [hk, Option.isSome_some, if_pos rfl] at hsome
    rw [Option.isSome_some, if_pos rfl]
    unfold Io.genmaskCallback at hsome ⊢
    cases hms : io.masks with
    | nil =>
      rw [hms] at hm
      cases hm
    | cons k ms =>
      rw [hms] at hm hsome
      obtain ⟨k', rfl⟩ := Option.isSome_iff_exists.1 hsome
      have hcons : (some k' :: ms).filterMap id = k' :: ms.filterMap id := rfl
      rw [hcons, List.cons_append, List.cons.injEq] at hm
      obtain ⟨rfl, hm⟩ := hm
      exact ⟨_, rfl, rfl, rfl, hm⟩

theorem Frame.Fits.sendable {f : Frame} (hf : f.Fits) (off k : Nat) :
    (pieceIocb f off k).Sendable := by
  refine ⟨hf.1, fun hc => hf.2 ?_⟩
  have h := isCtrlFrame_ofNat f.opcode
  rw [show isCtrlFrame (UInt8.ofNat f.opcode.val) = true from hc] at h
  exact h.symm

theorem length_pieceIocb (f : Frame) (off k : Nat) :
    (pieceIocb f off k).data.length ≤ (pieceIocb f off k).payloadLength ∧
      (off ≤ f.payload.length → off + (pieceIocb f off k).data.length ≤ f.payload.length) := by
  simp only [pieceIocb, frameIocb, List.length_take, List.length_drop]
  omega

/-- **One call keeps the invariant.** -/
theorem Caller.Stands.call {mask : Bool} {base : List UInt8} {rest : List Key}
    {finished : List Frame} {s : Caller} (hs : s.Stands mask base rest finished)
    (hu : Uniform mask s.todo) (hob : s.io.Obeys) (k : Nat) :
    ∃ finished', finished' ++ (s.call k).todo = finished ++ s.todo ∧
      (s.call k).Stands mask base rest finished' ∧ Uniform mask (s.call k).todo ∧
      (s.call k).io.Obeys := by
  -- what `Stands.told` leaves to do
  have hthen : ∀ {f : Frame} {fs : List Frame} {s' : Caller}, s.todo = f :: fs →
      (s'.todo = fs ∧ s'.Stands mask base rest (finished ++ [f]) ∨
        s'.todo = f :: fs ∧ s'.Stands mask base rest finished) ∧ s'.io.Obeys →
      ∃ finished', finished' ++ s'.todo = finished ++ s.todo ∧
        s'.Stands mask base rest finished' ∧ Uniform mask s'.todo ∧ s'.io.Obeys := by
    rintro f fs s' htodo ⟨⟨hrest, hs'⟩ | ⟨hrest, hs'⟩, hob'⟩
    · refine ⟨finished ++ [f], by rw [hrest, htodo, List.append_assoc]; rfl, hs', ?_, hob'⟩
      intro g hg
      exact hu g (by rw [htodo]; exact List.mem_cons_of_mem _ (hrest ▸ hg))
    · exact ⟨finished, by rw [hrest, htodo], hs', by rw [hrest, ← htodo]; exact hu, hob'⟩
  cases hs with
  | within f fs m htodo hlt hview hkey hoff hwire hrep hm =>
    rw [Caller.call_cons htodo]
    obtain ⟨hle, hdata⟩ := length_pieceIocb f s.off k
    rw [length_encode_frame] at hlt
    obtain ⟨n, he⟩ := frameSend_busy hview hle (hdata (by omega)) s.io
    exact hthen htodo (Caller.Stands.told (hu f (by simp [htodo])).2 he hob
      (by rw [length_encode_frame]; omega) hkey hoff hwire hrep hm)
  | between hview hstale hoff hwire hrep hm =>
    cases htodo : s.todo with
    | nil =>
      rw [Caller.call_nil htodo]
      exact ⟨finished, by rw [htodo], .between hview hstale hoff hwire hrep hm, hu, hob⟩
    | cons f fs =>
      obtain ⟨hfits, hmask⟩ := hu f (by simp [htodo])
      obtain ⟨hle, -⟩ := length_pieceIocb f s.off k
      rw [Caller.call_cons htodo, ← htodo]
      rw [htodo] at hm
      rcases frameSend_idle hview hle s.io with
        ⟨hno, -⟩ | ⟨-, ⟨-, ⟨hmasked, hgen⟩, heq⟩ | ⟨hsome, n, he⟩⟩
      · exact absurd (hfits.sendable s.off k) hno
      · -- there is no key for the frame yet
        rw [heq]
        have hkey : s.io.keyFor (pieceIocb f s.off k).mask = s.io.genmaskCallback := by
          rw [Io.keyFor, if_pos hmasked]
        obtain ⟨ms, hms⟩ : ∃ ms, s.io.masks = none :: ms := by
          unfold Io.genmaskCallback at hgen
          cases h : s.io.masks with
          | nil =>
            rw [h] at hgen
            cases hgen
          | cons x ms =>
            rw [h] at hgen
            exact ⟨ms, congrArg (· :: ms) hgen⟩
        have hio : s.io.genmaskCallback.2 = { s.io with masks := ms } := by
          rw [Io.genmaskCallback, hms]
        rw [hkey, hio]
        rw [hms, List.filterMap_cons_none rfl] at hm
        refine ⟨finished, by rw [htodo]; rfl, ?_, show Uniform mask (f :: fs) from htodo ▸ hu, hob⟩
        exact .between hview hstale hoff hwire hrep hm
      · -- the frame begins
        obtain ⟨io₁, hk, hwire₁, hsends₁, hm₁⟩ := keyFor_frame hm hsome
        have hk' : s.io.keyFor (pieceIocb f s.off k).mask = (f.key, io₁) := hk
        have hheader : (pieceIocb f s.off k).header f.key = f.header := header_frameIocb f s.off
        rw [hk', hheader, ← hoff] at he
        have hkey : (s.ctx.prepared (pieceIocb f s.off k) f.key).effKey = f.key := by
          rw [FrameContext.effKey_prepared]
          by_cases hf : f.key.isSome = true
          · rw [if_pos hf]
          · rw [if_neg hf, hstale (by rw [← hmask]; simpa using hf)]
            exact (Option.not_isSome_iff_eq_none.1 hf).symm
        refine hthen htodo (@Caller.Stands.told mask base rest finished fs f s _ io₁ 0 n k _ hmask
          he (by rw [Io.Obeys, hsends₁]; exact hob) ?_ hkey ?_ ?_ ?_ hm₁)
        · rw [length_encode_frame, Header.encode, List.cons_append, List.length_cons]
          omega
        · omega
        · rw [List.take_zero, List.append_nil, hwire₁, hwire]
        · rw [hoff, hrep, Nat.add_zero]

/-! ## Runs -/

theorem Caller.Stands.calls {mask : Bool} {base : List UInt8} {rest : List Key}
    {finished : List Frame} {s : Caller} (hs : s.Stands mask base rest finished)
    (hu : Uniform mask s.todo) (hob : s.io.Obeys) (ks : List Nat) :
    ∃ finished', finished' ++ (s.calls ks).todo = finished ++ s.todo ∧
      (s.calls ks).Stands mask base rest finished' := by
  induction ks generalizing s finished with
  | nil => exact ⟨finished, rfl, hs⟩
  | cons k ks ih =>
    obtain ⟨finished₁, hsplit₁, hs₁, hu₁, hob₁⟩ := hs.call hu hob k
    obtain ⟨finished₂, hsplit₂, hs₂⟩ := ih hs₁ hu₁ hob₁
    exact ⟨finished₂, hsplit₂.trans hsplit₁, hs₂⟩

theorem callerNew_stands {mask : Bool} {fs : List Frame} {io : Io} {rest : List Key}
    (hm : io.masks.filterMap id = fs.filterMap Frame.key ++ rest) :
    (callerNew fs io).Stands mask io.wire rest [] :=
  .between (.idle rfl) (fun _ => rfl) rfl (by simp [callerNew]) rfl hm

/-- **`wslay_frame_send` emits exactly the encodings**, whatever pieces the
payload is handed over in and whatever `send_callback` takes of each.  At every
moment some of the frames, `finished`, have been sent.  Either the context is
between two frames, or the frame at hand has been begun and `sent`, less than
its encoding, has been accepted of it.  The lengths reported are those of the
payload that has been accepted, and of the keys that `genmask_callback` has to
give those of the frames begun, and no others, have been used up. -/
theorem calls_encode {mask : Bool} {fs : List Frame} (hu : Uniform mask fs) {io : Io}
    (hob : io.Obeys) {rest : List Key}
    (hm : io.masks.filterMap id = fs.filterMap Frame.key ++ rest) (ks : List Nat) :
    ((callerNew fs io).calls ks).io.wire <+: io.wire ++ fs.flatMap Frame.encode ∧
    ∃ finished sent, fs = finished ++ ((callerNew fs io).calls ks).todo ∧
      ((callerNew fs io).calls ks).io.wire = io.wire ++ (finished.flatMap Frame.encode ++ sent) ∧
      ((callerNew fs io).calls ks).reported =
        payloadOctets finished + ((callerNew fs io).calls ks).off ∧
      (((callerNew fs io).calls ks).ctx.ostate = .prepHeader ∧ sent = [] ∧
          ((callerNew fs io).calls ks).off = 0 ∧
          ((callerNew fs io).calls ks).io.masks.filterMap id =
            ((callerNew fs io).calls ks).todo.filterMap Frame.key ++ rest ∨
        ((callerNew fs io).calls ks).ctx.ostate ≠ .prepHeader ∧
          ∃ f fs', ((callerNew fs io).calls ks).todo = f :: fs' ∧ sent <+: f.encode ∧
            sent.length < f.encode.length ∧
            ((callerNew fs io).calls ks).off = sent.length - f.header.encode.length ∧
            ((callerNew fs io).calls ks).io.masks.filterMap id =
              fs'.filterMap Frame.key ++ rest) := by
  obtain ⟨finished, hsplit, hs⟩ := (@callerNew_stands mask fs io rest hm).calls hu hob ks
  have htodo : finished ++ ((callerNew fs io).calls ks).todo = fs := hsplit
  generalize (callerNew fs io).calls ks = s at hs htodo ⊢
  cases hs with
  | between hview _ hoff hwire hrep hm' =>
    have hstate : s.ctx.ostate = .prepHeader := by
      cases hview with
      | idle h => exact h
    refine ⟨?_, finished, [], htodo.symm, by rw [hwire, List.append_nil], by rw [hrep, hoff]; rfl,
      Or.inl ⟨hstate, rfl, hoff, hm'⟩⟩
    rw [hwire, ← htodo, List.flatMap_append, ← List.append_assoc]
    exact List.prefix_append _ _
  | within f fs' m hcons hlt hview _ hoff hwire hrep hm' =>
    have hlen : (f.encode.take m).length = m := by
      rw [List.length_take]
      omega
    refine ⟨?_, finished, f.encode.take m, htodo.symm, by rw [hwire, List.append_assoc], hrep,
      Or.inr ⟨hview.ostate_ne, f, fs', hcons, List.take_prefix m _, by rw [hlen]; exact hlt,
        by rw [hlen]; exact hoff, hm'⟩⟩
    rw [hwire, ← htodo, hcons, List.flatMap_append, List.flatMap_cons, ← List.append_assoc,
      ← List.append_assoc]
    exact (List.prefix_append_right_inj _).2 (List.take_prefix m _) |>.trans
      (List.prefix_append _ _)

/-- Two masked frames, the first of them with three octets of payload. -/
def pieceFrames : List Frame :=
  [⟨true, 0, 1, some ⟨1, 2, 3, 4⟩, [7, 8, 9]⟩, ⟨false, 0, 9, some ⟨5, 6, 7, 8⟩, []⟩]

/-- A world that takes them in small portions, and has no key at the first time of asking. -/
def pieceIo : Io where
  masks := none :: keysOf pieceFrames
  sends := [.accept 4, .fail (some 7), .accept 2, .accept 1, .accept 0, .accept 2, .accept 3,
    .accept 3]

theorem calls_encode_pieceFrames :
    ((callerNew pieceFrames pieceIo).calls [3, 3, 2, 2, 1, 0, 2, 5, 0]).io.wire <+:
        pieceIo.wire ++ pieceFrames.flatMap Frame.encode ∧
      ((callerNew pieceFrames pieceIo).calls [3, 3, 2, 2, 1, 0, 2, 5, 0]).io.wire =
        [129, 131, 1, 2, 3, 4, 6, 10, 10, 9, 128, 5] := by
  have hu : Uniform true pieceFrames := by
    unfold Uniform
    decide
  have hob : pieceIo.Obeys := by
    intro r hr n h
    subst h
    simp [pieceIo] at hr
  exact ⟨(calls_encode hu hob (show pieceIo.masks.filterMap id =
    pieceFrames.filterMap Frame.key ++ [] from rfl) [3, 3, 2, 2, 1, 0, 2, 5, 0]).1,
    by decide +kernel⟩

/-! ## What the decoder takes -/

theorem Frame.fits_of_sendable {f : Frame} {off k : Nat} (hs : (pieceIocb f off k).Sendable) :
    f.Fits := by
  refine ⟨hs.1, fun hc => hs.2 ?_⟩
  have h := isCtrlFrame_ofNat f.opcode
  rw [show decide (8 ≤ f.opcode.val) = true from hc] at h
  exact h

/-- A frame that does not fit is refused for good. -/
theorem calls_unfit {f : Frame} (hf : ¬ f.Fits) (io : Io) (ks : List Nat) :
    (callerNew [f] io).calls ks = callerNew [f] io := by
  induction ks with
  | nil => rfl
  | cons k ks ih =>
    have hcall : (callerNew [f] io).call k = callerNew [f] io := by
      have hle := (length_pieceIocb f 0 k).1
      rw [Caller.call_cons rfl]
      rcases frameSend_idle (show EncView FrameContext.new .idle from .idle rfl) hle io with
        ⟨-, heq⟩ | ⟨hs, -⟩
      · exact congrArg (Caller.told (callerNew [f] io) f []) heq
      · exact absurd (Frame.fits_of_sendable hs) hf
    rw [show (callerNew [f] io).calls (k :: ks) = ((callerNew [f] io).call k).calls ks from rfl,
      hcall, ih]

/-- The decoder rejects a fragment of a control frame. -/
theorem parseHeader_ctrlFragment {f : Frame} (hf : f.Fits) (hc : f.header.isCtrl = true)
    (hfin : f.fin = false) (rest : List UInt8) : parseHeader (f.encode ++ rest) = .malformed := by
  have hlen : f.header.length ≤ 125 := hf.2 hc
  have hbad : badCtrl { f.header with key := none, length := f.header.length } = true := by
    have hctrl : Header.isCtrl { f.header with key := none, length := f.header.length } = true := hc
    have hfin' : f.header.fin = false := hfin
    rw [badCtrl, hctrl, hfin']
    rfl
  rw [Frame.encode, Header.encode, Header.lengthOctets, if_pos (by omega)]
  simp only [List.cons_append, List.nil_append, parseHeader,
    firstOctets_encode f.header (show f.header.length < 128 by omega), hbad, if_true]

theorem mem_answers {rs : List (Except Err Iocb)} {e : Err} (he : e ≠ .wantRead) :
    .error e ∈ answers rs ↔ .error e ∈ rs := by
  rw [answers, List.mem_filter, and_iff_left_iff_imp]
  intro _
  cases e <;> first | exact absurd rfl he | rfl

/-- **What the encoder has sent the decoder takes**, with the exact condition.
A frame that has been sent whole from a fresh context, in whatever pieces, is
received, and not rejected, if and only if it is not a fragment of a control
frame.  The encoder looks at the length of a control frame and not at `fin`. -/
theorem sentFrame_received_iff {f : Frame} {io : Io} (hob : io.Obeys) {rest : List Key}
    (hm : io.masks.filterMap id = f.key.toList ++ rest) {ks : List Nat}
    (hsent : ((callerNew [f] io).calls ks).todo = []) {ioR : Io}
    (hr : ((callerNew [f] io).calls ks).io.wire = io.wire ++ pendingOctets ioR.recvs) {n : Nat}
    (hn : (pendingOctets ioR.recvs).length + ioR.recvs.length < n) :
    reassemble [] (piecesOf (frameRecvs n FrameContext.new ioR).1) = [f.seen] ∧
        .error .proto ∉ (frameRecvs n FrameContext.new ioR).1 ↔
      (f.header.isCtrl = true → f.fin = true) := by
  have hfits : f.Fits := by
    by_contra h
    rw [calls_unfit h] at hsent
    cases hsent
  have hu : Uniform f.key.isSome [f] := by
    intro g hg
    rw [List.mem_singleton.1 hg]
    exact ⟨hfits, rfl⟩
  have hm' : io.masks.filterMap id = [f].filterMap Frame.key ++ rest := by
    rw [hm]
    cases hk : f.key <;> simp [hk]
  -- the octets sent are the encoding
  have hwire : pendingOctets ioR.recvs = f.encode := by
    obtain ⟨-, finished, sent, hsplit, hwire, -, hstate⟩ := calls_encode hu hob hm' ks
    rw [hsent, List.append_nil] at hsplit
    rw [hr, List.append_cancel_left_eq] at hwire
    rcases hstate with ⟨-, rfl, -⟩ | ⟨-, g, gs, hcons, -⟩
    · rw [hwire, ← hsplit]
      simp
    · rw [hsent] at hcons
      cases hcons
  obtain ⟨⟨as, hshow, -, hall⟩, -⟩ := frameRecvs_decode ioR
  have has := hall n hn
  rw [← piecesOf_answers, ← mem_answers (show Err.proto ≠ .wantRead by decide), has]
  rw [hwire] at hshow
  constructor
  · rintro ⟨-, hno⟩ hc
    by_contra hfin
    have hbad := parseHeader_ctrlFragment hfits hc (by simpa using hfin) []
    rw [List.append_nil] at hbad
    rw [decodeStream_malformed hbad] at hshow
    obtain ⟨gs, g, es, rfl, -, -, rfl⟩ := hshow
    exact hno (by simp)
  · intro hfin
    have hv : f.header.Valid := ⟨hfits.1, fun hc => ⟨hfin hc, hfits.2 hc⟩⟩
    have hdec := decodeStream_encode hv []
    rw [List.append_nil, show decodeStream [] = ([], .header []) from decodeStream_more rfl] at hdec
    rw [hdec] at hshow
    refine ⟨reassemble_shows hshow, ?_⟩
    obtain ⟨gs, g, es, rfl, -, -, rfl⟩ := hshow
    simp

/-- A Ping with `fin` clear. -/
def pingFragment : Frame := ⟨false, 0, 9, none, []⟩

/-- The encoder sends a Ping with `fin` clear, and the decoder rejects it. -/
theorem pingFragment_rejected :
    ((callerNew [pingFragment] { sends := [.accept 2] }).calls [0]).todo.length = 0 ∧
      ((callerNew [pingFragment] { sends := [.accept 2] }).calls [0]).io.wire = [9, 0] ∧
      (frameRecvs 2 FrameContext.new { recvs := [.data [9, 0]] }).1 = [.error .proto] := by
  decide +kernel

theorem sentFrame_received_iff_pingFragment :
    reassemble [] (piecesOf (frameRecvs 4 FrameContext.new { recvs := [.data [9, 0]] }).1) =
          [pingFragment.seen] ∧
        .error .proto ∉ (frameRecvs 4 FrameContext.new { recvs := [.data [9, 0]] }).1 ↔
      (pingFragment.header.isCtrl = true → pingFragment.fin = true) := by
  have hob : Io.Obeys { sends := [.accept 2] } := by
    intro r hr n h
    subst h
    simp at hr
  exact @sentFrame_received_iff pingFragment { sends := [.accept 2] } hob [] rfl [0] rfl
    { recvs := [.data [9, 0]] } rfl 4 (by decide)

end Wslay
