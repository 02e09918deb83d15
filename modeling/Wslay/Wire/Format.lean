import Wslay.Core

/-!
# The frame format, as RFC 6455 defines it

The reference against which both directions of `frame.c` are checked.  It is
written with arithmetic on octet values, not with the bit operations of the
code.

* `Header`, `Frame` — a frame header with everything it says, and a frame.
* `Header.encode`, `Frame.encode` — the unique encoding: the length in the
  shortest of its three forms, the key if there is one, the masked payload.
* `parseHeader` — the reference decoder of one header: `more` when the octets
  run out, `malformed` when no valid frame starts with them.
* `parseHeader_encode` and `parseHeader_header` — it accepts exactly the
  encodings of the valid headers.  Hence a header has one encoding only.
-/

namespace Wslay

open Octets (Key beBytes beVal xorFrom)

/-! ## Frames -/

/-- A frame header.  The mask flag is whether there is a key. -/
structure Header where
  fin : Bool
  rsv : Fin 8
  opcode : Fin 16
  key : Option Key
  length : Nat
  deriving DecidableEq, Repr

namespace Header

/-- The opcodes from 8 on are those of control frames. -/
def isCtrl (h : Header) : Bool := decide (8 ≤ h.opcode.val)

/-- What the format asks of a header: a length below `2 ^ 63`, and control
frames that are not fragmented and carry at most 125 octets. -/
def Valid (h : Header) : Prop :=
  h.length < 2 ^ 63 ∧ (h.isCtrl = true → h.fin = true ∧ h.length ≤ 125)

instance (h : Header) : Decidable h.Valid := by unfold Valid; infer_instance

/-- The first octet. -/
def octet0 (h : Header) : UInt8 :=
  UInt8.ofNat (128 * h.fin.toNat + 16 * h.rsv.val + h.opcode.val)

/-- The second octet and the extended length. -/
def lengthOctets (h : Header) : List UInt8 :=
  if h.length < 126 then [UInt8.ofNat (128 * h.key.isSome.toNat + h.length)]
  else if h.length < 65536 then
    UInt8.ofNat (128 * h.key.isSome.toNat + 126) :: beBytes 2 h.length
  else UInt8.ofNat (128 * h.key.isSome.toNat + 127) :: beBytes 8 h.length

/-- The key, if there is one. -/
def keyOctets (h : Header) : List UInt8 := (h.key.map Key.bytes).getD []

/-- The encoding of a header. -/
def encode (h : Header) : List UInt8 := h.octet0 :: h.lengthOctets ++ h.keyOctets

/-- A string at offset `off` of the payload, masked or unmasked. -/
def mask (h : Header) (off : Nat) (bs : List UInt8) : List UInt8 :=
  match h.key with
  | some k => xorFrom k off bs
  | none => bs

@[simp] theorem length_mask (h : Header) (off : Nat) (bs : List UInt8) :
    (h.mask off bs).length = bs.length := by
  unfold mask
  cases h.key <;> simp

@[simp] theorem mask_nil (h : Header) (off : Nat) : h.mask off [] = [] := by
  unfold mask
  cases h.key <;> rfl

@[simp] theorem mask_mask (h : Header) (off : Nat) (bs : List UInt8) :
    h.mask off (h.mask off bs) = bs := by
  unfold mask
  cases h.key <;> simp

theorem mask_append (h : Header) (off : Nat) (as bs : List UInt8) :
    h.mask off (as ++ bs) = h.mask off as ++ h.mask (off + as.length) bs := by
  unfold mask
  cases h.key with
  | none => rfl
  | some k => exact Octets.xorFrom_append k off as bs

@[simp] theorem mask_eq_nil_iff (h : Header) (off : Nat) (bs : List UInt8) :
    h.mask off bs = [] ↔ bs = [] := by
  rw [← List.length_eq_zero_iff, length_mask, List.length_eq_zero_iff]

end Header

/-- A frame, with its payload unmasked. -/
structure Frame where
  fin : Bool
  rsv : Fin 8
  opcode : Fin 16
  key : Option Key
  payload : List UInt8
  deriving DecidableEq, Repr

namespace Frame

def header (f : Frame) : Header := ⟨f.fin, f.rsv, f.opcode, f.key, f.payload.length⟩

/-- The encoding of a frame. -/
def encode (f : Frame) : List UInt8 := f.header.encode ++ f.header.mask 0 f.payload

/-- The frame with the given header and payload. -/
def ofHeader (h : Header) (payload : List UInt8) : Frame :=
  ⟨h.fin, h.rsv, h.opcode, h.key, payload⟩

@[simp] theorem header_length (f : Frame) : f.header.length = f.payload.length := rfl

theorem header_ofHeader {h : Header} {payload : List UInt8} (hl : payload.length = h.length) :
    (ofHeader h payload).header = h := by
  rw [header, ofHeader, hl]

end Frame

/-! ## The reference decoder -/

/-- What the front of an octet stream says about the next header. -/
inductive Parse where
  /-- The header is not complete yet. -/
  | more
  /-- No valid frame starts like this. -/
  | malformed
  /-- A header, and the octets behind it. -/
  | header (h : Header) (rest : List UInt8)
  deriving DecidableEq, Repr

/-- The header as far as the first two octets determine it. -/
def firstOctets (b0 b1 : UInt8) : Header where
  fin := decide (128 ≤ b0.toNat)
  rsv := ⟨b0.toNat / 16 % 8, Nat.mod_lt _ (by decide)⟩
  opcode := ⟨b0.toNat % 16, Nat.mod_lt _ (by decide)⟩
  key := none
  length := b1.toNat % 128

/-- The mask bit of the second octet. -/
def hasKey (b1 : UInt8) : Bool := decide (128 ≤ b1.toNat)

/-- The key, if the header has one. -/
def parseKey (h : Header) (masked : Bool) (bs : List UInt8) : Parse :=
  if masked then
    if bs.length < 4 then .more
    else .header { h with key := some (Key.ofBytes (bs.take 4)) } (bs.drop 4)
  else .header h bs

/-- The extended length of `k` octets; `ok` says which values are in shortest form. -/
def parseExtended (h : Header) (masked : Bool) (k : Nat) (ok : Nat → Bool) (bs : List UInt8) :
    Parse :=
  if bs.length < k then .more
  else if ok (beVal (bs.take k)) then
    parseKey { h with length := beVal (bs.take k) } masked (bs.drop k)
  else .malformed

/-- The values that need the two octet form. -/
def ok16 (n : Nat) : Bool := decide (126 ≤ n)

/-- The values that need the eight octet form. -/
def ok64 (n : Nat) : Bool := decide (65536 ≤ n) && decide (n < 2 ^ 63)

/-- A control frame that is fragmented, or too long. -/
def badCtrl (h : Header) : Bool := h.isCtrl && (!h.fin || decide (125 < h.length))

/-- What follows the first two octets. -/
def parseLength (b0 b1 : UInt8) (bs : List UInt8) : Parse :=
  if (firstOctets b0 b1).length < 126 then parseKey (firstOctets b0 b1) (hasKey b1) bs
  else if (firstOctets b0 b1).length = 126 then
    parseExtended (firstOctets b0 b1) (hasKey b1) 2 ok16 bs
  else parseExtended (firstOctets b0 b1) (hasKey b1) 8 ok64 bs

/-- The reference decoder of a frame header. -/
def parseHeader : List UInt8 → Parse
  | b0 :: b1 :: bs =>
    if badCtrl (firstOctets b0 b1) then .malformed else parseLength b0 b1 bs
  | _ => .more

/-! ## It accepts the encodings -/

theorem parseKey_encode {h : Header} (rest : List UInt8) :
    parseKey { h with key := none } h.key.isSome (h.keyOctets ++ rest) = .header h rest := by
  obtain ⟨fin, rsv, opcode, key, length⟩ := h
  cases key with
  | none => rfl
  | some k =>
    have hlen : ¬ (k.bytes ++ rest).length < 4 := by simp
    have htake : (k.bytes ++ rest).take 4 = k.bytes := List.take_left' rfl
    have hdrop : (k.bytes ++ rest).drop 4 = rest := List.drop_left' rfl
    have hkey : Key.ofBytes k.bytes = k := by simpa using Key.ofBytes_bytes_append k []
    simp only [parseKey, Header.keyOctets, Option.isSome_some, Option.map_some, Option.getD_some,
      if_true, if_neg hlen, htake, hdrop, hkey]

theorem octet0_toNat (h : Header) :
    h.octet0.toNat = 128 * h.fin.toNat + 16 * h.rsv.val + h.opcode.val := by
  have h1 := h.rsv.isLt
  have h2 := h.opcode.isLt
  have h3 := Bool.toNat_le h.fin
  rw [Header.octet0, UInt8.toNat_ofNat']
  omega

theorem lengthOctet_toNat (masked : Bool) {n : Nat} (hn : n < 128) :
    (UInt8.ofNat (128 * masked.toNat + n)).toNat = 128 * masked.toNat + n := by
  have h := Bool.toNat_le masked
  rw [UInt8.toNat_ofNat']
  omega

theorem decide_bit (b : Bool) {n : Nat} (hn : n < 128) :
    decide (128 ≤ 128 * b.toNat + n) = b := by
  cases b with
  | true => simp
  | false => simpa using hn

theorem firstOctets_encode (h : Header) {n : Nat} (hn : n < 128) :
    firstOctets h.octet0 (UInt8.ofNat (128 * h.key.isSome.toNat + n)) =
      { h with key := none, length := n } := by
  have h1 := h.rsv.isLt
  have h2 := h.opcode.isLt
  have hfin : decide (128 ≤ h.octet0.toNat) = h.fin := by
    rw [octet0_toNat, Nat.add_assoc, decide_bit h.fin (by omega)]
  have hrsv : h.octet0.toNat / 16 % 8 = h.rsv.val := by rw [octet0_toNat]; omega
  have hopcode : h.octet0.toNat % 16 = h.opcode.val := by rw [octet0_toNat]; omega
  have hlen : (UInt8.ofNat (128 * h.key.isSome.toNat + n)).toNat % 128 = n := by
    rw [lengthOctet_toNat _ hn]
    omega
  simp only [firstOctets, hfin, hrsv, hopcode, hlen]

theorem hasKey_encode (masked : Bool) {n : Nat} (hn : n < 128) :
    hasKey (UInt8.ofNat (128 * masked.toNat + n)) = masked := by
  rw [hasKey, lengthOctet_toNat _ hn, decide_bit masked hn]

theorem parseExtended_encode {h : Header} {k : Nat} {ok : Nat → Bool} (hk : h.length < 256 ^ k)
    (hok : ok h.length = true) (n : Nat) (rest : List UInt8) :
    parseExtended { h with key := none, length := n } h.key.isSome k ok
      (beBytes k h.length ++ (h.keyOctets ++ rest)) = .header h rest := by
  have hlen : ¬ (beBytes k h.length ++ (h.keyOctets ++ rest)).length < k := by simp
  have htake : (beBytes k h.length ++ (h.keyOctets ++ rest)).take k = beBytes k h.length :=
    List.take_left' (by simp)
  have hdrop : (beBytes k h.length ++ (h.keyOctets ++ rest)).drop k = h.keyOctets ++ rest :=
    List.drop_left' (by simp)
  rw [parseExtended, if_neg hlen, htake, hdrop, Octets.beVal_beBytes k h.length hk, hok, if_pos rfl]
  exact parseKey_encode rest

/-- **The decoder reads every encoding back**, whatever follows it. -/
theorem parseHeader_encode {h : Header} (hv : h.Valid) (rest : List UInt8) :
    parseHeader (h.encode ++ rest) = .header h rest := by
  obtain ⟨hlen, hctrl⟩ := hv
  have hgood : ∀ n, n < 128 → (h.isCtrl = true → n ≤ 125) →
      badCtrl { h with key := none, length := n } = false := by
    intro n _ hn
    cases hc : h.isCtrl with
    | false =>
      have : Header.isCtrl { h with key := none, length := n } = false := hc
      simp [badCtrl, this]
    | true => simp [badCtrl, (hctrl hc).1, Nat.not_lt.2 (hn hc)]
  rw [Header.encode, List.append_assoc, Header.lengthOctets]
  split_ifs with h126 h65536
  · have hfirst := firstOctets_encode h (show h.length < 128 by omega)
    simp only [List.cons_append, List.nil_append, parseHeader, hfirst,
      hgood h.length (by omega) (fun hc => (hctrl hc).2), Bool.false_eq_true, if_false,
      parseLength, if_pos h126, hasKey_encode h.key.isSome (show h.length < 128 by omega)]
    exact parseKey_encode rest
  · have hnc : h.isCtrl = true → 126 ≤ 125 := fun hc => absurd (hctrl hc).2 (by omega)
    have hfirst := firstOctets_encode h (show 126 < 128 by omega)
    simp only [List.cons_append, parseHeader, hfirst, hgood 126 (by omega) hnc, Bool.false_eq_true,
      if_false, parseLength, lt_irrefl, if_true,
      hasKey_encode h.key.isSome (show 126 < 128 by omega)]
    exact parseExtended_encode (by omega) (by simp [ok16]; omega) 126 rest
  · have hnc : h.isCtrl = true → 127 ≤ 125 := fun hc => absurd (hctrl hc).2 (by omega)
    have hfirst := firstOctets_encode h (show 127 < 128 by omega)
    simp only [List.cons_append, parseHeader, hfirst, hgood 127 (by omega) hnc, Bool.false_eq_true,
      if_false, parseLength, show ¬ (127 < 126) by omega, show ¬ (127 = 126) by omega,
      hasKey_encode h.key.isSome (show 127 < 128 by omega)]
    refine parseExtended_encode ?_ ?_ 127 rest
    · calc h.length < 2 ^ 63 := hlen
        _ ≤ 256 ^ 8 := by omega
    · simp [ok64]
      omega

/-! ## It accepts nothing else -/

theorem keyBit_of_hasKey (b1 : UInt8) :
    UInt8.ofNat (128 * (hasKey b1).toNat + b1.toNat % 128) = b1 := by
  have hlt := b1.toNat_lt
  have hval : 128 * (hasKey b1).toNat + b1.toNat % 128 = b1.toNat := by
    unfold hasKey
    by_cases h : 128 ≤ b1.toNat
    · simp only [h, decide_true, Bool.toNat_true]; omega
    · simp only [h, decide_false, Bool.toNat_false]; omega
  rw [hval, UInt8.ofNat_toNat]

theorem octet0_firstOctets (b0 b1 : UInt8) : (firstOctets b0 b1).octet0 = b0 := by
  have hlt := b0.toNat_lt
  have hval : 128 * (decide (128 ≤ b0.toNat)).toNat + 16 * (b0.toNat / 16 % 8) + b0.toNat % 16 =
      b0.toNat := by
    by_cases h : 128 ≤ b0.toNat
    · simp only [h, decide_true, Bool.toNat_true]; omega
    · simp only [h, decide_false, Bool.toNat_false]; omega
  change UInt8.ofNat (128 * (decide (128 ≤ b0.toNat)).toNat + 16 * (b0.toNat / 16 % 8) +
    b0.toNat % 16) = b0
  rw [hval, UInt8.ofNat_toNat]

/-- `h` is `g` but for its key, and the octets `bs` hold that key before `rest`. -/
theorem parseKey_header {g h : Header} {masked : Bool} {bs rest : List UInt8}
    (hg : g.key = none) (hp : parseKey g masked bs = .header h rest) :
    { h with key := none } = g ∧ h.key.isSome = masked ∧ bs = h.keyOctets ++ rest := by
  cases masked with
  | false =>
    simp only [parseKey, Bool.false_eq_true, if_false, Parse.header.injEq] at hp
    obtain ⟨rfl, rfl⟩ := hp
    refine ⟨?_, by rw [hg]; rfl, by rw [Header.keyOctets, hg]; rfl⟩
    rw [← hg]
  | true =>
    simp only [parseKey, if_true] at hp
    split_ifs at hp with hlen
    simp only [Parse.header.injEq] at hp
    obtain ⟨rfl, rfl⟩ := hp
    refine ⟨?_, rfl, ?_⟩
    · rw [← hg]
    · have h4 : (bs.take 4).length = 4 := by rw [List.length_take]; omega
      simp only [Header.keyOctets, Option.map_some, Option.getD_some, Key.bytes_ofBytes h4,
        List.take_append_drop]

theorem parseExtended_header {g h : Header} {masked : Bool} {k : Nat} {ok : Nat → Bool}
    {bs rest : List UInt8} (hg : g.key = none)
    (hp : parseExtended g masked k ok bs = .header h rest) :
    { h with key := none } = { g with length := h.length } ∧ h.key.isSome = masked ∧
      ok h.length = true ∧ h.length < 256 ^ k ∧
      bs = beBytes k h.length ++ (h.keyOctets ++ rest) := by
  unfold parseExtended at hp
  split_ifs at hp with hlen hok
  obtain ⟨heq, hkey, hbs⟩ :=
    parseKey_header (g := { g with length := beVal (bs.take k) }) hg hp
  have hl : h.length = beVal (bs.take k) := congrArg Header.length heq
  have htake : (bs.take k).length = k := by rw [List.length_take]; omega
  have hbe := Octets.beBytes_beVal (bs.take k)
  have hlt := Octets.beVal_lt (bs.take k)
  rw [htake] at hbe hlt
  refine ⟨by rw [heq, hl], hkey, by rw [hl]; exact hok, by rw [hl]; exact hlt, ?_⟩
  calc bs = bs.take k ++ bs.drop k := (List.take_append_drop k bs).symm
    _ = beBytes k h.length ++ (h.keyOctets ++ rest) := by rw [← hbs, hl, hbe]

/-- **The decoder accepts nothing but encodings of valid headers.**  In
particular a header has one encoding only. -/
theorem parseHeader_header {bs rest : List UInt8} {h : Header}
    (hp : parseHeader bs = .header h rest) : bs = h.encode ++ rest ∧ h.Valid := by
  match bs with
  | [] => simp [parseHeader] at hp
  | [_] => simp [parseHeader] at hp
  | b0 :: b1 :: bs =>
    rw [parseHeader] at hp
    split_ifs at hp with hbad
    have hb1 := keyBit_of_hasKey b1
    have hb0 := octet0_firstOctets b0 b1
    have hlen7 : (firstOctets b0 b1).length = b1.toNat % 128 := rfl
    have hctrl : (firstOctets b0 b1).isCtrl = true →
        (firstOctets b0 b1).fin = true ∧ (firstOctets b0 b1).length ≤ 125 := by
      intro hc
      simpa [badCtrl, hc] using hbad
    -- the fields settled by the first two octets are those of `firstOctets`
    have hsame : ∀ n, { h with key := none } = { firstOctets b0 b1 with length := n } →
        h.octet0 = b0 ∧ (h.isCtrl = true → h.fin = true ∧ b1.toNat % 128 ≤ 125) := by
      intro n heq
      obtain ⟨hfin, hrsv, hop, -, -⟩ := Header.mk.inj heq
      refine ⟨?_, ?_⟩
      · rw [← hb0, Header.octet0, Header.octet0, hfin, hrsv, hop]
      · intro hc
        rw [Header.isCtrl, hop] at hc
        rw [hfin]
        exact hctrl hc
    unfold parseLength at hp
    split_ifs at hp with h126 heq126
    · obtain ⟨heq, hkey, rfl⟩ := parseKey_header rfl hp
      have hl : h.length = b1.toNat % 128 := congrArg Header.length heq
      obtain ⟨h0, hc⟩ := hsame (b1.toNat % 128) heq
      rw [hlen7] at h126
      refine ⟨?_, by omega, by rw [hl]; exact hc⟩
      rw [Header.encode, Header.lengthOctets, if_pos (by omega), h0, hkey, hl, hb1]
      simp
    · obtain ⟨heq, hkey, hok, hlt, rfl⟩ := parseExtended_header rfl hp
      obtain ⟨h0, hc⟩ := hsame h.length heq
      have hge : 126 ≤ h.length := by simpa [ok16] using hok
      rw [hlen7] at heq126
      rw [heq126] at hb1 hc
      refine ⟨?_, by omega, fun hctl => absurd (hc hctl).2 (by omega)⟩
      rw [Header.encode, Header.lengthOctets, if_neg (by omega), if_pos (by omega), h0, hkey, hb1]
      simp
    · obtain ⟨heq, hkey, hok, hlt, rfl⟩ := parseExtended_header rfl hp
      obtain ⟨h0, hc⟩ := hsame h.length heq
      have hge : 65536 ≤ h.length ∧ h.length < 2 ^ 63 := by simpa [ok64] using hok
      rw [hlen7] at h126 heq126
      have h127 : b1.toNat % 128 = 127 := by omega
      rw [h127] at hb1 hc
      refine ⟨?_, hge.2, fun hctl => absurd (hc hctl).2 (by omega)⟩
      rw [Header.encode, Header.lengthOctets, if_neg (by omega), if_neg (by omega), h0, hkey, hb1]
      simp

/-! ## It decides as early as it can, and for good -/

theorem parseKey_ne_malformed (g : Header) (masked : Bool) (bs : List UInt8) :
    parseKey g masked bs ≠ .malformed := by
  unfold parseKey
  split_ifs <;> simp

theorem parseExtended_malformed_append {g : Header} {masked : Bool} {k : Nat} {ok : Nat → Bool}
    {bs : List UInt8} (hp : parseExtended g masked k ok bs = .malformed) (x : List UInt8) :
    parseExtended g masked k ok (bs ++ x) = .malformed := by
  unfold parseExtended at hp
  split_ifs at hp with hlen hok
  · exact absurd hp (parseKey_ne_malformed _ _ _)
  · rw [parseExtended, if_neg (by rw [List.length_append]; omega),
      List.take_append_of_le_length (by omega), if_neg hok]

/-- A header found malformed stays so, whatever comes later. -/
theorem parseHeader_malformed_append {bs : List UInt8} (hp : parseHeader bs = .malformed)
    (x : List UInt8) : parseHeader (bs ++ x) = .malformed := by
  match bs with
  | [] => simp [parseHeader] at hp
  | [_] => simp [parseHeader] at hp
  | b0 :: b1 :: bs =>
    rw [List.cons_append, List.cons_append, parseHeader]
    rw [parseHeader] at hp
    split_ifs at hp with hbad
    · rw [if_pos hbad]
    · rw [if_neg hbad]
      unfold parseLength at hp ⊢
      split_ifs at hp ⊢
      · exact absurd hp (parseKey_ne_malformed _ _ _)
      · exact parseExtended_malformed_append hp x
      · exact parseExtended_malformed_append hp x

/-- A header found stays found, whatever comes later. -/
theorem parseHeader_header_append {bs rest : List UInt8} {h : Header}
    (hp : parseHeader bs = .header h rest) (x : List UInt8) :
    parseHeader (bs ++ x) = .header h (rest ++ x) := by
  obtain ⟨rfl, hv⟩ := parseHeader_header hp
  rw [List.append_assoc]
  exact parseHeader_encode hv (rest ++ x)

end Wslay
