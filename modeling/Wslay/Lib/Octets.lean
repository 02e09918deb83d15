import Mathlib.Data.List.Basic
import Mathlib.Data.List.Infix
import Mathlib.Tactic.Ring

/-!
# Octet strings: network byte order and cyclic XOR masks

Two small theories that any length-prefixed, masked wire format rests on.

* `beBytes` / `beVal` — a natural number as a fixed number of octets, most
  significant first, and back.  `beVal_beBytes` and `beBytes_beVal` are the two
  round trips, `beVal_lt` the range.
* `Key` / `xorFrom` — a four octet key applied cyclically to a string that
  starts at some offset of the masked stream.  `xorFrom_append` lets a string be
  masked in pieces, `xorFrom_xorFrom` undoes a mask, and
  `xorFrom_eq_self_iff` says exactly when a mask does nothing.
-/

namespace Octets

/-! ## Network byte order -/

/-- The `k` low octets of `n`, most significant first. -/
def beBytes : Nat → Nat → List UInt8
  | 0, _ => []
  | k + 1, n => beBytes k (n / 256) ++ [UInt8.ofNat (n % 256)]

/-- The number whose octets, most significant first, are `bs`. -/
def beVal (bs : List UInt8) : Nat := bs.foldl (fun acc b => acc * 256 + b.toNat) 0

@[simp] theorem length_beBytes (k n : Nat) : (beBytes k n).length = k := by
  induction k generalizing n with
  | zero => rfl
  | succ k ih => simp [beBytes, ih]

theorem beVal_append_singleton (bs : List UInt8) (b : UInt8) :
    beVal (bs ++ [b]) = beVal bs * 256 + b.toNat := by
  simp [beVal, List.foldl_append]

@[simp] theorem beVal_nil : beVal [] = 0 := rfl

theorem beVal_beBytes (k n : Nat) (h : n < 256 ^ k) : beVal (beBytes k n) = n := by
  induction k generalizing n with
  | zero =>
    have hn : n = 0 := by simpa using h
    subst hn
    rfl
  | succ k ih =>
    have hdiv : n / 256 < 256 ^ k := by
      rw [Nat.div_lt_iff_lt_mul (by norm_num)]
      calc n < 256 ^ (k + 1) := h
        _ = 256 ^ k * 256 := by ring
    have hmod : (UInt8.ofNat (n % 256)).toNat = n % 256 := by
      rw [UInt8.toNat_ofNat']
      omega
    rw [beBytes, beVal_append_singleton, ih _ hdiv, hmod]
    omega

theorem beVal_lt (bs : List UInt8) : beVal bs < 256 ^ bs.length := by
  induction bs using List.reverseRecOn with
  | nil => simp
  | append_singleton bs b ih =>
    have hb : b.toNat < 256 := b.toNat_lt
    rw [beVal_append_singleton, List.length_append, List.length_singleton]
    calc beVal bs * 256 + b.toNat < (beVal bs + 1) * 256 := by omega
      _ ≤ 256 ^ bs.length * 256 := Nat.mul_le_mul_right _ ih
      _ = 256 ^ (bs.length + 1) := by ring

theorem beBytes_beVal (bs : List UInt8) : beBytes bs.length (beVal bs) = bs := by
  induction bs using List.reverseRecOn with
  | nil => rfl
  | append_singleton bs b ih =>
    have hb : b.toNat < 256 := b.toNat_lt
    rw [beVal_append_singleton, List.length_append, List.length_singleton, beBytes]
    have hdiv : (beVal bs * 256 + b.toNat) / 256 = beVal bs := by omega
    have hmod : (beVal bs * 256 + b.toNat) % 256 = b.toNat := by omega
    rw [hdiv, hmod, ih, UInt8.ofNat_toNat]

/-- Leading zero octets do not change the number. -/
theorem beVal_replicate_zero_append (k : Nat) (bs : List UInt8) :
    beVal (List.replicate k 0 ++ bs) = beVal bs := by
  have hz : beVal (List.replicate k 0) = 0 := by
    induction k with
    | zero => rfl
    | succ k ih => rw [List.replicate_succ', beVal_append_singleton, ih]; rfl
  rw [beVal, List.foldl_append]
  change List.foldl _ (beVal (List.replicate k 0)) bs = _
  rw [hz, beVal]

/-! ## Cyclic masks -/

/-- A four octet mask key. -/
structure Key where
  /-- The octet applied at offsets divisible by four. -/
  b0 : UInt8
  b1 : UInt8
  b2 : UInt8
  b3 : UInt8
  deriving DecidableEq, Repr, Inhabited

namespace Key

/-- The key octet for offset `i` of the masked stream. -/
def get (k : Key) (i : Nat) : UInt8 :=
  match i % 4 with
  | 0 => k.b0
  | 1 => k.b1
  | 2 => k.b2
  | _ => k.b3

/-- The key as it stands on the wire. -/
def bytes (k : Key) : List UInt8 := [k.b0, k.b1, k.b2, k.b3]

/-- The key read from the first four octets of a string. -/
def ofBytes (bs : List UInt8) : Key :=
  ⟨bs.getD 0 0, bs.getD 1 0, bs.getD 2 0, bs.getD 3 0⟩

@[simp] theorem length_bytes (k : Key) : k.bytes.length = 4 := rfl

@[simp] theorem ofBytes_bytes_append (k : Key) (bs : List UInt8) :
    ofBytes (k.bytes ++ bs) = k := by
  simp [ofBytes, bytes]

theorem bytes_ofBytes {bs : List UInt8} (h : bs.length = 4) : (ofBytes bs).bytes = bs := by
  match bs, h with
  | [_, _, _, _], _ => rfl

end Key

/-- The string `bs`, whose first octet stands at offset `off` of the masked
stream, combined with the key. -/
def xorFrom (k : Key) (off : Nat) : List UInt8 → List UInt8
  | [] => []
  | b :: bs => (b ^^^ k.get off) :: xorFrom k (off + 1) bs

@[simp] theorem xorFrom_nil (k : Key) (off : Nat) : xorFrom k off [] = [] := rfl

@[simp] theorem length_xorFrom (k : Key) (off : Nat) (bs : List UInt8) :
    (xorFrom k off bs).length = bs.length := by
  induction bs generalizing off with
  | nil => rfl
  | cons b bs ih => simp [xorFrom, ih]

theorem xorFrom_append (k : Key) (off : Nat) (as bs : List UInt8) :
    xorFrom k off (as ++ bs) = xorFrom k off as ++ xorFrom k (off + as.length) bs := by
  induction as generalizing off with
  | nil => simp
  | cons a as ih =>
    simp only [List.cons_append, xorFrom, ih, List.length_cons]
    rw [show off + 1 + as.length = off + (as.length + 1) by omega]

/-- Masking twice with the same key restores the string. -/
@[simp] theorem xorFrom_xorFrom (k : Key) (off : Nat) (bs : List UInt8) :
    xorFrom k off (xorFrom k off bs) = bs := by
  induction bs generalizing off with
  | nil => rfl
  | cons b bs ih =>
    simp only [xorFrom, ih]
    rw [UInt8.xor_assoc, UInt8.xor_self, UInt8.xor_zero]

theorem xorFrom_take (k : Key) (off n : Nat) (bs : List UInt8) :
    (xorFrom k off bs).take n = xorFrom k off (bs.take n) := by
  induction bs generalizing off n with
  | nil => simp
  | cons b bs ih =>
    cases n with
    | zero => simp
    | succ n => simp [xorFrom, ih]

theorem xorFrom_drop (k : Key) (off n : Nat) (bs : List UInt8) :
    (xorFrom k off bs).drop n = xorFrom k (off + n) (bs.drop n) := by
  induction bs generalizing off n with
  | nil => simp
  | cons b bs ih =>
    cases n with
    | zero => simp
    | succ n =>
      simp only [xorFrom, List.drop_succ_cons, ih]
      rw [show off + 1 + n = off + (n + 1) by omega]

/-- A mask leaves a string alone exactly when every key octet it uses is zero. -/
theorem xorFrom_eq_self_iff (k : Key) (off : Nat) (bs : List UInt8) :
    xorFrom k off bs = bs ↔ ∀ i < bs.length, k.get (off + i) = 0 := by
  induction bs generalizing off with
  | nil => simp
  | cons b bs ih =>
    have hb : b ^^^ k.get off = b ↔ k.get off = 0 := by
      constructor
      · intro h
        calc k.get off = b ^^^ (b ^^^ k.get off) := by rw [← UInt8.xor_assoc]; simp
          _ = 0 := by rw [h]; simp
      · intro h
        rw [h]; simp
    rw [xorFrom, List.cons.injEq, hb, ih]
    constructor
    · rintro ⟨h0, hs⟩ i hi
      cases i with
      | zero => simpa using h0
      | succ i =>
        have := hs i (by simpa using hi)
        rwa [show off + 1 + i = off + (i + 1) by omega] at this
    · intro h
      refine ⟨by simpa using h 0 (by simp), fun i hi => ?_⟩
      have := h (i + 1) (by simpa using hi)
      rwa [show off + (i + 1) = off + 1 + i by omega] at this

end Octets
