import Wslay.Frame.Send
import Wslay.Wire.Format

/-!
# The bit operations of the frame layer

`frame.c` takes the first two octets of a header apart, and puts them together,
with shifts and masks; the reference format is arithmetic.  Each expression of
the code is equal to the arithmetic one, for all octets.
-/

namespace Wslay

/-- A property of octets can be checked number by number. -/
theorem forall_octet {P : UInt8 → Prop} (h : ∀ n < 256, P (UInt8.ofNat n)) (b : UInt8) : P b := by
  have := h b.toNat b.toNat_lt
  rwa [UInt8.ofNat_toNat] at this

/-- What the expressions of the code make of an octet. -/
def OctetFacts (b : UInt8) : Prop :=
  (b >>> 7) &&& 1 = UInt8.ofNat (decide (128 ≤ b.toNat)).toNat ∧
    (b >>> 4) &&& 7 = UInt8.ofNat (b.toNat / 16 % 8) ∧
    b &&& 0xf = UInt8.ofNat (b.toNat % 16) ∧
    ((b >>> 7) &&& 1 != 0) = hasKey b ∧
    (b &&& 0x7f).toNat = b.toNat % 128 ∧
    (b <<< (7 : UInt8)) &&& (0x80 : UInt8) = UInt8.ofNat (128 * (b.toNat % 2 == 1).toNat) ∧
    (b <<< (4 : UInt8)) &&& (0x70 : UInt8) = UInt8.ofNat (16 * (b.toNat % 8))

instance : DecidablePred OctetFacts := fun b => by
  unfold OctetFacts
  infer_instance

/-- The octets, number by number, and the parts that are put together: one computation,
of which the lemmas below are the parts. -/
theorem octet_facts :
    (∀ n < 256, OctetFacts (UInt8.ofNat n)) ∧
    (∀ (fin : Bool) (rsv : Fin 8) (opcode : Fin 16),
      UInt8.ofNat (128 * fin.toNat) ||| UInt8.ofNat (16 * rsv.val) ||| UInt8.ofNat opcode.val =
        UInt8.ofNat (128 * fin.toNat + 16 * rsv.val + opcode.val)) ∧
    ∀ (mask : Bool) (n : Fin 128),
      maskBit mask ||| UInt8.ofNat n.val = UInt8.ofNat (128 * mask.toNat + n.val) := by
  decide +kernel

theorem octetFacts (b : UInt8) : OctetFacts b := forall_octet octet_facts.1 b

/-! ## Taking a header apart -/

theorem finBit_eq (b : UInt8) : (b >>> 7) &&& 1 = UInt8.ofNat (decide (128 ≤ b.toNat)).toNat :=
  (octetFacts b).1

theorem rsvBits_eq (b : UInt8) : (b >>> 4) &&& 7 = UInt8.ofNat (b.toNat / 16 % 8) :=
  (octetFacts b).2.1

theorem opcodeBits_eq (b : UInt8) : b &&& 0xf = UInt8.ofNat (b.toNat % 16) :=
  (octetFacts b).2.2.1

theorem maskBit_eq (b : UInt8) : ((b >>> 7) &&& 1 != 0) = hasKey b :=
  (octetFacts b).2.2.2.1

theorem lengthBits_toNat (b : UInt8) : (b &&& 0x7f).toNat = b.toNat % 128 :=
  (octetFacts b).2.2.2.2.1

theorem isCtrlFrame_ofNat (n : Fin 16) : isCtrlFrame (UInt8.ofNat n.val) = decide (8 ≤ n.val) := by
  revert n
  decide

/-! ## Putting a header together -/

theorem finOctet_eq (b : UInt8) :
    (b <<< (7 : UInt8)) &&& (0x80 : UInt8) = UInt8.ofNat (128 * (b.toNat % 2 == 1).toNat) :=
  (octetFacts b).2.2.2.2.2.1

theorem rsvOctet_eq (b : UInt8) :
    (b <<< (4 : UInt8)) &&& (0x70 : UInt8) = UInt8.ofNat (16 * (b.toNat % 8)) :=
  (octetFacts b).2.2.2.2.2.2

/-- The three parts of the first octet do not overlap. -/
theorem or_octet (fin : Bool) (rsv : Fin 8) (opcode : Fin 16) :
    UInt8.ofNat (128 * fin.toNat) ||| UInt8.ofNat (16 * rsv.val) ||| UInt8.ofNat opcode.val =
      UInt8.ofNat (128 * fin.toNat + 16 * rsv.val + opcode.val) :=
  octet_facts.2.1 fin rsv opcode

theorem maskBit_or (mask : Bool) (n : Fin 128) :
    maskBit mask ||| UInt8.ofNat n.val = UInt8.ofNat (128 * mask.toNat + n.val) :=
  octet_facts.2.2 mask n

end Wslay
