import Wslay.Event.Recv
import Wslay.Lib.Utf8

/-!
# The automaton reads UTF-8

The states of the table of `utf8.c`, in the words of RFC 3629: each stands for
the octet ranges that the character begun still asks for.  So scanning a string
is reading it.
-/

namespace Wslay

open Utf8 (Range tail next read)

/-- The states the automaton can be in, other than `UTF8_REJECT`, and what they
wait for. -/
def utf8States : List (Nat × List Range) :=
  [(utf8Accept, []), (24, [tail]), (36, [tail, tail]), (48, [⟨0xa0, 0xbf⟩, tail]),
    (60, [⟨0x80, 0x9f⟩, tail]), (72, [⟨0x90, 0xbf⟩, tail, tail]), (84, [tail, tail, tail]),
    (96, [⟨0x80, 0x8f⟩, tail, tail])]

/-- In the state `st` the automaton waits for octets in the ranges `rs`. -/
def Waits (st : Nat) (rs : List Range) : Prop := (st, rs) ∈ utf8States

instance (st : Nat) (rs : List Range) : Decidable (Waits st rs) := by
  unfold Waits
  infer_instance

theorem waits_accept : Waits utf8Accept [] := by decide

theorem Waits.ne_reject {st : Nat} {rs : List Range} (h : Waits st rs) : st ≠ utf8Reject := by
  rintro rfl
  revert h
  unfold Waits utf8States utf8Reject utf8Accept
  simp

theorem Waits.accept_iff {st : Nat} {rs : List Range} (h : Waits st rs) :
    st = utf8Accept ↔ rs = [] := by
  have hall : ∀ p ∈ utf8States, p.1 = utf8Accept ↔ p.2 = [] := by decide
  exact hall _ h

/-- What the automaton does with one octet. -/
def Advances (st : Nat) (rs : List Range) (b : UInt8) : Prop :=
  match next rs b with
  | none => (decode st 0 b).1 = utf8Reject
  | some rs' => Waits (decode st 0 b).1 rs'

instance (st : Nat) (rs : List Range) (b : UInt8) : Decidable (Advances st rs b) := by
  unfold Advances
  cases next rs b <;> infer_instance

theorem advances_table : ∀ p ∈ utf8States, ∀ i : Fin 256, Advances p.1 p.2 (UInt8.ofNat i) := by
  decide +kernel

theorem Waits.decode {st : Nat} {rs : List Range} (h : Waits st rs) (b : UInt8) :
    Advances st rs b := by
  have := advances_table _ h ⟨b.toNat, b.toNat_lt⟩
  rwa [UInt8.ofNat_toNat] at this

/-- **Scanning a string is reading it.** -/
theorem utf8Scan_read {st : Nat} {rs : List Range} (h : Waits st rs) (bs : List UInt8) :
    match read rs bs with
    | none => utf8Scan st bs = (utf8Reject, true)
    | some rs' => ∃ st', utf8Scan st bs = (st', false) ∧ Waits st' rs' := by
  induction bs generalizing st rs with
  | nil => exact ⟨st, rfl, h⟩
  | cons b bs ih =>
    have hb := h.decode b
    unfold Advances at hb
    rw [Utf8.read_cons, utf8Scan]
    cases hn : next rs b with
    | none =>
      rw [hn] at hb
      simp only [Option.bind_none, hb, if_true]
    | some rs' =>
      rw [hn] at hb
      simp only [Option.bind_some, if_neg hb.ne_reject]
      exact ih hb

end Wslay
