import Mathlib.Data.List.Forall2

/-!
# UTF-8, as RFC 3629 defines it

The syntax of the RFC, octet ranges and all, and a reader that goes through a
string one octet at a time.

* `lead` — what an octet may begin: the ranges in which the next octets of the
  character must lie.
* `WellFormed` — the strings of characters.
* `read` — the reader: what it still waits for, or nothing when the string
  cannot be saved.
* `wellFormed_iff` — it ends with nothing to wait for on exactly the well formed
  strings.
* `read_isSome_iff` — it goes on as long as something well formed can follow.
-/

namespace Utf8

/-- A range of octets. -/
structure Range where
  lo : UInt8
  hi : UInt8
  deriving DecidableEq, Repr

/-- The octet lies in the range. -/
def Range.Has (r : Range) (b : UInt8) : Prop := r.lo ≤ b ∧ b ≤ r.hi

instance (r : Range) (b : UInt8) : Decidable (r.Has b) := by unfold Range.Has; infer_instance

/-- `UTF8-tail`. -/
def tail : Range := ⟨0x80, 0xbf⟩

/-- The octets that may follow a first octet: `UTF8-1` to `UTF8-4`. -/
def lead (b : UInt8) : Option (List Range) :=
  if b ≤ 0x7f then some []
  else if 0xc2 ≤ b ∧ b ≤ 0xdf then some [tail]
  else if b = 0xe0 then some [⟨0xa0, 0xbf⟩, tail]
  else if b = 0xed then some [⟨0x80, 0x9f⟩, tail]
  else if 0xe1 ≤ b ∧ b ≤ 0xef then some [tail, tail]
  else if b = 0xf0 then some [⟨0x90, 0xbf⟩, tail, tail]
  else if 0xf1 ≤ b ∧ b ≤ 0xf3 then some [tail, tail, tail]
  else if b = 0xf4 then some [⟨0x80, 0x8f⟩, tail, tail]
  else none

/-- Strings of characters, each a first octet and octets in the ranges it asks for. -/
inductive WellFormed : List UInt8 → Prop
  | nil : WellFormed []
  | char {b : UInt8} {rs : List Range} {bs s : List UInt8} : lead b = some rs →
      List.Forall₂ Range.Has rs bs → WellFormed s → WellFormed (b :: (bs ++ s))

/-! ## The reader -/

/-- One octet, when octets in the given ranges are waited for. -/
def next (rs : List Range) (b : UInt8) : Option (List Range) :=
  match rs with
  | [] => lead b
  | r :: rs => if r.Has b then some rs else none

/-- A string, octet by octet. -/
def read : List Range → List UInt8 → Option (List Range)
  | rs, [] => some rs
  | rs, b :: bs => (next rs b).bind fun rs => read rs bs

@[simp] theorem read_nil (rs : List Range) : read rs [] = some rs := rfl

theorem read_cons (rs : List Range) (b : UInt8) (bs : List UInt8) :
    read rs (b :: bs) = (next rs b).bind fun rs => read rs bs := rfl

theorem read_append (rs : List Range) (as bs : List UInt8) :
    read rs (as ++ bs) = (read rs as).bind fun rs => read rs bs := by
  induction as generalizing rs with
  | nil => rfl
  | cons a as ih =>
    rw [List.cons_append, read_cons, read_cons]
    cases next rs a with
    | none => rfl
    | some rs' => exact ih rs'

/-- Octets in the ranges that are waited for. -/
theorem read_forall₂ {rs : List Range} {bs : List UInt8} (h : List.Forall₂ Range.Has rs bs) :
    read rs bs = some [] := by
  induction h with
  | nil => rfl
  | cons hr _ ih =>
    rw [read_cons, next, if_pos hr]
    exact ih

/-- What the reader accepts is what was waited for, and a string of characters. -/
theorem wellFormed_of_read {rs : List Range} {bs : List UInt8} (h : read rs bs = some []) :
    ∃ as s, bs = as ++ s ∧ List.Forall₂ Range.Has rs as ∧ WellFormed s := by
  induction bs generalizing rs with
  | nil =>
    cases h
    exact ⟨[], [], rfl, .nil, .nil⟩
  | cons b bs ih =>
    rw [read_cons] at h
    cases rs with
    | nil =>
      -- a character begins
      rw [next] at h
      cases hlead : lead b with
      | none => simp [hlead] at h
      | some rs =>
        rw [hlead, Option.bind_some] at h
        obtain ⟨as, s, rfl, has, hs⟩ := ih h
        exact ⟨[], b :: (as ++ s), rfl, .nil, .char hlead has hs⟩
    | cons r rs =>
      rw [next] at h
      by_cases hr : r.Has b
      · rw [if_pos hr, Option.bind_some] at h
        obtain ⟨as, s, rfl, has, hs⟩ := ih h
        exact ⟨b :: as, s, rfl, .cons hr has, hs⟩
      · simp [if_neg hr] at h

/-- **The reader accepts exactly the well formed strings.** -/
theorem wellFormed_iff (s : List UInt8) : WellFormed s ↔ read [] s = some [] := by
  constructor
  · intro h
    induction h with
    | nil => rfl
    | char hlead hbs _ ih =>
      rw [read_cons, next, hlead, Option.bind_some, read_append, read_forall₂ hbs]
      exact ih
  · intro h
    obtain ⟨as, s, rfl, has, hs⟩ := wellFormed_of_read h
    cases has
    exact hs

instance (s : List UInt8) : Decidable (WellFormed s) := decidable_of_iff _ (wellFormed_iff s).symm

/-- The ranges that can be waited for: none of them is empty. -/
def Sound (rs : List Range) : Prop := ∀ r ∈ rs, r.Has r.lo

theorem sound_lead {b : UInt8} {rs : List Range} (h : lead b = some rs) : Sound rs := by
  unfold lead at h
  unfold Sound
  split_ifs at h <;> cases h <;> decide

theorem sound_next {rs rs' : List Range} {b : UInt8} (hs : Sound rs) (h : next rs b = some rs') :
    Sound rs' := by
  cases rs with
  | nil => exact sound_lead h
  | cons r rs =>
    rw [next] at h
    split_ifs at h
    cases h
    exact fun r' hr' => hs r' (List.mem_cons_of_mem _ hr')

theorem sound_read {rs rs' : List Range} {bs : List UInt8} (hs : Sound rs)
    (h : read rs bs = some rs') : Sound rs' := by
  induction bs generalizing rs with
  | nil =>
    cases h
    exact hs
  | cons b bs ih =>
    rw [read_cons] at h
    cases hn : next rs b with
    | none => simp [hn] at h
    | some rs₁ =>
      rw [hn, Option.bind_some] at h
      exact ih (sound_next hs hn) h

/-- **The reader goes on as long as the string is the front of a well formed one.** -/
theorem read_isSome_iff (s : List UInt8) : (read [] s).isSome ↔ ∃ t, WellFormed (s ++ t) := by
  constructor
  · intro h
    obtain ⟨rs, hrs⟩ := Option.isSome_iff_exists.1 h
    have hsound : Sound rs := sound_read (fun r hr => by cases hr) hrs
    refine ⟨rs.map Range.lo, (wellFormed_iff _).2 ?_⟩
    rw [read_append, hrs, Option.bind_some]
    refine read_forall₂ (List.forall₂_iff_get.2 ⟨by simp, fun i h₁ h₂ => ?_⟩)
    simpa using hsound _ (List.get_mem rs ⟨i, h₁⟩)
  · rintro ⟨t, ht⟩
    have hall := (wellFormed_iff _).1 ht
    rw [read_append] at hall
    cases hs : read [] s with
    | none => simp [hs] at hall
    | some rs => rfl

/-- An octet of the ASCII range is a character. -/
theorem next_ascii {b : UInt8} (hb : b ≤ 0x7f) : next [] b = some [] := by
  rw [next, lead, if_pos hb]

theorem read_ascii {s : List UInt8} (hs : ∀ b ∈ s, b ≤ 0x7f) : read [] s = some [] := by
  induction s with
  | nil => rfl
  | cons b s ih =>
    rw [read_cons, next_ascii (hs b (List.mem_cons_self ..)), Option.bind_some]
    exact ih fun c hc => hs c (List.mem_cons_of_mem _ hc)

end Utf8
