import Mathlib.Logic.Function.Iterate
import Mathlib.Logic.Relation

/-!
# Loops with early exit

`while` loops whose body either goes round again or leaves the function with a
result.  `run` is the loop cut off after a number of passes; the rules say what
a body that keeps an invariant, or that lowers a measure on every pass, gives
for the whole loop.
-/

namespace Loop

variable {σ ρ : Type*}

/-- What one pass of a loop body does. -/
inductive Step (σ ρ : Type*) where
  /-- Go round again. -/
  | again (s : σ)
  /-- Leave the loop with a result. -/
  | leave (r : ρ) (s : σ)
  deriving DecidableEq

namespace Step

/-- One piece of a loop body after another. -/
def andThen (x : Step σ ρ) (f : σ → Step σ ρ) : Step σ ρ :=
  match x with
  | .again s => f s
  | .leave r s => .leave r s

@[simp] theorem andThen_again (s : σ) (f : σ → Step σ ρ) : andThen (.again s) f = f s := rfl

@[simp] theorem andThen_leave (r : ρ) (s : σ) (f : σ → Step σ ρ) :
    andThen (.leave r s) f = .leave r s := rfl

/-- The state a pass ends in, whichever way it ends. -/
def state : Step σ ρ → σ
  | .again s => s
  | .leave _ s => s

@[simp] theorem state_again (s : σ) : (.again s : Step σ ρ).state = s := rfl

@[simp] theorem state_leave (r : ρ) (s : σ) : (.leave r s : Step σ ρ).state = s := rfl

/-- A property of the state a pass ends in, whichever way it ends. -/
def All (P : σ → Prop) : Step σ ρ → Prop
  | .again s => P s
  | .leave _ s => P s

@[simp] theorem all_again (P : σ → Prop) (s : σ) : All P (.again s : Step σ ρ) ↔ P s := Iff.rfl

@[simp] theorem all_leave (P : σ → Prop) (r : ρ) (s : σ) :
    All P (.leave r s : Step σ ρ) ↔ P s := Iff.rfl

theorem all_iff (P : σ → Prop) (x : Step σ ρ) : All P x ↔ P x.state := by
  cases x <;> rfl

theorem All.andThen {P Q : σ → Prop} {x : Step σ ρ} {f : σ → Step σ ρ} (hx : All P x)
    (hPQ : ∀ s, P s → Q s) (hf : ∀ s, P s → All Q (f s)) : All Q (x.andThen f) := by
  cases x with
  | again s => exact hf s hx
  | leave r s => exact hPQ s hx

/-- The pass, its states seen through `f`. -/
def map {σ' : Type*} (f : σ → σ') : Step σ ρ → Step σ' ρ
  | .again s => .again (f s)
  | .leave r s => .leave r (f s)

@[simp] theorem map_again {σ' : Type*} (f : σ → σ') (s : σ) :
    (.again s : Step σ ρ).map f = .again (f s) := rfl

@[simp] theorem map_leave {σ' : Type*} (f : σ → σ') (r : ρ) (s : σ) :
    (.leave r s : Step σ ρ).map f = .leave r (f s) := rfl

theorem map_andThen {σ' : Type*} {f : σ → σ'} {x : Step σ ρ} {k : σ → Step σ ρ}
    {k' : σ' → Step σ' ρ} (hk : ∀ s, x = .again s → k' (f s) = (k s).map f) :
    (x.map f).andThen k' = (x.andThen k).map f := by
  cases x with
  | again s => exact hk s rfl
  | leave r s => rfl

/-- Whenever the pass leaves, `P` allows its result and its state. -/
def Exits (P : ρ → σ → Prop) (x : Step σ ρ) : Prop := ∀ r s, x = .leave r s → P r s

theorem exits_again (P : ρ → σ → Prop) (s : σ) : Exits P (.again s) := by
  intro r t h
  cases h

theorem exits_leave {P : ρ → σ → Prop} {r : ρ} {s : σ} (h : P r s) : Exits P (.leave r s) := by
  intro r' s' heq
  cases heq
  exact h

theorem Exits.andThen {P : ρ → σ → Prop} {x : Step σ ρ} {f : σ → Step σ ρ} (hx : Exits P x)
    (hf : ∀ s, Exits P (f s)) : Exits P (x.andThen f) := by
  cases x with
  | again s => exact hf s
  | leave r s => exact hx

end Step

/-- The loop with body `step`, for at most the given number of passes. -/
def run (step : σ → Step σ ρ) : Nat → σ → Option (ρ × σ)
  | 0, _ => none
  | n + 1, s =>
    match step s with
    | .again s' => run step n s'
    | .leave r s' => some (r, s')

variable {step : σ → Step σ ρ}

theorem run_succ_again {n : Nat} {s s' : σ} (h : step s = .again s') :
    run step (n + 1) s = run step n s' := by
  rw [run, h]

theorem run_succ_leave {n : Nat} {s s' : σ} {r : ρ} (h : step s = .leave r s') :
    run step (n + 1) s = some (r, s') := by
  rw [run, h]

/-- **The invariant rule.**  What every pass keeps, the loop keeps. -/
theorem run_inv {P : σ → Prop} (hstep : ∀ s, P s → (step s).All P) :
    ∀ {n : Nat} {s s' : σ} {r : ρ}, P s → run step n s = some (r, s') → P s' := by
  intro n
  induction n with
  | zero => intro s s' r _ h; simp [run] at h
  | succ n ih =>
    intro s s' r hs h
    have hp := hstep s hs
    cases hx : step s with
    | again t =>
      rw [hx] at hp
      rw [run_succ_again hx] at h
      exact ih hp h
    | leave r' t =>
      rw [hx] at hp
      rw [run_succ_leave hx] at h
      cases h
      exact hp

/-- **The exit rule.**  If every pass that goes round keeps `P`, and every pass
that leaves establishes `Q`, the loop establishes `Q`. -/
theorem run_exit {P : σ → Prop} {Q : ρ → σ → Prop}
    (hagain : ∀ s t, P s → step s = .again t → P t)
    (hleave : ∀ s r t, P s → step s = .leave r t → Q r t) :
    ∀ {n : Nat} {s s' : σ} {r : ρ}, P s → run step n s = some (r, s') → Q r s' := by
  intro n
  induction n with
  | zero => intro s s' r _ h; simp [run] at h
  | succ n ih =>
    intro s s' r hs h
    cases hx : step s with
    | again t =>
      rw [run_succ_again hx] at h
      exact ih (hagain s t hs hx) h
    | leave r' t =>
      rw [run_succ_leave hx] at h
      cases h
      exact hleave s _ _ hs hx

/-- **The measure rule.**  A loop whose body lowers a measure whenever it goes
round ends within that many passes, and one more. -/
theorem run_isSome {P : σ → Prop} {μ : σ → Nat}
    (hagain : ∀ s t, P s → step s = .again t → P t ∧ μ t < μ s) :
    ∀ {n : Nat} {s : σ}, P s → μ s < n → (run step n s).isSome := by
  intro n
  induction n with
  | zero => intro s _ h; omega
  | succ n ih =>
    intro s hs h
    cases hx : step s with
    | again t =>
      obtain ⟨ht, hlt⟩ := hagain s t hs hx
      rw [run_succ_again hx]
      exact ih ht (by omega)
    | leave r t => rw [run_succ_leave hx]; rfl

/-- More passes than needed change nothing. -/
theorem run_mono {m n : Nat} (hmn : m ≤ n) {s : σ} {x : ρ × σ} (h : run step m s = some x) :
    run step n s = some x := by
  induction m generalizing n s with
  | zero => simp [run] at h
  | succ m ih =>
    obtain ⟨k, rfl⟩ : ∃ k, n = k + 1 := ⟨n - 1, by omega⟩
    cases hx : step s with
    | again t =>
      rw [run_succ_again hx] at h ⊢
      exact ih (by omega) h
    | leave r t => rw [run_succ_leave hx] at h ⊢; exact h

/-- **The rule of two loops.**  Two loops whose passes go round together, or else come
to results that belong together, come to results that belong together. -/
theorem run_both {σ' ρ' : Type*} {step' : σ' → Step σ' ρ'} {R : σ → σ' → Prop}
    {Q : ρ × σ → ρ' × σ' → Prop}
    (hstep : ∀ s s', R s s' →
      (∃ t t', step s = .again t ∧ step' s' = .again t' ∧ R t t') ∨
        ∀ n m x y, run step n s = some x → run step' m s' = some y → Q x y) :
    ∀ {n m : Nat} {s : σ} {s' : σ'} {x : ρ × σ} {y : ρ' × σ'}, R s s' →
      run step n s = some x → run step' m s' = some y → Q x y := by
  intro n
  induction n with
  | zero => intro m s s' x y _ hx; simp [run] at hx
  | succ n ih =>
    intro m s s' x y hs hx hy
    rcases hstep s s' hs with ⟨t, t', ht, ht', hr⟩ | hend
    · cases m with
      | zero => simp [run] at hy
      | succ m =>
        rw [run_succ_again ht] at hx
        rw [run_succ_again ht'] at hy
        exact ih hr hx hy
    · exact hend _ _ x y hx hy

/-- **The rule of the image.**  A loop whose passes are the images of those of another
comes to the image of its result. -/
theorem run_map {σ' : Type*} {step' : σ' → Step σ' ρ} {f : σ → σ'} {P : σ → Prop}
    (hstep : ∀ s, P s → step' (f s) = (step s).map f)
    (hagain : ∀ s t, P s → step s = .again t → P t) :
    ∀ {n : Nat} {s : σ}, P s → run step' n (f s) = (run step n s).map fun x => (x.1, f x.2) := by
  intro n
  induction n with
  | zero => intro s _; rfl
  | succ n ih =>
    intro s hs
    have hx := hstep s hs
    cases h : step s with
    | again t =>
      rw [h, Step.map_again] at hx
      rw [run_succ_again h, run_succ_again hx]
      exact ih (hagain s t hs h)
    | leave r t =>
      rw [h, Step.map_leave] at hx
      rw [run_succ_leave h, run_succ_leave hx]
      rfl

/-! ## The passes of a loop -/

/-- The loop that begins in `s` comes to a pass that begins in `t`. -/
def Reaches (step : σ → Step σ ρ) : σ → σ → Prop :=
  Relation.ReflTransGen fun s t => step s = .again t

theorem Reaches.inv {P : σ → Prop} (hagain : ∀ s t, P s → step s = .again t → P t) {s t : σ}
    (h : Reaches step s t) (hs : P s) : P t := by
  induction h with
  | refl => exact hs
  | tail _ hstep ih => exact hagain _ _ ih hstep

/-- The passes of the image are the images of the passes. -/
theorem Reaches.of_map {σ' : Type*} {step' : σ' → Step σ' ρ} {f : σ → σ'} {P : σ → Prop}
    (hstep : ∀ s, P s → step' (f s) = (step s).map f)
    (hagain : ∀ s t, P s → step s = .again t → P t) {s : σ} {t' : σ'} (hs : P s)
    (h : Reaches step' (f s) t') : ∃ t, Reaches step s t ∧ P t ∧ t' = f t := by
  induction h with
  | refl => exact ⟨s, .refl, hs, rfl⟩
  | tail _ hlast ih =>
    obtain ⟨t, ht, hp, rfl⟩ := ih
    rw [hstep t hp] at hlast
    cases h : step t with
    | again u =>
      rw [h] at hlast
      cases hlast
      exact ⟨u, ht.tail h, hagain t u hp h, rfl⟩
    | leave r u =>
      rw [h] at hlast
      cases hlast

/-- Where a loop has lost a property, there was a pass that lost it. -/
theorem Reaches.first {P : σ → Prop} {s t : σ} (h : Reaches step s t) (hs : P s) (ht : ¬ P t) :
    ∃ u v, Reaches step s u ∧ P u ∧ step u = .again v ∧ ¬ P v ∧ Reaches step v t := by
  induction h with
  | refl => exact absurd hs ht
  | @tail b c hb hstep ih =>
    by_cases hp : P b
    · exact ⟨b, c, hb, hp, hstep, ht, .refl⟩
    · obtain ⟨u, v, hu, hpu, huv, hv, hvb⟩ := ih hp
      exact ⟨u, v, hu, hpu, huv, hv, hvb.tail hstep⟩

/-- A loop ends with its last pass. -/
theorem run_leaves {n : Nat} {s s' : σ} {r : ρ} (h : run step n s = some (r, s')) :
    ∃ t, Reaches step s t ∧ step t = .leave r s' := by
  induction n generalizing s with
  | zero => simp [run] at h
  | succ n ih =>
    cases hx : step s with
    | again u =>
      rw [run_succ_again hx] at h
      obtain ⟨t, ht, hlast⟩ := ih h
      exact ⟨t, .head hx ht, hlast⟩
    | leave r' u =>
      rw [run_succ_leave hx] at h
      cases h
      exact ⟨s, .refl, hx⟩

/-- A loop that comes to a pass ends as it does from there on. -/
theorem Reaches.run_leaves {n : Nat} {s s' t : σ} {r : ρ} (ht : Reaches step s t)
    (h : run step n s = some (r, s')) : ∃ u, Reaches step t u ∧ step u = .leave r s' := by
  induction ht with
  | refl => exact Loop.run_leaves h
  | @tail a b _ hab ih =>
    obtain ⟨u, hu, hlast⟩ := ih
    rcases Relation.ReflTransGen.cases_head hu with rfl | ⟨v, hv, hvu⟩
    · rw [hab] at hlast
      cases hlast
    · rw [hab] at hv
      cases hv
      exact ⟨u, hvu, hlast⟩

/-- A loop that leaves at once has no other pass. -/
theorem Reaches.of_leave {s t u : σ} {r : ρ} (hx : step s = .leave r u) (h : Reaches step s t) :
    t = s := by
  rcases Relation.ReflTransGen.cases_head h with rfl | ⟨v, hv, -⟩
  · rfl
  · rw [hx] at hv
    cases hv

/-- **The rule of the constant quantity.**  A quantity that no pass lowers is
the same after a loop as before it if and only if every pass has kept it. -/
theorem run_const_iff {μ : σ → Nat} (hmono : ∀ s, μ s ≤ μ (step s).state) :
    ∀ {n : Nat} {s s' : σ} {r : ρ}, run step n s = some (r, s') →
      (μ s' = μ s ↔ ∀ t, Reaches step s t → μ (step t).state = μ t) := by
  have hrun : ∀ {n : Nat} {s s' : σ} {r : ρ}, run step n s = some (r, s') → μ s ≤ μ s' := by
    intro n s s' r h
    exact run_exit (Q := fun _ t => μ s ≤ μ t) (P := fun t => μ s ≤ μ t)
      (fun a b ha hab => by
        have := hmono a
        rw [hab, Step.state_again] at this
        omega)
      (fun a r b ha hab => by
        have := hmono a
        rw [hab, Step.state_leave] at this
        omega) (Nat.le_refl _) h
  intro n
  induction n with
  | zero => intro s s' r h; simp [run] at h
  | succ n ih =>
    intro s s' r h
    have hfirst := hmono s
    cases hx : step s with
    | again u =>
      rw [hx, Step.state_again] at hfirst
      rw [run_succ_again hx] at h
      have hrest := hrun h
      constructor
      · intro heq t ht
        rcases Relation.ReflTransGen.cases_head ht with rfl | ⟨v, hv, ht⟩
        · rw [hx, Step.state_again]
          omega
        · rw [hx] at hv
          cases hv
          exact (ih h).1 (by omega) t ht
      · intro hall
        have hs := hall s .refl
        rw [hx, Step.state_again] at hs
        have hu := (ih h).2 fun t ht => hall t (.head hx ht)
        omega
    | leave r' u =>
      rw [run_succ_leave hx] at h
      cases h
      constructor
      · intro heq t ht
        rcases Relation.ReflTransGen.cases_head ht with rfl | ⟨v, hv, -⟩
        · rw [hx, Step.state_leave]
          exact heq
        · rw [hx] at hv
          cases hv
      · intro hall
        have hs := hall s .refl
        rwa [hx, Step.state_leave] at hs

/-! ## Calls that get on -/

/-- **The rule of progress.**  Where every call keeps `P`, and either brings about `Q` or
lowers a measure, `Q` is brought about by so many calls, or one more. -/
theorem iterate_reaches {f : σ → σ} {P Q : σ → Prop} {μ : σ → Nat} (hkeep : ∀ s, P s → P (f s))
    (hstep : ∀ s, P s → Q (f s) ∨ μ (f s) < μ s) {s : σ} (hs : P s) :
    ∃ k ≤ μ s + 1, P (f^[k] s) ∧ Q (f^[k] s) := by
  induction hn : μ s using Nat.strongRecOn generalizing s with
  | ind n ih =>
    rcases hstep s hs with hq | hlt
    · exact ⟨1, Nat.le_add_left _ _, hkeep s hs, hq⟩
    · obtain ⟨k, hk, hkp, hkq⟩ := ih _ (hn ▸ hlt) (hkeep s hs) rfl
      exact ⟨k + 1, by omega, hkp, hkq⟩

/-- **The rule of progress in company.**  Where all events keep `P`, keep `Q` once it
holds, and do not raise a measure, and the event `a` brings about `Q` or lowers the measure,
`Q` holds after a run in which `a` has occurred often enough. -/
theorem foldl_reaches {ι : Type*} [DecidableEq ι] {f : σ → ι → σ} {ok : ι → Prop} {a : ι}
    {P Q : σ → Prop} {μ : σ → Nat} (hkeep : ∀ s x, ok x → P s → P (f s x))
    (hstay : ∀ s x, ok x → P s → Q s → Q (f s x))
    (hmono : ∀ s x, ok x → P s → Q (f s x) ∨ μ (f s x) ≤ μ s)
    (hstep : ∀ s, P s → Q (f s a) ∨ μ (f s a) < μ s) {xs : List ι} {s : σ} (hok : ∀ x ∈ xs, ok x)
    (hs : P s) (hq : Q s ∨ μ s < xs.count a) : Q (xs.foldl f s) := by
  induction xs generalizing s with
  | nil =>
    rcases hq with hq | hlt
    · exact hq
    · exact absurd hlt (Nat.not_lt_zero _)
  | cons x xs ih =>
    have hx : ok x := hok x List.mem_cons_self
    apply ih (fun y hy => hok y (List.mem_cons_of_mem _ hy)) (hkeep s x hx hs)
    rcases hq with hq | hlt
    · exact Or.inl (hstay s x hx hs hq)
    · by_cases hxa : x = a
      · subst hxa
        rw [List.count_cons_self] at hlt
        rcases hstep s hs with hq | hless
        · exact Or.inl hq
        · exact Or.inr (by omega)
      · rw [List.count_cons_of_ne hxa] at hlt
        rcases hmono s x hx hs with hq | hle
        · exact Or.inl hq
        · exact Or.inr (Nat.lt_of_le_of_lt hle hlt)

end Loop
