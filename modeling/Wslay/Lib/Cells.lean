import Mathlib.Data.List.Infix
import Mathlib.Logic.Function.Basic

/-!
# Singly linked cells

A memory maps addresses to cells, each with a datum and the address of the next
one.  `Seg m p cells q` says that following the pointers from `p` one meets
`cells`, in that order, and arrives at `q`; a list that ends is a segment that
arrives at no address.

* `Seg.congr` — a segment depends on its own cells only.
* `Seg.unique`, `Seg.nodup` — a list that ends is finite and has no cycle.
-/

namespace Cells

variable {β α : Type*}

/-- A cell with the address of the next one. -/
structure Cell (β α : Type*) where
  data : α
  next : Option β
  deriving DecidableEq, Repr

/-- What is allocated at each address. -/
abbrev Mem (β α : Type*) := β → Option (Cell β α)

/-- From `p` the pointers lead through the given cells to `q`. -/
inductive Seg (m : Mem β α) : Option β → List (β × α) → Option β → Prop
  | nil (p : Option β) : Seg m p [] p
  | cons {a : β} {x : α} {n q : Option β} {cells : List (β × α)} :
      m a = some ⟨x, n⟩ → Seg m n cells q → Seg m (some a) ((a, x) :: cells) q

/-- The address of the last of some cells. -/
def lastAddr (cells : List (β × α)) : Option β := cells.getLast?.map Prod.fst

@[simp] theorem lastAddr_nil : lastAddr ([] : List (β × α)) = none := rfl

@[simp] theorem lastAddr_concat (cells : List (β × α)) (a : β) (x : α) :
    lastAddr (cells ++ [(a, x)]) = some a := by
  simp [lastAddr]

namespace Seg

variable {m m' : Mem β α} {p q r : Option β} {cells cells' : List (β × α)} {a : β} {x : α}

theorem append (h : Seg m p cells q) (h' : Seg m q cells' r) : Seg m p (cells ++ cells') r := by
  induction h with
  | nil => exact h'
  | cons hm _ ih => exact .cons hm (ih h')

theorem split (h : Seg m p (cells ++ cells') r) : ∃ q, Seg m p cells q ∧ Seg m q cells' r := by
  induction cells generalizing p with
  | nil => exact ⟨p, .nil p, h⟩
  | cons c cells ih =>
    cases h with
    | cons hm hrest =>
      obtain ⟨q, hfirst, hlast⟩ := ih hrest
      exact ⟨q, .cons hm hfirst, hlast⟩

theorem nil_inv (h : Seg m p [] q) : p = q := by
  cases h
  rfl

theorem cons_inv (h : Seg m p ((a, x) :: cells) q) :
    p = some a ∧ ∃ n, m a = some ⟨x, n⟩ ∧ Seg m n cells q := by
  cases h with
  | cons hm hrest => exact ⟨rfl, _, hm, hrest⟩

/-- The last cell of a list holds its datum and no further address. -/
theorem last_inv (h : Seg m p (cells ++ [(a, x)]) none) :
    Seg m p cells (some a) ∧ m a = some ⟨x, none⟩ := by
  obtain ⟨q, hfirst, hlast⟩ := h.split
  obtain ⟨rfl, n, hm, hnil⟩ := hlast.cons_inv
  rw [hnil.nil_inv] at hm
  exact ⟨hfirst, hm⟩

/-- What a segment goes through is allocated. -/
theorem allocated (h : Seg m p cells q) : ∀ a ∈ cells.map Prod.fst, m a ≠ none := by
  induction h with
  | nil => simp
  | cons hm _ ih =>
    intro b hb
    rw [List.map_cons, List.mem_cons] at hb
    rcases hb with rfl | hb
    · rw [hm]
      simp
    · exact ih b hb

/-- A segment depends on its own cells only. -/
theorem congr (h : Seg m p cells q) (hm : ∀ a ∈ cells.map Prod.fst, m' a = m a) :
    Seg m' p cells q := by
  induction h with
  | nil => exact .nil _
  | cons ha _ ih =>
    refine .cons ?_ (ih fun b hb => hm b (List.mem_cons_of_mem _ hb))
    rw [hm _ (List.mem_cons_self ..), ha]

/-- There is one way to follow the pointers to their end. -/
theorem unique (h : Seg m p cells none) (h' : Seg m p cells' none) : cells = cells' := by
  induction cells generalizing p cells' with
  | nil =>
    rw [h.nil_inv] at h'
    cases h'
    rfl
  | cons c cells ih =>
    obtain ⟨a, x⟩ := c
    obtain ⟨rfl, n, hm, hrest⟩ := h.cons_inv
    cases h' with
    | cons hm' hrest' =>
      rw [hm] at hm'
      cases hm'
      rw [ih hrest hrest']

/-- A list that ends has no cycle. -/
theorem nodup (h : Seg m p cells none) : (cells.map Prod.fst).Nodup := by
  induction cells generalizing p with
  | nil => exact List.nodup_nil
  | cons c cells ih =>
    obtain ⟨a, x⟩ := c
    obtain ⟨rfl, n, hm, hrest⟩ := h.cons_inv
    rw [List.map_cons, List.nodup_cons]
    refine ⟨fun hmem => ?_, ih hrest⟩
    -- the list that begins at the second visit is the list that begins at the first
    obtain ⟨⟨b, y⟩, hb, rfl⟩ := List.mem_map.1 hmem
    obtain ⟨before, after, rfl⟩ := List.append_of_mem hb
    obtain ⟨q, -, hagain⟩ := hrest.split
    obtain ⟨rfl, -⟩ := hagain.cons_inv
    have hlen := congrArg List.length (h.unique hagain)
    simp only [List.length_cons, List.length_append] at hlen
    omega

variable [DecidableEq β]

/-- Writing elsewhere keeps a segment. -/
theorem update (h : Seg m p cells q) (ha : a ∉ cells.map Prod.fst) (c : Option (Cell β α)) :
    Seg (Function.update m a c) p cells q := by
  refine h.congr fun b hb => Function.update_of_ne ?_ _ _
  rintro rfl
  exact ha hb

/-- A new cell in front. -/
theorem pushFront (h : Seg m p cells none) (ha : m a = none) (x : α) :
    Seg (Function.update m a (some ⟨x, p⟩)) (some a) ((a, x) :: cells) none :=
  .cons (Function.update_self ..) (h.update (fun hmem => h.allocated a hmem ha) _)

/-- A new cell at the end of a list that is not empty. -/
theorem push {t : β} {y : α} (h : Seg m p (cells ++ [(t, y)]) none) (ha : m a = none) (x : α) :
    Seg (Function.update (Function.update m a (some ⟨x, none⟩)) t (some ⟨y, some a⟩)) p
      (cells ++ [(t, y)] ++ [(a, x)]) none := by
  have hfresh : a ∉ (cells ++ [(t, y)]).map Prod.fst := fun hmem => h.allocated a hmem ha
  have hnodup := h.nodup
  rw [List.map_append, List.nodup_append] at hnodup
  obtain ⟨-, -, hdisjoint⟩ := hnodup
  simp only [List.map_append, List.map_cons, List.map_nil, List.mem_append, List.mem_singleton,
    not_or] at hfresh
  have hlast : t ∉ cells.map Prod.fst := fun hmem => hdisjoint t hmem t (by simp) rfl
  have hfirst := ((h.last_inv.1.update hfresh.1 (some ⟨x, none⟩))).update hlast (some ⟨y, some a⟩)
  refine (hfirst.append (.cons (Function.update_self ..) (.nil _))).append
    (.cons ?_ (.nil none))
  rw [Function.update_of_ne hfresh.2, Function.update_self]

/-- The first cell taken away and freed. -/
theorem pop (h : Seg m p ((a, x) :: cells) none) :
    ∃ n, m a = some ⟨x, n⟩ ∧ Seg (Function.update m a none) n cells none := by
  obtain ⟨rfl, n, hm, hrest⟩ := h.cons_inv
  have hnodup := h.nodup
  rw [List.map_cons, List.nodup_cons] at hnodup
  exact ⟨n, hm, hrest.update hnodup.1 none⟩

end Seg

end Cells
