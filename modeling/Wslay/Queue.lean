import Wslay.Lib.Cells

/-!
# The linked queue

`src/wslay/queue.h`: a singly linked list with a pointer to its first cell and
one to its last.  Reading or freeing what is not allocated is undefined, and
then the functions have no result.

* `Holds` — the cells that a queue reaches, and the memory around them.
* `queue_refines_list` — every sequence of calls acts on the queue as it does on a list.
* `wslayQueueFree_holds` — the destructor frees the cells of the queue and nothing else.
-/

namespace Wslay.LinkedQueue

open Cells (Cell Mem Seg lastAddr lastAddr_nil lastAddr_concat)

variable {β α : Type*}

/-- `wslay_queue`, together with the memory in which its cells are. -/
structure Queue (β α : Type*) where
  top : Option β
  tail : Option β
  mem : Mem β α

/-- `wslay_queue_new`, when it succeeds. -/
def wslayQueueNew (mem : Mem β α) : Queue β α := ⟨none, none, mem⟩

section Calls

variable [DecidableEq β]

/-- `wslay_queue_push`, where `malloc` gives `cell`. -/
def wslayQueuePush (q : Queue β α) (cell : Option β) (data : α) : Option (UInt8 × Queue β α) :=
  match cell with
  | none => some (1, q)
  | some a =>
    let mem := Function.update q.mem a (some ⟨data, none⟩)
    match q.tail with
    | some t =>
      match mem t with
      | none => none
      | some last =>
        some (0, { q with mem := Function.update mem t (some { last with next := some a }),
                          tail := some a })
    | none => some (0, ⟨some a, some a, mem⟩)

/-- `wslay_queue_push_front`, where `malloc` gives `cell`. -/
def wslayQueuePushFront (q : Queue β α) (cell : Option β) (data : α) :
    Option (UInt8 × Queue β α) :=
  match cell with
  | none => some (1, q)
  | some a =>
    some (0, { top := some a, tail := if q.tail = none then some a else q.tail,
               mem := Function.update q.mem a (some ⟨data, q.top⟩) })

/-- `wslay_queue_pop`. -/
def wslayQueuePop (q : Queue β α) : Option (UInt8 × Queue β α) :=
  match q.top with
  | none => some (1, q)
  | some a =>
    match q.mem a with
    | none => none
    | some top =>
      some (0, { top := top.next, tail := if some a = q.tail then none else q.tail,
                 mem := Function.update q.mem a none })

/-- `wslay_queue_top`. -/
def wslayQueueTop (q : Queue β α) : Option α := (q.top.bind q.mem).map Cell.data

/-- `wslay_queue_tail`. -/
def wslayQueueTail (q : Queue β α) : Option α := (q.tail.bind q.mem).map Cell.data

/-- `wslay_queue_is_empty`. -/
def wslayQueueIsEmpty (q : Queue β α) : Bool := q.top.isNone

/-- The loop of `wslay_queue_free`, for at most so many cells: the memory it
leaves. -/
def freeCells : Nat → Option β → Mem β α → Option (Mem β α)
  | _, none, mem => some mem
  | 0, some _, _ => none
  | fuel + 1, some a, mem =>
    match mem a with
    | none => none
    | some cell => freeCells fuel cell.next (Function.update mem a none)

/-! ## Calls -/

/-- A call that changes a queue, with what `malloc` gives in it. -/
inductive QueueCall (β α : Type*) where
  | push (cell : Option β) (data : α)
  | pushFront (cell : Option β) (data : α)
  | pop

/-- One call: its result, and the queue after it. -/
def QueueCall.run (q : Queue β α) : QueueCall β α → Option (UInt8 × Queue β α)
  | .push cell data => wslayQueuePush q cell data
  | .pushFront cell data => wslayQueuePushFront q cell data
  | .pop => wslayQueuePop q

/-- The same call on a list. -/
def QueueCall.onList (xs : List α) : QueueCall β α → UInt8 × List α
  | .push (some _) data => (0, xs ++ [data])
  | .pushFront (some _) data => (0, data :: xs)
  | .push none _ => (1, xs)
  | .pushFront none _ => (1, xs)
  | .pop => (if xs = [] then 1 else 0, xs.tail)

/-- Some calls, one after the other: their results, and the queue after them. -/
def runCalls (q : Queue β α) : List (QueueCall β α) → Option (List UInt8 × Queue β α)
  | [] => some ([], q)
  | call :: calls =>
    match call.run q with
    | none => none
    | some (r, q) => (runCalls q calls).map fun (rs, q) => (r :: rs, q)

/-- The same calls on a list. -/
def runOnList (xs : List α) : List (QueueCall β α) → List UInt8 × List α
  | [] => ([], xs)
  | call :: calls =>
    ((call.onList xs).1 :: (runOnList (call.onList xs).2 calls).1,
      (runOnList (call.onList xs).2 calls).2)

/-- The address that `malloc` gives in a call. -/
def QueueCall.cell : QueueCall β α → Option β
  | .push cell _ => cell
  | .pushFront cell _ => cell
  | .pop => none

/-- `malloc` never gives an address that is in use. -/
def MallocSound (q : Queue β α) : List (QueueCall β α) → Prop
  | [] => True
  | call :: calls =>
    (∀ a, call.cell = some a → q.mem a = none) ∧
      ∀ r q', call.run q = some (r, q') → MallocSound q' calls

end Calls

/-! ## The list a queue stands for -/

/-- In a memory that was `mem` at first the queue `q` has the given cells, one
after the other, and nothing else has changed. -/
structure Holds (mem : Mem β α) (q : Queue β α) (cells : List (β × α)) : Prop where
  seg : Seg q.mem q.top cells none
  tail : q.tail = lastAddr cells
  own : ∀ a ∈ cells.map Prod.fst, mem a = none
  others : ∀ a, a ∉ cells.map Prod.fst → q.mem a = mem a

variable {mem : Mem β α} {q : Queue β α} {cells : List (β × α)}

theorem holds_new (mem : Mem β α) : Holds mem (wslayQueueNew mem) [] where
  seg := .nil none
  tail := rfl
  own := by simp
  others := fun _ _ => rfl

/-- An address that is free is not one of the cells, and was free at first. -/
theorem Holds.fresh (h : Holds mem q cells) {a : β} (ha : q.mem a = none) :
    a ∉ cells.map Prod.fst ∧ mem a = none := by
  have hnot : a ∉ cells.map Prod.fst := fun hmem => h.seg.allocated a hmem ha
  exact ⟨hnot, (h.others a hnot).symm.trans ha⟩

theorem Holds.top (h : Holds mem q cells) : wslayQueueTop q = (cells.map Prod.snd).head? := by
  cases cells with
  | nil => simp [wslayQueueTop, h.seg.nil_inv]
  | cons c cells =>
    obtain ⟨htop, n, hcell, -⟩ := h.seg.cons_inv
    simp [wslayQueueTop, htop, hcell]

theorem Holds.last (h : Holds mem q cells) : wslayQueueTail q = (cells.map Prod.snd).getLast? := by
  rcases List.eq_nil_or_concat' cells with rfl | ⟨init, ⟨t, y⟩, rfl⟩
  · simp [wslayQueueTail, h.tail]
  · simp [wslayQueueTail, h.tail, h.seg.last_inv.2]

theorem Holds.isEmpty (h : Holds mem q cells) :
    wslayQueueIsEmpty q = true ↔ cells.map Prod.snd = [] := by
  cases cells with
  | nil => simp [wslayQueueIsEmpty, h.seg.nil_inv]
  | cons c cells =>
    obtain ⟨htop, -⟩ := h.seg.cons_inv
    simp [wslayQueueIsEmpty, htop]

/-! ## The calls -/

variable [DecidableEq β]

theorem Holds.push (h : Holds mem q cells) {a : β} (ha : q.mem a = none) (data : α) :
    ∃ q', wslayQueuePush q (some a) data = some (0, q') ∧ Holds mem q' (cells ++ [(a, data)]) := by
  obtain ⟨hnot, hfirst⟩ := h.fresh ha
  have hown : ∀ b ∈ (cells ++ [(a, data)]).map Prod.fst, mem b = none := by
    intro b hb
    rw [List.map_append, List.mem_append] at hb
    rcases hb with hb | hb
    · exact h.own b hb
    · rw [List.map_singleton, List.mem_singleton] at hb
      exact hb ▸ hfirst
  rcases List.eq_nil_or_concat' cells with rfl | ⟨init, ⟨t, y⟩, rfl⟩
  · -- the first cell of an empty queue
    have htail := h.tail
    rw [lastAddr_nil] at htail
    refine ⟨⟨some a, some a, Function.update q.mem a (some ⟨data, none⟩)⟩, ?_, ?_⟩
    · simp [wslayQueuePush, htail]
    · refine ⟨.cons (Function.update_self ..) (.nil none), by simp [lastAddr], hown, ?_⟩
      intro b hb
      have hba : b ≠ a := by simpa using hb
      exact (Function.update_of_ne hba _ _).trans (h.others b (by simp))
  · -- a cell after the last one
    have htail := h.tail
    rw [lastAddr_concat] at htail
    have hat : t ≠ a := by
      rintro rfl
      exact hnot (by simp)
    have hlast := h.seg.last_inv.2
    refine ⟨⟨q.top, some a, Function.update (Function.update q.mem a (some ⟨data, none⟩)) t
      (some ⟨y, some a⟩)⟩, ?_, ?_⟩
    · simp [wslayQueuePush, htail, Function.update_of_ne hat, hlast]
    · refine ⟨h.seg.push ha data, (lastAddr_concat _ a data).symm, hown, fun b hb => ?_⟩
      simp only [List.map_append, List.map_cons, List.map_nil, List.mem_append,
        List.mem_singleton, not_or] at hb
      exact ((Function.update_of_ne hb.1.2 _ _).trans (Function.update_of_ne hb.2 _ _)).trans
        (h.others b (by simp [hb.1]))

theorem Holds.pushFront (h : Holds mem q cells) {a : β} (ha : q.mem a = none) (data : α) :
    ∃ q', wslayQueuePushFront q (some a) data = some (0, q') ∧
      Holds mem q' ((a, data) :: cells) := by
  obtain ⟨hnot, hfirst⟩ := h.fresh ha
  refine ⟨_, rfl, h.seg.pushFront ha data, ?_, ?_, ?_⟩
  · simp only [h.tail]
    rcases List.eq_nil_or_concat' cells with rfl | ⟨init, ⟨t, y⟩, rfl⟩
    · rw [if_pos lastAddr_nil]
      simp [lastAddr]
    · rw [lastAddr_concat, if_neg (by simp), ← List.cons_append, lastAddr_concat]
  · intro b hb
    rw [List.map_cons, List.mem_cons] at hb
    rcases hb with rfl | hb
    · exact hfirst
    · exact h.own b hb
  · intro b hb
    rw [List.map_cons, List.mem_cons, not_or] at hb
    simp only
    rw [Function.update_of_ne hb.1]
    exact h.others b hb.2

theorem Holds.pop_nil (h : Holds mem q []) : wslayQueuePop q = some (1, q) := by
  have htop := h.seg.nil_inv
  simp [wslayQueuePop, htop]

theorem Holds.pop_cons {a : β} {x : α} (h : Holds mem q ((a, x) :: cells)) :
    ∃ q', wslayQueuePop q = some (0, q') ∧ Holds mem q' cells := by
  obtain ⟨htop, -⟩ := h.seg.cons_inv
  obtain ⟨n, hcell, hrest⟩ := h.seg.pop
  have hnodup := h.seg.nodup
  rw [List.map_cons, List.nodup_cons] at hnodup
  refine ⟨{ top := n, tail := if some a = q.tail then none else q.tail,
            mem := Function.update q.mem a none }, by simp [wslayQueuePop, htop, hcell],
    hrest, ?_, fun b hb => h.own b (List.mem_cons_of_mem _ hb), ?_⟩
  · -- the first cell is the last one too exactly when it is the only one
    simp only [h.tail]
    rcases List.eq_nil_or_concat' cells with rfl | ⟨init, ⟨t, y⟩, rfl⟩
    · simp [lastAddr]
    · have hat : a ≠ t := by
        rintro rfl
        exact hnodup.1 (by simp)
      rw [← List.cons_append, lastAddr_concat, lastAddr_concat, if_neg (by simpa using hat)]
  · intro b hb
    simp only
    by_cases hab : b = a
    · subst hab
      rw [Function.update_self, h.own b (List.mem_cons_self ..)]
    · rw [Function.update_of_ne hab]
      exact h.others b (by simpa [hab] using hb)

/-- **One call** gives a queue the result it gives a list, and keeps it standing
for that list. -/
theorem Holds.call (h : Holds mem q cells) {call : QueueCall β α}
    (hfree : ∀ a, call.cell = some a → q.mem a = none) :
    ∃ q' cells', call.run q = some ((call.onList (cells.map Prod.snd)).1, q') ∧
      Holds mem q' cells' ∧ cells'.map Prod.snd = (call.onList (cells.map Prod.snd)).2 := by
  cases call with
  | push cell data =>
    cases cell with
    | none => exact ⟨q, cells, rfl, h, rfl⟩
    | some a =>
      obtain ⟨q', hrun, h'⟩ := h.push (hfree a rfl) data
      exact ⟨q', _, hrun, h', by simp [QueueCall.onList]⟩
  | pushFront cell data =>
    cases cell with
    | none => exact ⟨q, cells, rfl, h, rfl⟩
    | some a =>
      obtain ⟨q', hrun, h'⟩ := h.pushFront (hfree a rfl) data
      exact ⟨q', _, hrun, h', rfl⟩
  | pop =>
    cases cells with
    | nil => exact ⟨q, [], h.pop_nil, h, rfl⟩
    | cons c cells =>
      obtain ⟨q', hrun, h'⟩ := h.pop_cons
      exact ⟨q', cells, hrun, h', rfl⟩

theorem Holds.calls (h : Holds mem q cells) {calls : List (QueueCall β α)}
    (hsound : MallocSound q calls) :
    ∃ q' cells', runCalls q calls = some ((runOnList (cells.map Prod.snd) calls).1, q') ∧
      Holds mem q' cells' ∧ cells'.map Prod.snd = (runOnList (cells.map Prod.snd) calls).2 := by
  induction calls generalizing q cells with
  | nil => exact ⟨q, cells, rfl, h, rfl⟩
  | cons call calls ih =>
    obtain ⟨hfree, hrest⟩ := hsound
    obtain ⟨q₁, cells₁, hrun, h₁, hdata⟩ := h.call hfree
    obtain ⟨q', cells', hruns, h', hdata'⟩ := ih h₁ (hrest _ _ hrun)
    rw [hdata] at hruns hdata'
    refine ⟨q', cells', ?_, h', hdata'⟩
    simp only [runCalls, hrun, hruns, Option.map_some, runOnList]

/-- The destructor frees the cells of the queue and touches nothing else. -/
theorem wslayQueueFree_holds (h : Holds mem q cells) :
    freeCells cells.length q.top q.mem = some mem := by
  induction cells generalizing q with
  | nil =>
    rw [h.seg.nil_inv]
    simp only [freeCells, Option.some.injEq]
    exact funext fun a => h.others a (by simp)
  | cons c cells ih =>
    obtain ⟨a, x⟩ := c
    obtain ⟨htop, -⟩ := h.seg.cons_inv
    obtain ⟨n, hcell, -⟩ := h.seg.pop
    obtain ⟨q', hpop, h'⟩ := h.pop_cons
    simp only [wslayQueuePop, htop, hcell, Option.some.injEq, Prod.mk.injEq, true_and] at hpop
    subst hpop
    rw [htop, List.length_cons, freeCells, hcell]
    exact ih h'

/-- **The linked queue refines a list.**  After any calls, any of which may find
no memory, the pointers lead from `top` through finitely many distinct cells to
the one `tail` points to; these hold the list that the same calls make of the
empty list, every call has given the result it gives on lists, and nothing else
in the memory has changed.  Freeing the queue leaves the memory as it was. -/
theorem queue_refines_list (mem : Mem β α) (calls : List (QueueCall β α))
    (hsound : MallocSound (wslayQueueNew mem) calls) :
    ∃ q cells, runCalls (wslayQueueNew mem) calls = some ((runOnList [] calls).1, q) ∧
      Seg q.mem q.top cells none ∧ (cells.map Prod.fst).Nodup ∧
      q.tail = cells.getLast?.map Prod.fst ∧
      (cells = [] → q.top = none ∧ q.tail = none) ∧
      cells.map Prod.snd = (runOnList [] calls).2 ∧
      wslayQueueTop q = (runOnList [] calls).2.head? ∧
      wslayQueueTail q = (runOnList [] calls).2.getLast? ∧
      (wslayQueueIsEmpty q = true ↔ (runOnList [] calls).2 = []) ∧
      (∀ a ∈ cells.map Prod.fst, mem a = none) ∧
      (∀ a, a ∉ cells.map Prod.fst → q.mem a = mem a) ∧
      freeCells cells.length q.top q.mem = some mem := by
  obtain ⟨q, cells, hrun, h, hdata⟩ := (holds_new mem).calls hsound
  rw [List.map_nil] at hrun hdata
  refine ⟨q, cells, hrun, h.seg, h.seg.nodup, h.tail, ?_, hdata, ?_, ?_, ?_, h.own, h.others,
    wslayQueueFree_holds h⟩
  · rintro rfl
    exact ⟨h.seg.nil_inv, h.tail⟩
  · rw [← hdata]
    exact h.top
  · rw [← hdata]
    exact h.last
  · rw [← hdata]
    exact h.isEmpty

/-- Emptied, then filled from the front and from the end, with one call that finds
no memory; the address that was freed is given out again. -/
def mixedCalls : List (QueueCall Nat Nat) :=
  [.push (some 7) 10, .pop, .pushFront (some 7) 20, .push (some 8) 30, .push none 40]

theorem queue_refines_list_mixed :
    MallocSound (wslayQueueNew fun _ => none) mixedCalls ∧
      ∃ q, runCalls (wslayQueueNew fun _ => none) mixedCalls = some ([0, 0, 0, 0, 1], q) ∧
        wslayQueueTop q = some 20 ∧ wslayQueueTail q = some 30 := by
  have hsound : MallocSound (wslayQueueNew fun _ => none) mixedCalls := by
    simp [mixedCalls, MallocSound, QueueCall.cell, QueueCall.run, wslayQueueNew, wslayQueuePush,
      wslayQueuePushFront, wslayQueuePop, Function.update]
  obtain ⟨q, cells, hrun, -, -, -, -, -, htop, htail, -⟩ :=
    queue_refines_list (fun _ => none) mixedCalls hsound
  exact ⟨hsound, q, hrun, htop, htail⟩

end Wslay.LinkedQueue
