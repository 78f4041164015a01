import Mathlib.Data.List.Basic

/-!
# Iterators that look ahead

An iterator over the elements of a list that are valid. It says of each whether another one
follows, and so it is always one element ahead: what it has found is stashed until the next one is
found, or the list is over.

Its calls return what one expects of them if what is valid does not change between them.

## Main definitions

* `Peekable.next` — one call
* `outcomes` — the elements of a list, each with whether another one follows
* `Peekable.pending` — the elements still to be returned

## Main results

* `Peekable.next_fst`, `Peekable.pending_next` — what a call returns, and what is left
-/

set_option autoImplicit false

namespace Cargo.Math

variable {α : Type*}

/-- The elements of a list in order, each with whether another one follows. -/
def outcomes : List α → List (α × Bool)
  | [] => []
  | a :: l => (a, !l.isEmpty) :: outcomes l

@[simp] theorem outcomes_nil : outcomes ([] : List α) = [] := rfl

@[simp] theorem length_outcomes (l : List α) : (outcomes l).length = l.length := by
  induction l with
  | nil => rfl
  | cons a l ih => rw [outcomes, List.length_cons, List.length_cons, ih]

theorem outcomes_tail (l : List α) : outcomes l.tail = (outcomes l).tail := by
  cases l <;> rfl

theorem outcomes_head?_eq_none {l : List α} : (outcomes l).head? = none ↔ l = [] := by
  cases l <;> simp [outcomes]

theorem map_fst_outcomes (l : List α) : (outcomes l).map Prod.fst = l := by
  induction l with
  | nil => rfl
  | cons a l ih => rw [outcomes, List.map_cons, ih]

theorem outcomes_injective : Function.Injective (outcomes : List α → List (α × Bool)) := by
  intro l l' h
  rw [← map_fst_outcomes l, h, map_fst_outcomes]

/-- What is left of a list, and an element that was taken from it and is valid. -/
structure Peekable (α : Type*) where
  remaining : List α
  stash : Option α

namespace Peekable

variable (valid : α → Bool)

/-- The loop of a call. -/
def nextLoop : List α → Option α → Option (α × Bool) × Peekable α
  | [], stash => (stash.map fun r => (r, false), ⟨[], none⟩)
  | a :: rest, stash =>
    if valid a then
      match stash with
      | some r => (some (r, true), ⟨rest, some a⟩)
      | none => nextLoop rest (some a)
    else nextLoop rest stash

/-- One call: the next element with whether another one follows. -/
def next (s : Peekable α) : Option (α × Bool) × Peekable α := nextLoop valid s.remaining s.stash

/-- The elements still to be returned. -/
def pending (s : Peekable α) : List α := s.stash.toList ++ s.remaining.filter valid

theorem nextLoop_spec (rest : List α) (stash : Option α) :
    (nextLoop valid rest stash).1 = (outcomes (pending valid ⟨rest, stash⟩)).head? ∧
      pending valid (nextLoop valid rest stash).2 = (pending valid ⟨rest, stash⟩).tail := by
  induction rest generalizing stash with
  | nil => cases stash <;> exact ⟨rfl, rfl⟩
  | cons a rest ih =>
    rw [nextLoop.eq_def]
    dsimp only
    by_cases ha : valid a = true
    · rw [if_pos ha]
      cases stash with
      | some r =>
        have hpending : pending valid ⟨a :: rest, some r⟩ = r :: a :: rest.filter valid := by
          rw [pending, List.filter_cons_of_pos ha]
          rfl
        rw [hpending]
        exact ⟨rfl, rfl⟩
      | none =>
        -- the element is stashed, and stays the first one
        have hpending : pending valid ⟨a :: rest, none⟩ = pending valid ⟨rest, some a⟩ := by
          rw [pending, List.filter_cons_of_pos ha]
          rfl
        rw [hpending]
        exact ih (some a)
    · rw [if_neg ha]
      have hpending : pending valid ⟨a :: rest, stash⟩ = pending valid ⟨rest, stash⟩ := by
        rw [pending, List.filter_cons_of_neg ha, pending]
      rw [hpending]
      exact ih stash

/-- A call returns the first of the elements that are to be returned. -/
theorem next_fst (s : Peekable α) : (next valid s).1 = (outcomes (pending valid s)).head? :=
  (nextLoop_spec valid s.remaining s.stash).1

/-- And leaves the others. -/
theorem pending_next (s : Peekable α) : pending valid (next valid s).2 = (pending valid s).tail :=
  (nextLoop_spec valid s.remaining s.stash).2

end Peekable

end Cargo.Math
