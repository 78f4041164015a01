import Mathlib.Data.Multiset.DershowitzManna
import Mathlib.Logic.Function.Iterate

/-!
# Descent on stacks

A backtracking search keeps a stack of choices. Give every choice a weight from a
well-founded order. A step that takes some choices off the stack and puts others on it,
each lighter than one that was taken off, makes the stack smaller in a well-founded order,
so a search all of whose steps do that comes to an end.

## Main definitions

* `StackLT` — one stack of weights is smaller than another

## Main results

* `wellFounded_stackLT`
* `exists_iterate_of_descent` — iterating a function that descends ends
-/

set_option autoImplicit false

namespace Cargo.Math

variable {α σ : Type*}

/-- The top of the stack was exchanged for lighter weights. -/
def StackLT [Preorder α] (l' l : List α) : Prop :=
  ∃ taken fresh rest, taken ≠ [] ∧ l = taken ++ rest ∧ l' = fresh ++ rest ∧
    ∀ y ∈ fresh, ∃ z ∈ taken, y < z

theorem wellFounded_stackLT [Preorder α] [WellFoundedLT α] :
    WellFounded (StackLT : List α → List α → Prop) := by
  refine Subrelation.wf ?_ (InvImage.wf (fun l : List α => (l : Multiset α))
    Multiset.wellFounded_isDershowitzMannaLT)
  rintro l' l ⟨taken, fresh, rest, hne, rfl, rfl, hlt⟩
  refine ⟨(rest : Multiset α), (fresh : Multiset α), (taken : Multiset α), ?_, ?_, ?_, ?_⟩
  · simpa using hne
  · rw [Multiset.coe_add, Multiset.coe_eq_coe]
    exact List.perm_append_comm
  · rw [Multiset.coe_add, Multiset.coe_eq_coe]
    exact List.perm_append_comm
  · simpa using hlt

/-- A function that keeps an invariant and descends until it is done comes to be done. -/
theorem exists_iterate_of_descent {r : α → α → Prop} (hr : WellFounded r) (f : σ → σ)
    (weight : σ → α) (P done : σ → Prop)
    (hstep : ∀ s, P s → ¬ done s → P (f s) ∧ r (weight (f s)) (weight s)) {s : σ} (hs : P s) :
    ∃ n, done (f^[n] s) := by
  suffices h : ∀ a, ∀ s, weight s = a → P s → ∃ n, done (f^[n] s) from h _ s rfl hs
  intro a
  induction a using hr.induction with
  | _ a ih =>
    rintro s rfl hs
    by_cases hdone : done s
    · exact ⟨0, hdone⟩
    · obtain ⟨hP, hlt⟩ := hstep s hs hdone
      obtain ⟨n, hn⟩ := ih _ hlt (f s) rfl hP
      exact ⟨n + 1, hn⟩

end Cargo.Math
