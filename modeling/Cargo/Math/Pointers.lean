import Mathlib.Logic.Relation
import Mathlib.Data.Set.Finite.Basic
import Mathlib.Data.Fintype.EquivFin

/-!
# Following pointers

Each item points to at most one other. Following the pointers from an item comes to an end or
runs into a cycle, if finitely many items point anywhere, and it does not do both.

## Main results

* `reaches_of_cycle` — from everything that is reached from a cycle, the cycle is reached
* `not_cycle_of_end`
* `ends_or_cycles`
-/

set_option autoImplicit false

namespace Cargo.Math

open Relation

variable {α : Type*} {r : α → α → Prop}

/-- From everything that is reached from a cycle, the cycle is reached. -/
theorem reaches_of_cycle (hr : Relator.RightUnique r) {a x : α} (ha : TransGen r a a)
    (hx : ReflTransGen r a x) : ReflTransGen r x a := by
  induction hx with
  | refl => exact .refl
  | @tail y x _ hstep ih =>
    have hback : TransGen r y a := by
      rcases ih.cases_head with rfl | ⟨z, hz, hza⟩
      · exact ha
      · exact TransGen.head' hz hza
    obtain ⟨z, hz, hza⟩ := TransGen.head'_iff.mp hback
    rw [hr hstep hz]
    exact hza

/-- An end is reached from one place only. -/
theorem end_unique (hr : Relator.RightUnique r) {a b c : α} (hb : ReflTransGen r a b)
    (hc : ReflTransGen r a c) (hbend : ∀ x, ¬ r b x) (hcend : ∀ x, ¬ r c x) : b = c := by
  rcases ReflTransGen.total_of_right_unique hr hb hc with hbc | hcb
  · rcases hbc.cases_head with rfl | ⟨x, hx, -⟩
    · rfl
    · exact absurd hx (hbend x)
  · rcases hcb.cases_head with rfl | ⟨x, hx, -⟩
    · rfl
    · exact absurd hx (hcend x)

/-- What comes to an end does not run into a cycle. -/
theorem not_cycle_of_end (hr : Relator.RightUnique r) {a b c : α} (hb : ReflTransGen r a b)
    (hbend : ∀ x, ¬ r b x) (hc : ReflTransGen r a c) : ¬ TransGen r c c := by
  intro hcycle
  have hbc : ReflTransGen r b c := by
    rcases ReflTransGen.total_of_right_unique hr hb hc with hbc | hcb
    · exact hbc
    · exact reaches_of_cycle hr hcycle hcb
  rcases hbc.cases_head with rfl | ⟨x, hx, -⟩
  · obtain ⟨x, hx, -⟩ := TransGen.head'_iff.mp hcycle
    exact hbend x hx
  · exact hbend x hx

/-- If finitely many items point anywhere, then following them comes to an end or runs into a
cycle. -/
theorem ends_or_cycles (hfinite : {a | ∃ b, r a b}.Finite) (a : α) :
    (∃ b, ReflTransGen r a b ∧ ∀ x, ¬ r b x) ∨ ∃ c, ReflTransGen r a c ∧ TransGen r c c := by
  by_contra hnot
  rw [not_or] at hnot
  obtain ⟨hend, hcycle⟩ := hnot
  have hnext : ∀ b, ReflTransGen r a b → ∃ c, r b c := by
    intro b hb
    by_contra hnone
    exact hend ⟨b, hb, fun x hx => hnone ⟨x, hx⟩⟩
  choose! f hf using hnext
  have hreach : ∀ n, ReflTransGen r a (f^[n] a) := by
    intro n
    induction n with
    | zero => exact .refl
    | succ n ih =>
      rw [Function.iterate_succ_apply']
      exact ih.tail (hf _ ih)
  have hfrom : ∀ n k, ReflTransGen r (f^[n] a) (f^[n + k] a) := by
    intro n k
    induction k with
    | zero => exact .refl
    | succ k ih =>
      rw [← Nat.add_assoc, Function.iterate_succ_apply']
      exact ih.tail (hf _ (hreach _))
  -- two of infinitely many steps are at the same item
  obtain ⟨i, j, hlt, heq⟩ : ∃ i j : ℕ, i < j ∧ f^[i] a = f^[j] a := by
    have hmaps : Set.MapsTo (fun n : ℕ => f^[n] a) Set.univ {a | ∃ b, r a b} :=
      fun n _ => ⟨_, hf _ (hreach n)⟩
    obtain ⟨i, -, j, -, hne, heq⟩ :=
      Set.infinite_univ.exists_ne_map_eq_of_mapsTo hmaps hfinite
    rcases Nat.lt_or_gt_of_ne hne with hlt | hgt
    · exact ⟨i, j, hlt, heq⟩
    · exact ⟨j, i, hgt, heq.symm⟩
  apply hcycle
  refine ⟨f^[i] a, hreach i, ?_⟩
  have hstep : r (f^[i] a) (f^[i + 1] a) := by
    rw [Function.iterate_succ_apply']
    exact hf _ (hreach i)
  apply TransGen.head' hstep
  have hrest := hfrom (i + 1) (j - (i + 1))
  rw [Nat.add_sub_cancel' hlt, ← heq] at hrest
  exact hrest

end Cargo.Math
