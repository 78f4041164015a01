import Mathlib.Data.List.Basic
import Mathlib.Algebra.BigOperators.Group.List.Basic
import Mathlib.Algebra.Order.Ring.Nat

/-!
# As much of a list as fits

The elements of a list have weights, some of which may be zero, and there is room for so much. The
longest prefix that fits is found by taking elements as long as there is room for them.

## Main definitions

* `totalWeight` — the weight of a list
* `fitting` — take elements as long as there is room
* `LongestFit` — the longest prefix there is room for

## Main results

* `longestFit_iff` — that is the one taken
-/

set_option autoImplicit false

namespace Cargo.Math

variable {α : Type*} (weight : α → ℕ)

def totalWeight (l : List α) : ℕ := (l.map weight).sum

/-- Take elements as long as there is room for them. -/
def fitting : ℕ → List α → List α
  | _, [] => []
  | room, a :: l => if weight a ≤ room then a :: fitting (room - weight a) l else []

/-- The longest prefix there is room for. -/
structure LongestFit (room : ℕ) (l p : List α) : Prop where
  isPrefix : p <+: l
  fits : totalWeight weight p ≤ room
  longest : ∀ q, q <+: l → totalWeight weight q ≤ room → q <+: p

variable {weight} {room : ℕ} {l p : List α} {a : α}

@[simp] theorem totalWeight_nil : totalWeight weight [] = 0 := rfl

@[simp] theorem totalWeight_cons : totalWeight weight (a :: l) = weight a + totalWeight weight l :=
  List.sum_cons

@[simp] theorem totalWeight_append : totalWeight weight (l ++ p) =
    totalWeight weight l + totalWeight weight p := by
  rw [totalWeight, List.map_append, List.sum_append]
  rfl

theorem fitting_nil : fitting weight room [] = [] := rfl

theorem fitting_cons_of_le (h : weight a ≤ room) :
    fitting weight room (a :: l) = a :: fitting weight (room - weight a) l := by
  rw [fitting, if_pos h]

theorem fitting_cons_of_lt (h : room < weight a) : fitting weight room (a :: l) = [] := by
  rw [fitting, if_neg (by omega)]

theorem longestFit_fitting (weight : α → ℕ) (room : ℕ) (l : List α) :
    LongestFit weight room l (fitting weight room l) := by
  induction l generalizing room with
  | nil => exact ⟨List.prefix_rfl, Nat.zero_le _, fun q hq _ => hq⟩
  | cons a l ih =>
    by_cases ha : weight a ≤ room
    · obtain ⟨hpre, hfits, hlongest⟩ := ih (room - weight a)
      rw [fitting_cons_of_le ha]
      refine ⟨List.cons_prefix_cons.mpr ⟨rfl, hpre⟩, ?_, ?_⟩
      · rw [totalWeight_cons]
        omega
      · intro q hq hroom
        cases q with
        | nil => exact List.nil_prefix
        | cons b q =>
          obtain ⟨rfl, hrest⟩ := List.cons_prefix_cons.mp hq
          rw [totalWeight_cons] at hroom
          exact List.cons_prefix_cons.mpr ⟨rfl, hlongest q hrest (by omega)⟩
    · rw [fitting_cons_of_lt (by omega)]
      refine ⟨List.nil_prefix, Nat.zero_le _, ?_⟩
      intro q hq hroom
      cases q with
      | nil => exact List.prefix_rfl
      | cons b q =>
        obtain ⟨rfl, -⟩ := List.cons_prefix_cons.mp hq
        rw [totalWeight_cons] at hroom
        omega

theorem longestFit_iff : LongestFit weight room l p ↔ p = fitting weight room l := by
  have hfit := longestFit_fitting weight room l
  constructor
  · intro h
    apply (hfit.longest p h.isPrefix h.fits).eq_of_length_le
    exact (h.longest _ hfit.isPrefix hfit.fits).length_le
  · rintro rfl
    exact hfit

end Cargo.Math
