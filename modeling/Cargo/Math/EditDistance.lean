import Mathlib.Data.List.Basic
import Mathlib.Order.Bounds.Basic

/-!
# Edit distance

An edit inserts, deletes or replaces one element of a list. The distance of two lists is the
least number of edits that lead from one to the other. It obeys the recursion by which it is
computed from the distances of shorter lists; if the lists start with the same element, nothing
is gained by editing it.

## Main definitions

* `Edit`, `Edits` — one edit, and a number of them
* `editDistance` — the recursion over the first elements

## Main results

* `isLeast_editDistance` — the recursion gives the least number of edits
* `editDistance_comm`, `editDistance_eq_zero`, `editDistance_triangle` — a metric
* `editDistance_reverse` — the recursion may start at either end
-/

set_option autoImplicit false

namespace Cargo.Math

variable {α : Type*}

/-! ### Edits -/

/-- The second list is the first one after one edit. -/
inductive Edit : List α → List α → Prop
  | insertion (front back : List α) (x : α) : Edit (front ++ back) (front ++ x :: back)
  | deletion (front back : List α) (x : α) : Edit (front ++ x :: back) (front ++ back)
  | substitution (front back : List α) (x y : α) : Edit (front ++ x :: back) (front ++ y :: back)

/-- A number of edits lead from the first list to the second. -/
inductive Edits : ℕ → List α → List α → Prop
  | refl (a : List α) : Edits 0 a a
  | head {n : ℕ} {a b c : List α} (h : Edit a b) (hs : Edits n b c) : Edits (n + 1) a c

section Edits

variable {a b c : List α} {m n : ℕ}

theorem Edit.cons (x : α) (h : Edit a b) : Edit (x :: a) (x :: b) := by
  cases h with
  | insertion front back y => exact .insertion (x :: front) back y
  | deletion front back y => exact .deletion (x :: front) back y
  | substitution front back y z => exact .substitution (x :: front) back y z

theorem Edit.symm (h : Edit a b) : Edit b a := by
  cases h with
  | insertion front back x => exact .deletion front back x
  | deletion front back x => exact .insertion front back x
  | substitution front back x y => exact .substitution front back y x

theorem Edit.reverse (h : Edit a b) : Edit a.reverse b.reverse := by
  cases h with
  | insertion front back x =>
    simpa using Edit.insertion back.reverse front.reverse x
  | deletion front back x =>
    simpa using Edit.deletion back.reverse front.reverse x
  | substitution front back x y =>
    simpa using Edit.substitution back.reverse front.reverse x y

theorem Edits.cons (x : α) (h : Edits n a b) : Edits n (x :: a) (x :: b) := by
  induction h with
  | refl a => exact .refl (x :: a)
  | head h _ ih => exact .head (h.cons x) ih

theorem Edits.trans (h : Edits m a b) (h' : Edits n b c) : Edits (m + n) a c := by
  induction h with
  | refl a => simpa using h'
  | @head k _ _ _ hedit _ ih =>
    rw [Nat.add_right_comm]
    exact .head hedit (ih h')

theorem Edits.single (h : Edit a b) : Edits 1 a b := .head h (.refl b)

theorem Edits.symm (h : Edits n a b) : Edits n b a := by
  induction h with
  | refl a => exact .refl a
  | head hedit _ ih => exact ih.trans (.single hedit.symm)

theorem Edits.reverse (h : Edits n a b) : Edits n a.reverse b.reverse := by
  induction h with
  | refl a => exact .refl a.reverse
  | head hedit _ ih => exact .head hedit.reverse ih

theorem edits_reverse : Edits n a.reverse b.reverse ↔ Edits n a b := by
  constructor
  · intro h
    simpa using h.reverse
  · exact Edits.reverse

theorem edits_zero : Edits 0 a b ↔ a = b := by
  constructor
  · intro h
    cases h
    rfl
  · rintro rfl
    exact .refl a

/-- Every list is reached from the empty one by insertions. -/
theorem edits_nil (b : List α) : Edits b.length [] b := by
  induction b with
  | nil => exact .refl []
  | cons y b ih => exact ih.trans (.single (.insertion [] b y))

end Edits

/-! ### The recursion -/

variable [DecidableEq α]

/-- The distance of two lists, from the distances of their tails. -/
def editDistance : List α → List α → ℕ
  | [], b => b.length
  | x :: a, [] => (x :: a).length
  | x :: a, y :: b =>
    if x = y then editDistance a b
    else min (min (editDistance a b) (editDistance a (y :: b))) (editDistance (x :: a) b) + 1
  termination_by a b => a.length + b.length

section Recursion

variable {x y : α} {a b c : List α}

@[simp] theorem editDistance_nil_left (b : List α) : editDistance [] b = b.length := by
  rw [editDistance]

@[simp] theorem editDistance_nil_right (a : List α) : editDistance a [] = a.length := by
  cases a with
  | nil => rw [editDistance]
  | cons x a => rw [editDistance]

theorem editDistance_cons_self (x : α) (a b : List α) :
    editDistance (x :: a) (x :: b) = editDistance a b := by
  rw [editDistance, if_pos rfl]

theorem editDistance_cons_cons (h : x ≠ y) (a b : List α) :
    editDistance (x :: a) (y :: b) =
      min (min (editDistance a b) (editDistance a (y :: b))) (editDistance (x :: a) b) + 1 := by
  rw [editDistance, if_neg h]

theorem editDistance_comm (a b : List α) : editDistance a b = editDistance b a := by
  induction a, b using editDistance.induct with
  | case1 b => simp
  | case2 x a => simp
  | case3 a y b ih => rw [editDistance_cons_self, editDistance_cons_self, ih]
  | case4 x a y b h ih ih' ih'' =>
    rw [editDistance_cons_cons h, editDistance_cons_cons (Ne.symm h), ih, ih', ih'',
      Nat.min_right_comm]

theorem editDistance_self (a : List α) : editDistance a a = 0 := by
  induction a with
  | nil => simp
  | cons x a ih => rw [editDistance_cons_self, ih]

/-- So many edits are enough. -/
theorem edits_editDistance (a b : List α) : Edits (editDistance a b) a b := by
  induction a, b using editDistance.induct with
  | case1 b => simpa using edits_nil b
  | case2 x a => simpa using (edits_nil (x :: a)).symm
  | case3 a y b ih =>
    rw [editDistance_cons_self]
    exact ih.cons y
  | case4 x a y b h ih ih' ih'' =>
    rw [editDistance_cons_cons h]
    -- the last edit is the one that the least of the three distances stands for
    rcases Nat.le_total (min (editDistance a b) (editDistance a (y :: b)))
      (editDistance (x :: a) b) with hle | hle
    · rw [Nat.min_eq_left hle]
      rcases Nat.le_total (editDistance a b) (editDistance a (y :: b)) with hle' | hle'
      · rw [Nat.min_eq_left hle']
        exact (ih.cons x).trans (.single (.substitution [] b x y))
      · rw [Nat.min_eq_right hle']
        exact .head (.deletion [] a x) ih'
    · rw [Nat.min_eq_right hle]
      exact ih''.trans (.single (.insertion [] b y))

/-! ### One edit changes the distance by one -/

/-- One element more on the right brings the lists no closer than by one. -/
theorem editDistance_cons_right_bounds (a : List α) : (∀ y b,
    editDistance a b ≤ editDistance a (y :: b) + 1) ∧
    ∀ x b, editDistance (x :: a) b ≤ editDistance a b + 1 := by
  induction a with
  | nil =>
    refine ⟨fun y b => by simp; omega, fun x b => ?_⟩
    induction b with
    | nil => simp
    | cons y b ih =>
      by_cases h : x = y
      · subst h
        simp [editDistance_cons_self]
        omega
      · rw [editDistance_cons_cons h]
        simp
  | cons z a ih =>
    -- each bound for `z :: a` needs both for `a`
    obtain ⟨hshort, hlong⟩ := ih
    have hright : ∀ y b, editDistance (z :: a) b ≤ editDistance (z :: a) (y :: b) + 1 := by
      intro y b
      by_cases h : z = y
      · subst h
        rw [editDistance_cons_self]
        exact hlong z b
      · rw [editDistance_cons_cons h]
        have h₁ := hlong z b
        have h₂ := hshort y b
        omega
    refine ⟨hright, fun x b => ?_⟩
    cases b with
    | nil => simp
    | cons y b =>
      by_cases h : x = y
      · subst h
        rw [editDistance_cons_self]
        exact hright x b
      · rw [editDistance_cons_cons h]
        omega

theorem editDistance_le_cons_left (x : α) (a b : List α) :
    editDistance a b ≤ editDistance (x :: a) b + 1 := by
  rw [editDistance_comm a b, editDistance_comm (x :: a) b]
  exact (editDistance_cons_right_bounds b).1 x a

theorem editDistance_cons_left_le (x : α) (a b : List α) :
    editDistance (x :: a) b ≤ editDistance a b + 1 :=
  (editDistance_cons_right_bounds a).2 x b

theorem editDistance_substitution_le (x y : α) (a c : List α) :
    editDistance (x :: a) c ≤ editDistance (y :: a) c + 1 := by
  induction c with
  | nil => simp
  | cons z c ih =>
    have hx := editDistance_cons_left_le x a c
    have hx' := editDistance_cons_left_le x a (z :: c)
    by_cases hyz : y = z
    · subst hyz
      rw [editDistance_cons_self]
      by_cases hxy : x = y
      · subst hxy
        rw [editDistance_cons_self]
        omega
      · rw [editDistance_cons_cons hxy]
        omega
    · rw [editDistance_cons_cons hyz]
      by_cases hxz : x = z
      · subst hxz
        rw [editDistance_cons_self]
        have hy := editDistance_le_cons_left y a c
        have hz := (editDistance_cons_right_bounds a).1 x c
        omega
      · rw [editDistance_cons_cons hxz]
        omega

/-- What one edit changes behind a common element. -/
theorem editDistance_cons_le (x : α) (h : ∀ c, editDistance a c ≤ editDistance b c + 1)
    (c : List α) : editDistance (x :: a) c ≤ editDistance (x :: b) c + 1 := by
  induction c with
  | nil =>
    have hnil := h []
    simp only [editDistance_nil_right] at hnil
    simp only [editDistance_nil_right, List.length_cons]
    omega
  | cons z c ih =>
    by_cases hxz : x = z
    · subst hxz
      rw [editDistance_cons_self, editDistance_cons_self]
      exact h c
    · rw [editDistance_cons_cons hxz, editDistance_cons_cons hxz]
      have h₁ := h c
      have h₂ := h (z :: c)
      omega

theorem Edit.editDistance_le (h : Edit a b) (c : List α) :
    editDistance a c ≤ editDistance b c + 1 := by
  have hfront : ∀ (front : List α) {a b : List α},
      (∀ c, editDistance a c ≤ editDistance b c + 1) →
      ∀ c, editDistance (front ++ a) c ≤ editDistance (front ++ b) c + 1 := by
    intro front a b h
    induction front with
    | nil => exact h
    | cons x front ih => exact editDistance_cons_le x ih
  cases h with
  | insertion front back x => exact hfront front (editDistance_le_cons_left x back) c
  | deletion front back x => exact hfront front (editDistance_cons_left_le x back) c
  | substitution front back x y => exact hfront front (editDistance_substitution_le x y back) c

theorem Edits.editDistance_le {n : ℕ} (h : Edits n a b) (c : List α) :
    editDistance a c ≤ editDistance b c + n := by
  induction h with
  | refl a => simp
  | head hedit _ ih =>
    have h₁ := hedit.editDistance_le c
    omega

/-! ### The distance -/

/-- The recursion gives the least number of edits. -/
theorem isLeast_editDistance (a b : List α) : IsLeast {n | Edits n a b} (editDistance a b) := by
  refine ⟨edits_editDistance a b, fun n hn => ?_⟩
  have hle := hn.editDistance_le b
  rw [editDistance_self] at hle
  omega

theorem editDistance_eq_zero : editDistance a b = 0 ↔ a = b := by
  constructor
  · intro h
    have hedits := edits_editDistance a b
    rw [h] at hedits
    exact edits_zero.mp hedits
  · rintro rfl
    exact editDistance_self a

theorem editDistance_triangle (a b c : List α) :
    editDistance a c ≤ editDistance a b + editDistance b c :=
  (isLeast_editDistance a c).2 ((edits_editDistance a b).trans (edits_editDistance b c))

/-- The recursion may as well start at the last elements. -/
theorem editDistance_reverse (a b : List α) :
    editDistance a.reverse b.reverse = editDistance a b := by
  apply Nat.le_antisymm
  · exact (isLeast_editDistance _ _).2 (edits_reverse.mpr (edits_editDistance a b))
  · exact (isLeast_editDistance _ _).2 (edits_reverse.mp (edits_editDistance _ _))

end Recursion

end Cargo.Math
