import Mathlib.Data.List.Forall2
import Mathlib.Algebra.Order.Ring.Nat
import Mathlib.Data.List.Count

/-!
# Switching marked elements

Some elements of a list are marked, and a marked element can be switched to another. Which of them
are switched is told by the binary digits of a number, the first of them by the lowest digit. With
numbers below a power of two, those after as many marked elements stay as they are.

## Main definitions

* `switch` — switch the marked elements that a number says
* `Alike` — equal, or switched

## Main results

* `exists_lt_switch` — numbers below the power of two reach all lists that are alike
* `eq_of_switch_eq` — each of them another one
* `getLast?_marked_switch` — smaller numbers leave the last marked element alone
-/

set_option autoImplicit false

namespace Cargo.Math

variable {α : Type*} (p : α → Bool) (flip : α → α)

/-- Switch the marked elements for which the number has a digit. -/
def switch : ℕ → List α → List α
  | _, [] => []
  | n, a :: l =>
    if p a then (if n % 2 = 1 then flip a else a) :: switch (n / 2) l else a :: switch n l

/-- The same element, or the one it is switched to. -/
def Alike (a b : α) : Prop := a = b ∨ p a = true ∧ b = flip a

variable {p flip} {n : ℕ} {l t : List α}

@[simp] theorem switch_nil : switch p flip n [] = [] := rfl

theorem switch_cons_of_marked {a : α} (ha : p a = true) : switch p flip n (a :: l) =
    (if n % 2 = 1 then flip a else a) :: switch p flip (n / 2) l := by
  rw [switch, if_pos ha]

theorem switch_cons_of_not_marked {a : α} (ha : p a = false) :
    switch p flip n (a :: l) = a :: switch p flip n l := by
  rw [switch, ha, if_neg (by simp)]

@[simp] theorem switch_zero : switch p flip 0 l = l := by
  induction l with
  | nil => rfl
  | cons a l ih =>
    cases ha : p a with
    | true => rw [switch_cons_of_marked ha, Nat.zero_div, ih, if_neg (by omega)]
    | false => rw [switch_cons_of_not_marked ha, ih]

/-- Whatever the number is, only marked elements are switched. -/
theorem alike_switch (n : ℕ) (l : List α) :
    List.Forall₂ (Alike p flip) l (switch p flip n l) := by
  induction l generalizing n with
  | nil => exact .nil
  | cons a l ih =>
    cases ha : p a with
    | false =>
      rw [switch_cons_of_not_marked ha]
      exact .cons (.inl rfl) (ih n)
    | true =>
      rw [switch_cons_of_marked ha]
      refine .cons ?_ (ih (n / 2))
      split
      · exact .inr ⟨ha, rfl⟩
      · exact .inl rfl

/-- Numbers below the power of two can be read off the list, from the lowest digit on. -/
theorem eq_of_switch_eq (hflip : ∀ a, p a = true → flip a ≠ a) {m : ℕ} (hn : n < 2 ^ l.countP p)
    (hm : m < 2 ^ l.countP p) (h : switch p flip n l = switch p flip m l) : n = m := by
  induction l generalizing n m with
  | nil =>
    rw [List.countP_nil, Nat.pow_zero] at hn hm
    omega
  | cons a l ih =>
    cases ha : p a with
    | false =>
      rw [List.countP_cons_of_neg (by simp [ha])] at hn hm
      rw [switch_cons_of_not_marked ha, switch_cons_of_not_marked ha] at h
      exact ih hn hm (List.cons.inj h).2
    | true =>
      rw [List.countP_cons_of_pos ha, Nat.pow_succ] at hn hm
      rw [switch_cons_of_marked ha, switch_cons_of_marked ha, List.cons.injEq] at h
      obtain ⟨hhead, htail⟩ := h
      have hhalf : n / 2 = m / 2 := ih (by omega) (by omega) htail
      have hne := hflip a ha
      -- the head tells the lowest digits apart
      have hdigit : n % 2 = 1 ↔ m % 2 = 1 := by
        split at hhead <;> split at hhead
        · simp_all
        · exact absurd hhead hne
        · exact absurd hhead.symm hne
        · simp_all
      omega

/-- All lists that are alike are reached by numbers below the power of two. -/
theorem exists_lt_switch (h : List.Forall₂ (Alike p flip) l t) :
    ∃ n < 2 ^ l.countP p, switch p flip n l = t := by
  induction h with
  | nil => exact ⟨0, by simp, rfl⟩
  | @cons a b l t hab _ ih =>
    obtain ⟨n, hn, rfl⟩ := ih
    cases ha : p a with
    | false =>
      have hb : a = b := by
        rcases hab with heq | ⟨hmarked, -⟩
        · exact heq
        · simp [ha] at hmarked
      rw [List.countP_cons_of_neg (by simp [ha])]
      exact ⟨n, hn, by rw [switch_cons_of_not_marked ha, hb]⟩
    | true =>
      rw [List.countP_cons_of_pos ha, Nat.pow_succ]
      rcases hab with rfl | ⟨-, rfl⟩
      · refine ⟨2 * n, by omega, ?_⟩
        rw [switch_cons_of_marked ha, if_neg (by omega), Nat.mul_div_cancel_left n (by omega)]
      · have hhalf : (2 * n + 1) / 2 = n := by omega
        refine ⟨2 * n + 1, by omega, ?_⟩
        rw [switch_cons_of_marked ha, if_pos (by omega), hhalf]

/-- A number without a digit for the last marked element leaves that alone. -/
theorem getLast?_marked_switch (hflip : ∀ a, p (flip a) = p a)
    (hn : 2 * n < 2 ^ l.countP p) :
    ((switch p flip n l).filter p).getLast? = (l.filter p).getLast? := by
  induction l generalizing n with
  | nil => rfl
  | cons a l ih =>
    cases ha : p a with
    | false =>
      rw [List.countP_cons_of_neg (by simp [ha])] at hn
      rw [switch_cons_of_not_marked ha, List.filter_cons_of_neg (by simp [ha]),
        List.filter_cons_of_neg (by simp [ha]), ih hn]
    | true =>
      rw [List.countP_cons_of_pos ha, Nat.pow_succ] at hn
      have hhead : p (if n % 2 = 1 then flip a else a) = true := by
        split
        · rw [hflip, ha]
        · exact ha
      rw [switch_cons_of_marked ha, List.filter_cons_of_pos hhead, List.filter_cons_of_pos ha]
      by_cases hl : l.countP p = 0
      · -- the last marked element is here, and the number is zero
        have hzero : n = 0 := by
          rw [hl] at hn
          omega
        rw [hzero, Nat.zero_div, switch_zero, if_neg (by omega)]
      · have hfilter : l.filter p ≠ [] := by
          intro hnil
          rw [List.countP_eq_length_filter, hnil] at hl
          exact hl rfl
        -- the last marked element is further on, where the number is halved
        have hrest : ((switch p flip (n / 2) l).filter p).getLast? = (l.filter p).getLast? :=
          ih (by omega)
        have hsome : (l.filter p).getLast? ≠ none := by
          rw [ne_eq, List.getLast?_eq_none_iff]
          exact hfilter
        have hswitch : (switch p flip (n / 2) l).filter p ≠ [] := by
          intro hnil
          rw [hnil] at hrest
          exact hsome hrest.symm
        rw [List.getLast?_cons_of_ne_nil hswitch, List.getLast?_cons_of_ne_nil hfilter, hrest]

end Cargo.Math
