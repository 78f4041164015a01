import Mathlib.Data.List.Sort
import Mathlib.Data.List.Perm.Basic

/-!
# Binary heaps, up to what is documented of them

A heap keeps its elements in an order of its own, and of several greatest elements it may
hand out any. `HeapOps` collects what a user may rely on, so that what is proved for every
`HeapOps` holds whatever the heap does inside.

## Main definitions

* `HeapOps` — pushing and popping on lists that stand for the heap's array
* `HeapOps.selection` — the simplest heap: push in front, pop the first greatest
-/

set_option autoImplicit false

namespace Cargo.Math

/-- The operations of a heap whose elements are compared by `le`. -/
structure HeapOps (α : Type) (le : α → α → Prop) where
  push : α → List α → List α
  pop : List α → Option (α × List α)
  push_perm : ∀ a l, (push a l).Perm (a :: l)
  pop_eq_none : ∀ l, pop l = none → l = []
  pop_perm : ∀ l a l', pop l = some (a, l') → l.Perm (a :: l')
  pop_greatest : ∀ l a l', pop l = some (a, l') → ∀ b ∈ l', le b a

namespace HeapOps

variable {α : Type} {le : α → α → Prop}

/-- The first greatest element of `a :: l` and the others. -/
def select (le : α → α → Prop) [DecidableRel le] (a : α) : List α → α × List α
  | [] => (a, [])
  | b :: l => if le b a then ((select le a l).1, b :: (select le a l).2)
    else ((select le b l).1, a :: (select le b l).2)

theorem select_perm (le : α → α → Prop) [DecidableRel le] (a : α) (l : List α) :
    (a :: l).Perm ((select le a l).1 :: (select le a l).2) := by
  induction l generalizing a with
  | nil => exact List.Perm.refl _
  | cons b l ih =>
    unfold select
    split
    · exact (List.Perm.swap b a l).trans (((ih a).cons b).trans (List.Perm.swap _ _ _))
    · exact ((ih b).cons a).trans (List.Perm.swap _ _ _)

theorem le_select [DecidableRel le] (htrans : ∀ a b c, le a b → le b c → le a c)
    (htotal : ∀ a b, le a b ∨ le b a) (a : α) (l : List α) :
    le a (select le a l).1 ∧ ∀ b ∈ (select le a l).2, le b (select le a l).1 := by
  induction l generalizing a with
  | nil => exact ⟨(htotal a a).elim id id, by simp [select]⟩
  | cons b l ih =>
    unfold select
    split
    · rename_i hba
      obtain ⟨ha, hl⟩ := ih a
      exact ⟨ha, List.forall_mem_cons.mpr ⟨htrans _ _ _ hba ha, hl⟩⟩
    · rename_i hba
      obtain ⟨hb, hl⟩ := ih b
      have hab : le a b := (htotal a b).resolve_right hba
      exact ⟨htrans _ _ _ hab hb, List.forall_mem_cons.mpr ⟨htrans _ _ _ hab hb, hl⟩⟩

/-- Push in front and pop the first greatest element. -/
def selection (le : α → α → Prop) [DecidableRel le]
    (htrans : ∀ a b c, le a b → le b c → le a c) (htotal : ∀ a b, le a b ∨ le b a) :
    HeapOps α le where
  push a l := a :: l
  pop
    | [] => none
    | a :: l => some (select le a l)
  push_perm a l := List.Perm.refl _
  pop_eq_none := by
    rintro (_ | ⟨a, l⟩) h
    · rfl
    · cases h
  pop_perm := by
    rintro (_ | ⟨a, l⟩) b l' h
    · cases h
    · have hperm := select_perm le a l
      rw [Option.some.inj h] at hperm
      exact hperm
  pop_greatest := by
    rintro (_ | ⟨a, l⟩) b l' h
    · cases h
    · have hle := (le_select htrans htotal a l).2
      rw [Option.some.inj h] at hle
      exact hle

end HeapOps

end Cargo.Math
