import Mathlib.Data.List.Induction

/-!
# Pruning a sequence by what it says itself

The elements of a sequence come one after the other. Some are to be kept, some bar whatever is
inside of them: what was kept already is thrown out when the bar is found, what comes later is not
kept in the first place. What is left in the end does not depend on when the bars were found.

## Main definitions

* `Role` — what becomes of an element
* `prune` — one element

## Main results

* `foldl_prune` — what is left is what no bar of the sequence has inside
-/

set_option autoImplicit false

namespace Cargo.Math

/-- What becomes of an element: nothing, it bars what is inside of `d`, or it is kept. -/
inductive Role (D : Type*)
  | skip
  | bar (d : D)
  | keep

/-- The bar that an element sets, if it sets one. -/
def Role.bar? {D : Type*} : Role D → Option D
  | .bar d => some d
  | .skip | .keep => none

/-- Is the element to be kept? -/
def Role.isKeep {D : Type*} : Role D → Bool
  | .keep => true
  | .skip | .bar _ => false

/-- What was kept so far, and the bars found. -/
structure Pruned (E D : Type*) where
  kept : List E
  bars : List D

variable {E D : Type*} (inside : D → E → Bool) (role : E → Role D)

/-- One more element. -/
def prune (s : Pruned E D) (e : E) : Pruned E D :=
  match role e with
  | .skip => s
  | .bar d => ⟨s.kept.filter fun e => !inside d e, s.bars ++ [d]⟩
  | .keep => if s.bars.any fun d => inside d e then s else { s with kept := s.kept ++ [e] }

/-- Is the element to be kept, and is no bar around it? -/
def stays (bars : List D) (e : E) : Bool := (role e).isKeep && !bars.any fun d => inside d e

variable {inside role}

theorem stays_append (bars bars' : List D) (e : E) :
    stays inside role (bars ++ bars') e =
      (stays inside role bars e && !bars'.any fun d => inside d e) := by
  simp [stays, List.any_append, Bool.and_assoc]

/-- What is left is what is to be kept and inside of no bar, wherever the bars were found. -/
theorem foldl_prune (l : List E) :
    l.foldl (prune inside role) ⟨[], []⟩ =
      ⟨l.filter (stays inside role (l.filterMap fun e => (role e).bar?)),
        l.filterMap fun e => (role e).bar?⟩ := by
  induction l using List.reverseRecOn with
  | nil => rfl
  | append_singleton l e ih =>
    rw [List.foldl_append, ih, List.foldl_cons, List.foldl_nil, List.filterMap_append,
      List.filter_append]
    cases hrole : role e with
    | skip => simp [prune, hrole, Role.bar?, stays, Role.isKeep]
    | keep =>
      have hbars : [e].filterMap (fun e => (role e).bar?) = [] := by simp [hrole, Role.bar?]
      rw [hbars, List.append_nil]
      by_cases hin : ((l.filterMap fun e => (role e).bar?).any fun d => inside d e) = true
      · simp only [prune, hrole, if_pos hin]
        simp [stays, hin]
      · simp only [prune, hrole, if_neg hin]
        simp [stays, hin, hrole, Role.isKeep]
    | bar d =>
      -- the new bar is the only one that what was kept is not known to be outside of
      have hbars : [e].filterMap (fun e => (role e).bar?) = [d] := by simp [hrole, Role.bar?]
      have hkeep : (l.filter (stays inside role (l.filterMap fun e => (role e).bar?))).filter
          (fun e => !inside d e) =
          l.filter (stays inside role ((l.filterMap fun e => (role e).bar?) ++ [d])) := by
        rw [List.filter_filter]
        apply List.filter_congr
        intro e _
        rw [stays_append, Bool.and_comm]
        simp
      have hself : [e].filter
          (stays inside role ((l.filterMap fun e => (role e).bar?) ++ [d])) = [] := by
        simp [stays, hrole, Role.isKeep]
      rw [hbars, hself, List.append_nil, prune, hrole]
      simp only [hkeep]

end Cargo.Math
