import Mathlib.Data.Finset.Insert
import Mathlib.Data.List.Basic
import Mathlib.Logic.Relation

/-!
# The path on which a depth-first search reaches a node

A depth-first search meets the successors of a node in a fixed order and never enters a
node twice. The path on which it first enters `y` can be told without running it: start at
the first start from which `y` can be reached, and at every node take the first edge from
which `y` can still be reached without going back over the path.

Edges are marked or not. The set `since` of a path collects the nodes from which on only
marked edges were taken.

## Main definitions

* `ReachesAvoiding` — reachability outside a given set of nodes
* `FirstPath` — the first path to a node, step by step

## Main results

* `FirstPath.unique` — there is only one first path
* `FirstPath.transGen_of_mem_since` — marked edges lead from `since` to the end of the path
-/

set_option autoImplicit false

namespace Cargo.Math

open Relation

variable {V : Type*} {succ : V → List (Bool × V)}

/-- Some edge leads from one node to the other. -/
def HasSucc (succ : V → List (Bool × V)) (a b : V) : Prop := ∃ t, (t, b) ∈ succ a

/-- A path leads from `x` to `y` without entering `avoid`. -/
def ReachesAvoiding (succ : V → List (Bool × V)) (avoid : List V) (x y : V) : Prop :=
  x ∉ avoid ∧ ReflTransGen (fun a b => HasSucc succ a b ∧ b ∉ avoid) x y

namespace ReachesAvoiding

variable {avoid : List V} {x y z : V}

theorem end_notMem (h : ReachesAvoiding succ avoid x y) : y ∉ avoid := by
  obtain ⟨hx, hpath⟩ := h
  induction hpath with
  | refl => exact hx
  | tail _ hstep _ => exact hstep.2

theorem refl (hx : x ∉ avoid) : ReachesAvoiding succ avoid x x := ⟨hx, .refl⟩

/-- Avoiding more is harder. -/
theorem mono {avoid' : List V} (h : ReachesAvoiding succ avoid x y)
    (hsub : ∀ a ∈ avoid', a ∈ avoid) : ReachesAvoiding succ avoid' x y :=
  ⟨fun hx => h.1 (hsub x hx), ReflTransGen.mono
    (fun _ b (hb : _ ∧ b ∉ avoid) => ⟨hb.1, fun hmem => hb.2 (hsub b hmem)⟩) _ _ h.2⟩

/-- A path goes on from the successor of a node. -/
theorem head (hx : x ∉ avoid) (hedge : HasSucc succ x z) (h : ReachesAvoiding succ avoid z y) :
    ReachesAvoiding succ avoid x y :=
  ⟨hx, .head ⟨hedge, h.1⟩ h.2⟩

/-- A set closed under successors outside `avoid` cannot be left outside `avoid`. -/
theorem mem_of_closed {P : V → Prop} (h : ReachesAvoiding succ avoid x y) (hx : P x)
    (hclosed : ∀ a b, P a → a ∉ avoid → HasSucc succ a b → P b) : P y := by
  obtain ⟨hxa, hpath⟩ := h
  suffices hboth : P y ∧ y ∉ avoid from hboth.1
  induction hpath with
  | refl => exact ⟨hx, hxa⟩
  | tail _ hstep ih => exact ⟨hclosed _ _ ih.1 ih.2 hstep.1, hstep.2⟩

end ReachesAvoiding

/-- The first element of a list with a property is determined. -/
theorem eq_of_first {α : Type*} {P : α → Prop} {l pre pre' post post' : List α} {a a' : α}
    (h : l = pre ++ a :: post) (h' : l = pre' ++ a' :: post') (hpre : ∀ x ∈ pre, ¬ P x)
    (hpre' : ∀ x ∈ pre', ¬ P x) (ha : P a) (ha' : P a') : a = a' := by
  subst h
  induction pre generalizing pre' with
  | nil =>
    cases pre' with
    | nil => exact (List.cons.inj h').1
    | cons b pre' =>
      obtain ⟨rfl, -⟩ := List.cons.inj h'
      exact absurd ha (hpre' a (by simp))
  | cons b pre ih =>
    cases pre' with
    | nil =>
      obtain ⟨rfl, -⟩ := List.cons.inj h'
      exact absurd ha' (hpre b (by simp))
    | cons b' pre' =>
      obtain ⟨rfl, htail⟩ := List.cons.inj h'
      exact ih (fun x hx => hpre x (by simp [hx])) (fun x hx => hpre' x (by simp [hx])) htail

variable [DecidableEq V] {starts : List V} {y : V}

/-- The first path to `y` has come to a node, over the nodes of a stack. Marked edges lead
from every node of the set `since` along the path to the node. -/
inductive FirstPath (succ : V → List (Bool × V)) (starts : List V) (y : V) :
    V → List V → Finset V → Prop
  | start {pre post : List V} {r : V} : starts = pre ++ r :: post →
      (∀ r' ∈ pre, ¬ ReachesAvoiding succ [] r' y) → ReachesAvoiding succ [] r y →
      FirstPath succ starts y r [] ∅
  | step {p c : V} {stack : List V} {since : Finset V} {pre post : List (Bool × V)} {t : Bool} :
      FirstPath succ starts y p stack since → succ p = pre ++ (t, c) :: post →
      (∀ e ∈ pre, ¬ ReachesAvoiding succ (p :: stack) e.2 y) →
      ReachesAvoiding succ (p :: stack) c y →
      FirstPath succ starts y c (p :: stack) (if t then insert p since else ∅)

namespace FirstPath

variable {p p' : V} {stack stack' : List V} {since since' : Finset V}

/-- The first path begins where `y` can be reached from. -/
theorem exists_start (h : FirstPath succ starts y p stack since) :
    ∃ r ∈ starts, ReachesAvoiding succ [] r y := by
  induction h with
  | start hstarts _ hreach => exact ⟨_, by rw [hstarts]; simp, hreach⟩
  | step _ _ _ _ ih => exact ih

/-- After equally many steps, two first paths agree. -/
theorem eq_of_length (h : FirstPath succ starts y p stack since)
    (h' : FirstPath succ starts y p' stack' since') (hlength : stack.length = stack'.length) :
    p = p' ∧ stack = stack' ∧ since = since' := by
  induction h generalizing p' stack' since' with
  | start hstarts hpre hreach =>
    cases h' with
    | start hstarts' hpre' hreach' =>
      exact ⟨eq_of_first hstarts hstarts' hpre hpre' hreach hreach', rfl, rfl⟩
    | step _ _ _ _ => simp at hlength
  | step hpath hsucc hpre hreach ih =>
    cases h' with
    | start _ _ _ => simp at hlength
    | step hpath' hsucc' hpre' hreach' =>
      obtain ⟨rfl, rfl, rfl⟩ := ih hpath' (by simpa using hlength)
      have hedge := eq_of_first (P := fun e => ReachesAvoiding succ (_ :: _) e.2 y)
        hsucc hsucc' hpre hpre' hreach hreach'
      cases hedge
      exact ⟨rfl, rfl, rfl⟩

/-- Before its end, the path is at a node other than `y`. -/
theorem exists_shorter (h : FirstPath succ starts y p stack since) {n : ℕ}
    (hn : n < stack.length) :
    ∃ q stack' since', FirstPath succ starts y q stack' since' ∧ stack'.length = n ∧ q ≠ y := by
  induction h with
  | start _ _ _ => simp at hn
  | @step p c stack since pre post t hpath hsucc hpre hreach ih =>
    by_cases hlast : n < stack.length
    · exact ih hlast
    · refine ⟨p, stack, since, hpath, ?_, ?_⟩
      · rw [List.length_cons] at hn
        omega
      · rintro rfl
        exact hreach.end_notMem (by simp)

/-- There is only one first path to `y`. -/
theorem unique (h : FirstPath succ starts y y stack since)
    (h' : FirstPath succ starts y y stack' since') : stack = stack' ∧ since = since' := by
  rcases lt_trichotomy stack.length stack'.length with hlt | heq | hlt
  · obtain ⟨q, stack'', since'', hq, hlength, hne⟩ := h'.exists_shorter hlt
    exact absurd (h.eq_of_length hq hlength.symm).1.symm hne
  · exact (h.eq_of_length h' heq).2
  · obtain ⟨q, stack'', since'', hq, hlength, hne⟩ := h.exists_shorter hlt
    exact absurd (h'.eq_of_length hq hlength.symm).1.symm hne

/-- Marked edges lead from the nodes of `since` to the node that the path has come to. -/
theorem transGen_of_mem_since (h : FirstPath succ starts y p stack since) {x : V}
    (hx : x ∈ since) : TransGen (fun a b => (true, b) ∈ succ a) x p := by
  induction h with
  | start _ _ _ => simp at hx
  | @step p c stack since pre post t _ hsucc _ _ ih =>
    cases t with
    | false => simp at hx
    | true =>
      have hedge : (true, c) ∈ succ p := by rw [hsucc]; simp
      rcases Finset.mem_insert.mp hx with rfl | hx
      · exact .single hedge
      · exact (ih hx).tail hedge

end FirstPath

end Cargo.Math
