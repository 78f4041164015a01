import Mathlib.Logic.Relation
import Mathlib.Logic.Function.Basic
import Mathlib.Data.List.Basic
import Mathlib.Data.List.Forall2
import Mathlib.Order.Basic
import Mathlib.Order.Nat

/-!
# Values with a memo

Each node of an acyclic graph has a value, which is made from those of its successors. Values
are computed on demand and noted, and a value that was noted is used from then on, whether it
still is what would be computed or not.

## Main definitions

* `Dag` — an acyclic graph
* `Dag.value` — the value of a node, where what was noted counts
* `Dag.compute` — compute it and note it
* `Dag.Notes` — what computing adds to the notes

## Main results

* `Dag.compute_spec` — computing gives the value and notes values only
-/

set_option autoImplicit false

namespace Cargo.Math

open Relation

variable {U V : Type*}

/-- Do something for all items of a list, one after the other. -/
def traverse {α β σ : Type*} (f : α → σ → β × σ) : List α → σ → List β × σ
  | [], s => ([], s)
  | a :: l, s => ((f a s).1 :: (traverse f l (f a s).2).1, (traverse f l (f a s).2).2)

theorem traverse_map {α β γ σ : Type*} (f : β → σ → γ × σ) (k : α → β) (l : List α) (s : σ) :
    traverse f (l.map k) s = traverse (fun a => f (k a)) l s := by
  induction l generalizing s with
  | nil => rfl
  | cons a l ih => rw [List.map_cons, traverse, traverse, ih]

/-- What is kept by each item is kept by all of them. -/
theorem forall_mem_traverse {α β σ : Type*} {f : α → σ → β × σ} {I : σ → Prop} {Q : β → Prop}
    (l : List α) (h : ∀ a ∈ l, ∀ s, I s → Q (f a s).1 ∧ I (f a s).2) {s : σ} (hs : I s) :
    (∀ b ∈ (traverse f l s).1, Q b) ∧ I (traverse f l s).2 := by
  induction l generalizing s with
  | nil => exact ⟨nofun, hs⟩
  | cons a l ih =>
    obtain ⟨hvalue, hstate⟩ := h a List.mem_cons_self s hs
    have hrest := ih (fun b hb => h b (List.mem_cons_of_mem a hb)) hstate
    refine ⟨?_, hrest.2⟩
    intro b hb
    rcases List.mem_cons.mp hb with rfl | hb
    · exact hvalue
    · exact hrest.1 b hb

/-- What holds of the items of a list holds of those that are related to them. -/
theorem forall_mem_of_forall₂ {α β : Type*} {R : α → β → Prop} {P : α → Prop} {Q : β → Prop}
    {l : List α} {l' : List β} (hl : List.Forall₂ R l l') (h : ∀ a b, R a b → Q b → P a)
    (hl' : ∀ b ∈ l', Q b) : ∀ a ∈ l, P a := by
  induction hl with
  | nil => simp
  | cons hab _ ih =>
    rw [List.forall_mem_cons] at hl' ⊢
    exact ⟨h _ _ hab hl'.1, ih hl'.2⟩

theorem forall_mem_iff_of_forall₂ {α β : Type*} {R : α → β → Prop} {P : α → Prop}
    {Q : β → Prop} {l : List α} {l' : List β} (hl : List.Forall₂ R l l')
    (h : ∀ a b, R a b → (P a ↔ Q b)) : (∀ a ∈ l, P a) ↔ ∀ b ∈ l', Q b := by
  constructor
  · intro hP
    exact forall_mem_of_forall₂ (List.Forall₂.flip hl) (fun b a hab => (h a b hab).mp) hP
  · intro hQ
    exact forall_mem_of_forall₂ hl (fun a b hab => (h a b hab).mpr) hQ

/-- A graph without cycles. -/
structure Dag (U : Type*) where
  succ : U → List U
  rank : U → ℕ
  rank_lt : ∀ u, ∀ d ∈ succ u, rank d < rank u

namespace Dag

variable (g : Dag U)

/-- The node is there, or can be reached. -/
def Below (u x : U) : Prop :=
  ReflTransGen (fun a b => b ∈ g.succ a) u x

/-- The value of a node: what was noted for it, or what is made from the values of its
successors. -/
def value (eval : U → List V → V) (memo : U → Option V) (u : U) : V :=
  match memo u with
  | some v => v
  | none => eval u ((g.succ u).attach.map fun d => value eval memo d.1)
termination_by g.rank u
decreasing_by exact g.rank_lt u d.1 d.2

/-- Compute a value and note it, and those of the successors. -/
def compute [DecidableEq U] (eval : U → List V → V) (u : U) (memo : U → Option V) :
    V × (U → Option V) :=
  match memo u with
  | some v => (v, memo)
  | none =>
    let r := traverse (fun d memo => compute eval d.1 memo) (g.succ u).attach memo
    (eval u r.1, Function.update r.2 u (some (eval u r.1)))
termination_by g.rank u
decreasing_by exact g.rank_lt u d.1 d.2

variable {g}

theorem Below.rank_le {u x : U} (h : g.Below u x) : g.rank x ≤ g.rank u := by
  induction h with
  | refl => exact le_rfl
  | tail _ hstep ih => exact (g.rank_lt _ _ hstep).le.trans ih

/-- Nothing is below itself. -/
theorem not_below_of_mem {u d : U} (hd : d ∈ g.succ u) : ¬ g.Below d u := fun h =>
  absurd h.rank_le (Nat.not_le.mpr (g.rank_lt u d hd))

/-- Induction from the successors to a node. -/
theorem induction {P : U → Prop} (h : ∀ u, (∀ d ∈ g.succ u, P d) → P u) (u : U) : P u := by
  induction hn : g.rank u using Nat.strong_induction_on generalizing u with
  | _ n ih =>
    apply h
    intro d hd
    exact ih _ (hn ▸ g.rank_lt u d hd) d rfl

section Value

variable {eval : U → List V → V} {memo : U → Option V}

theorem value_of_some {u : U} {v : V} (h : memo u = some v) : g.value eval memo u = v := by
  rw [value, h]

theorem value_of_none {u : U} (h : memo u = none) :
    g.value eval memo u = eval u ((g.succ u).map (g.value eval memo)) := by
  rw [value, h]
  simp only [List.map_attach_eq_pmap, List.pmap_eq_map]

/-- A value is made from what is below. -/
theorem value_congr {eval' : U → List V → V} {memo' : U → Option V} {u : U}
    (heval : ∀ x, g.Below u x → eval x = eval' x) (hmemo : ∀ x, g.Below u x → memo x = memo' x) :
    g.value eval memo u = g.value eval' memo' u := by
  induction u using g.induction with
  | h u ih =>
    have hu := hmemo u .refl
    cases hv : memo u with
    | some v => rw [value_of_some hv, value_of_some (hu.symm.trans hv)]
    | none =>
      rw [value_of_none hv, value_of_none (hu.symm.trans hv), heval u .refl]
      congr 1
      refine List.map_congr_left fun d hd => ih d hd ?_ ?_
      · exact fun x hx => heval x (.head hd hx)
      · exact fun x hx => hmemo x (.head hd hx)

end Value

/-! ### What computing adds -/

/-- Values were noted, of nodes in `R` that had none. -/
def Notes (g : Dag U) (eval : U → List V → V) (R : U → Prop) (memo memo' : U → Option V) : Prop :=
  ∀ x, memo' x = memo x ∨ memo x = none ∧ memo' x = some (g.value eval memo x) ∧ R x

/-- If something was noted for a node, then also for its successors. -/
def Closed (g : Dag U) (memo : U → Option V) : Prop :=
  ∀ u, memo u ≠ none → ∀ d ∈ g.succ u, memo d ≠ none

theorem Closed.below {memo : U → Option V} (h : g.Closed memo) {u x : U} (hu : memo u ≠ none)
    (hx : g.Below u x) : memo x ≠ none := by
  induction hx with
  | refl => exact hu
  | tail _ hstep ih => exact h _ ih _ hstep

namespace Notes

variable {eval : U → List V → V} {R R' : U → Prop} {memo memo' memo'' : U → Option V}

theorem refl : g.Notes eval R memo memo := fun _ => .inl rfl

theorem mono (h : g.Notes eval R memo memo') (hR : ∀ x, R x → R' x) :
    g.Notes eval R' memo memo' := by
  intro x
  rcases h x with heq | ⟨hnone, hsome, hx⟩
  · exact .inl heq
  · exact .inr ⟨hnone, hsome, hR x hx⟩

/-- No value changes. -/
theorem value_eq (h : g.Notes eval R memo memo') (u : U) :
    g.value eval memo' u = g.value eval memo u := by
  induction u using g.induction with
  | h u ih =>
    rcases h u with heq | ⟨hnone, hsome, -⟩
    · cases hv : memo u with
      | some v => rw [value_of_some hv, value_of_some (heq.trans hv)]
      | none =>
        rw [value_of_none hv, value_of_none (heq.trans hv)]
        congr 1
        exact List.map_congr_left ih
    · exact value_of_some hsome

theorem trans (h : g.Notes eval R memo memo') (h' : g.Notes eval R memo' memo'') :
    g.Notes eval R memo memo'' := by
  intro x
  rcases h' x with heq | ⟨hnone, hsome, hx⟩
  · rcases h x with heq' | ⟨hnone', hsome', hx'⟩
    · exact .inl (heq.trans heq')
    · exact .inr ⟨hnone', heq.trans hsome', hx'⟩
  · rcases h x with heq' | ⟨hnone', hsome', -⟩
    · exact .inr ⟨heq' ▸ hnone, h.value_eq x ▸ hsome, hx⟩
    · rw [hnone] at hsome'
      cases hsome'

theorem ne_none (h : g.Notes eval R memo memo') {x : U} (hx : memo x ≠ none) :
    memo' x ≠ none := by
  rcases h x with heq | ⟨hnone, -, -⟩
  · rw [heq]
    exact hx
  · exact absurd hnone hx

end Notes

section Compute

variable {eval : U → List V → V}

/-- What it is to compute values: they are returned and noted. -/
structure Computes (g : Dag U) (eval : U → List V → V) (R : U → Prop) (memo memo' : U → Option V)
    : Prop where
  notes : g.Notes eval R memo memo'
  closed : g.Closed memo → g.Closed memo'

/-- Values of several nodes. -/
theorem traverse_spec {us : List U} {f : U → (U → Option V) → V × (U → Option V)}
    (hf : ∀ u ∈ us, ∀ memo, (f u memo).1 = g.value eval memo u ∧
      (f u memo).2 u = some (g.value eval memo u) ∧
      g.Computes eval (g.Below u) memo (f u memo).2) (memo : U → Option V) :
    (traverse f us memo).1 = us.map (g.value eval memo) ∧
      (∀ u ∈ us, (traverse f us memo).2 u ≠ none) ∧
      g.Computes eval (fun x => ∃ u ∈ us, g.Below u x) memo (traverse f us memo).2 := by
  induction us generalizing memo with
  | nil => exact ⟨rfl, fun u hu => absurd hu List.not_mem_nil, .refl, fun h => h⟩
  | cons u us ih =>
    obtain ⟨hvalue, hnoted, hcomputes⟩ := hf u List.mem_cons_self memo
    obtain ⟨hvalues, hall, hrest⟩ :=
      ih (fun u hu => hf u (List.mem_cons_of_mem _ hu)) (f u memo).2
    refine ⟨?_, ?_, ?_, ?_⟩
    · change (f u memo).1 :: _ = _
      rw [hvalue, hvalues, List.map_cons]
      congr 1
      exact List.map_congr_left fun d _ => hcomputes.notes.value_eq d
    · intro d hd
      rcases List.mem_cons.mp hd with rfl | hd
      · apply hrest.notes.ne_none
        rw [hnoted]
        simp
      · exact hall d hd
    · apply (hcomputes.notes.mono _).trans (hrest.notes.mono _)
      · exact fun x hx => ⟨u, List.mem_cons_self, hx⟩
      · rintro x ⟨d, hd, hx⟩
        exact ⟨d, List.mem_cons_of_mem _ hd, hx⟩
    · exact fun h => hrest.closed (hcomputes.closed h)

variable [DecidableEq U]

theorem compute_of_some {u : U} {v : V} {memo : U → Option V} (h : memo u = some v) :
    g.compute eval u memo = (v, memo) := by
  rw [compute, h]

theorem compute_of_none {u : U} {memo : U → Option V} (h : memo u = none) :
    g.compute eval u memo =
      (eval u (traverse (g.compute eval) (g.succ u) memo).1,
        Function.update (traverse (g.compute eval) (g.succ u) memo).2 u
          (some (eval u (traverse (g.compute eval) (g.succ u) memo).1))) := by
  have hattach : traverse (fun d memo => g.compute eval d.1 memo) (g.succ u).attach memo =
      traverse (g.compute eval) (g.succ u) memo := by
    rw [← traverse_map (g.compute eval) Subtype.val, List.attach_map_subtype_val]
  rw [compute, h]
  simp only [hattach]

variable (g) in
/-- Computing a value returns it and notes values of nodes below. -/
theorem compute_spec (eval : U → List V → V) (u : U) (memo : U → Option V) :
    (g.compute eval u memo).1 = g.value eval memo u ∧
      (g.compute eval u memo).2 u = some (g.value eval memo u) ∧
      g.Computes eval (g.Below u) memo (g.compute eval u memo).2 := by
  induction u using g.induction generalizing memo with
  | h u ih =>
    cases hu : memo u with
    | some v =>
      rw [compute_of_some hu, value_of_some hu]
      exact ⟨rfl, hu, .refl, fun h => h⟩
    | none =>
      obtain ⟨hvalues, hall, hcomputes⟩ :=
        traverse_spec (f := g.compute eval) (fun d hd => ih d hd) memo
      rw [compute_of_none hu, value_of_none hu, hvalues]
      dsimp only
      refine ⟨rfl, Function.update_self _ _ _, ?_, ?_⟩
      -- the node itself is noted last, after what the nodes below it have noted
      · intro x
        by_cases hx : x = u
        · subst hx
          right
          rw [Function.update_self, value_of_none hu]
          exact ⟨hu, rfl, .refl⟩
        · rw [Function.update_of_ne hx]
          rcases hcomputes.notes x with heq | ⟨hnone, hsome, d, hd, hbelow⟩
          · exact .inl heq
          · exact .inr ⟨hnone, hsome, .head hd hbelow⟩
      · intro hclosed x hx d hd
        by_cases hdu : d = u
        · rw [hdu, Function.update_self]
          simp
        · rw [Function.update_of_ne hdu]
          by_cases hxu : x = u
          · exact hall d (hxu ▸ hd)
          · rw [Function.update_of_ne hxu] at hx
            exact hcomputes.closed hclosed x hx d hd

end Compute

end Dag

end Cargo.Math
