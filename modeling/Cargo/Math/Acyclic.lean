import Mathlib.Data.Finite.Prod
import Mathlib.Data.Finset.Card
import Mathlib.Data.Set.Finite.Basic
import Mathlib.Logic.Relation
import Mathlib.Order.WellFounded

/-!
# Acyclic relations and their chains

A dependency relation is acyclic when no element reaches itself. On a finite
carrier this yields elements without successors in every nonempty finite set, and
bounds the length of chains, so that each element has a longest one.

## Main definitions

* `Acyclic` — no element reaches itself
* `reachRank` — how many elements of a finite set can be reached
* `ChainFrom r a n` — some `r`-chain of `n` elements starts at `a`
* `IsLongestChain r a d` — the longest `r`-chain from `a` has `d` elements

## Main results

* `acyclic_of_rank` — a relation along which a rank decreases is acyclic
* `Acyclic.reachRank_lt` — conversely, fewer elements are reached after a step
* `Acyclic.exists_sink` — a nonempty finite set has an element with no successor
  inside the set
* `isLongestChain_of_successors` — one element is longer than its best successor
-/

set_option autoImplicit false

namespace Cargo.Math

open Relation

variable {α : Type*} {r : α → α → Prop}

/-- No element reaches itself along `r`. -/
def Acyclic (r : α → α → Prop) : Prop := ∀ a, ¬ TransGen r a a

/-- Acyclicity passes to every subrelation. -/
theorem Acyclic.mono {r' : α → α → Prop} (h : Acyclic r) (hr : ∀ a b, r' a b → r a b) :
    Acyclic r' :=
  fun a ha => h a (TransGen.mono hr _ _ ha)

/-- Reversing every edge keeps a relation acyclic. -/
theorem Acyclic.swap (h : Acyclic r) : Acyclic (fun a b => r b a) := by
  intro a ha
  exact h a (transGen_swap.mp ha)

/-- A relation along which some rank decreases is acyclic. -/
theorem acyclic_of_rank (rank : α → ℕ) (h : ∀ a b, r a b → rank b < rank a) : Acyclic r := by
  have hlt : ∀ a b, TransGen r a b → rank b < rank a := by
    intro a b hab
    induction hab with
    | single hr => exact h _ _ hr
    | tail _ hr ih => exact (h _ _ hr).trans ih
  exact fun a ha => lt_irrefl _ (hlt a a ha)

open Classical in
/-- The number of elements of a finite set that can be reached. -/
noncomputable def reachRank (r : α → α → Prop) (s : Finset α) (a : α) : ℕ :=
  (s.filter fun x => TransGen r a x).card

/-- What is reached after a step was reached before, and the step itself leads to an element
that is not reached again. -/
theorem Acyclic.reachRank_lt (h : Acyclic r) {s : Finset α} {a b : α} (hab : r a b)
    (hb : b ∈ s) : reachRank r s b < reachRank r s a := by
  classical
  apply Finset.card_lt_card
  rw [Finset.ssubset_iff_of_subset]
  · refine ⟨b, Finset.mem_filter.mpr ⟨hb, .single hab⟩, ?_⟩
    intro hmem
    exact h b (Finset.mem_filter.mp hmem).2
  · intro x hx
    rw [Finset.mem_filter] at hx ⊢
    exact ⟨hx.1, .head hab hx.2⟩

theorem Acyclic.reachRank_lt_card (h : Acyclic r) {s : Finset α} {a : α} (ha : a ∈ s) :
    reachRank r s a < s.card := by
  classical
  apply Finset.card_lt_card
  rw [Finset.ssubset_iff_of_subset (Finset.filter_subset _ _)]
  exact ⟨a, ha, fun hmem => h a (Finset.mem_filter.mp hmem).2⟩

/-- On a finite set of elements, an acyclic relation is well-founded in the
direction of its edges. -/
theorem Acyclic.wellFounded_on_finset (h : Acyclic r) (s : Finset α) :
    WellFounded fun b a : s => TransGen r a.1 b.1 := by
  have : IsTrans s fun b a : s => TransGen r a.1 b.1 := ⟨fun _ _ _ hba hcb => hcb.trans hba⟩
  have : Std.Irrefl fun b a : s => TransGen r a.1 b.1 := ⟨fun a ha => h a.1 ha⟩
  exact Finite.wellFounded_of_trans_of_irrefl _

/-- Following edges inside a nonempty finite set of an acyclic relation comes to an
end: some element has no successor in the set. -/
theorem Acyclic.exists_sink (h : Acyclic r) {s : Finset α} (hs : s.Nonempty) :
    ∃ a ∈ s, ∀ b ∈ s, ¬ r a b := by
  obtain ⟨x, hx⟩ := hs
  obtain ⟨a, -, ha⟩ := (h.wellFounded_on_finset s).has_min Set.univ ⟨⟨x, hx⟩, trivial⟩
  exact ⟨a.1, a.2, fun b hb hab => ha ⟨b, hb⟩ trivial (.single hab)⟩

/-- Some chain of `n` elements starts at the given element and follows `r`. -/
inductive ChainFrom (r : α → α → Prop) : α → ℕ → Prop
  | single (a : α) : ChainFrom r a 1
  | cons {a b : α} {n : ℕ} : r a b → ChainFrom r b n → ChainFrom r a (n + 1)

theorem ChainFrom.pos {a : α} {n : ℕ} (h : ChainFrom r a n) : 0 < n := by
  cases h <;> omega

/-- The longest chain from `a` has `d` elements. -/
def IsLongestChain (r : α → α → Prop) (a : α) (d : ℕ) : Prop :=
  ChainFrom r a d ∧ ∀ n, ChainFrom r a n → n ≤ d

theorem IsLongestChain.pos {a : α} {d : ℕ} (h : IsLongestChain r a d) : 0 < d := h.1.pos

/-- If `m` bounds the longest chains of all successors of `a` and is attained by one
of them, or is zero when there is none, the longest chain from `a` has `1 + m`
elements. -/
theorem isLongestChain_of_successors {a : α} {m : ℕ}
    (hbound : ∀ b, r a b → ∃ d, IsLongestChain r b d ∧ d ≤ m)
    (hattained : m = 0 ∨ ∃ b, r a b ∧ IsLongestChain r b m) :
    IsLongestChain r a (1 + m) := by
  constructor
  · rcases hattained with rfl | ⟨b, hab, hb⟩
    · exact .single a
    · rw [Nat.add_comm]
      exact .cons hab hb.1
  · intro n hn
    cases hn with
    | single => omega
    | cons hab hb =>
      obtain ⟨d, hd, hdm⟩ := hbound _ hab
      have := hd.2 _ hb
      omega

end Cargo.Math
