import Mathlib.Logic.Relation
import Mathlib.Order.Basic
import Mathlib.Order.WellFounded
import Mathlib.Data.Nat.Init

/-!
# Transition systems

Invariants of all reachable states, and progress in infinite runs in which a process that can
always take a step does take one.

## Main definitions

* `Behaviour` — an infinite run, stuttering steps included
* `Behaviour.WeaklyFair` — a process that stays enabled takes a step

## Main results

* `invariant_of_reachable` — an invariant holds in every reachable state
* `Behaviour.leads_to` — from a stable condition that enables a fair process to its effect
* `Behaviour.leads_to_of_descent` — fair processes that make a measure smaller until they are done
-/

set_option autoImplicit false

namespace Cargo.Math

open Relation

variable {σ : Type*} {next : σ → σ → Prop}

/-- What holds at the start and is kept by every step holds in every reachable state. -/
theorem invariant_of_reachable {P : σ → Prop} {s₀ s : σ} (hs : ReflTransGen next s₀ s)
    (hinit : P s₀) (hstep : ∀ s s', P s → next s s' → P s') : P s := by
  induction hs with
  | refl => exact hinit
  | tail _ hnext ih => exact hstep _ _ ih hnext

/-- An infinite run from `s₀`. A run that comes to an end is one that stutters from there. -/
structure Behaviour (next : σ → σ → Prop) (s₀ : σ) where
  state : ℕ → σ
  start : state 0 = s₀
  step : ∀ k, state (k + 1) = state k ∨ next (state k) (state (k + 1))

namespace Behaviour

variable {s₀ : σ} (b : Behaviour next s₀)

/-- The process with steps `act` is not left out forever while it can take a step. -/
def WeaklyFair (act : σ → σ → Prop) : Prop :=
  ∀ k, (∀ m, k ≤ m → ∃ s, act (b.state m) s) → ∃ m, k ≤ m ∧ act (b.state m) (b.state (m + 1))

/-- All states of a run are reachable. -/
theorem reachable (k : ℕ) : ReflTransGen next s₀ (b.state k) := by
  induction k with
  | zero =>
    rw [b.start]
  | succ k ih =>
    rcases b.step k with hstutter | hnext
    · rw [hstutter]
      exact ih
    · exact ih.tail hnext

/-- While `P` holds the process is enabled, and nothing ends `P` without reaching `Q`; so if
the process is treated fairly and its own steps reach `Q`, then `P` leads to `Q`. -/
theorem leads_to {act : σ → σ → Prop} {P Q : σ → Prop} (hfair : b.WeaklyFair act)
    (hstable : ∀ s s', P s → next s s' → P s' ∨ Q s')
    (hact : ∀ s s', P s → act s s' → Q s') (henabled : ∀ s, P s → ∃ s', act s s')
    {k : ℕ} (hk : P (b.state k)) : ∃ m, k ≤ m ∧ Q (b.state m) := by
  by_contra hnever
  have hQ : ∀ m, k ≤ m → ¬ Q (b.state m) := fun m hm hq => hnever ⟨m, hm, hq⟩
  have hP : ∀ m, k ≤ m → P (b.state m) := by
    intro m hm
    induction m, hm using Nat.le_induction with
    | base => exact hk
    | succ m hm ih =>
      rcases b.step m with hstutter | hnext
      · rw [hstutter]
        exact ih
      · exact (hstable _ _ ih hnext).resolve_right (hQ (m + 1) (Nat.le_succ_of_le hm))
  obtain ⟨m, hm, hstep⟩ := hfair k fun m hm => henabled _ (hP m hm)
  exact hQ (m + 1) (Nat.le_succ_of_le hm) (hact _ _ (hP m hm) hstep)

/-- While `P` holds, one of the processes is enabled and its steps make `M` smaller, and the other
steps keep what is enabled if they do not. So if all processes are treated fairly, then `P` leads
to `Q`. -/
theorem leads_to_of_descent {ι α : Type*} [Preorder α] [WellFoundedLT α]
    {act : ι → σ → σ → Prop} {P Q : σ → Prop} (M : σ → α) (hfair : ∀ i, b.WeaklyFair (act i))
    (hstep : ∀ s s', P s → next s s' → Q s' ∨ P s' ∧
      (M s' < M s ∨ M s' = M s ∧ ∀ i, (∃ t, act i s t) → ∃ t, act i s' t))
    (hact : ∀ i s s', P s → act i s s' → Q s' ∨ M s' < M s)
    (henabled : ∀ s, P s → ∃ i s', act i s s') {k : ℕ} (hk : P (b.state k)) :
    ∃ m, k ≤ m ∧ Q (b.state m) := by
  by_contra hnever
  have hQ : ∀ m, k ≤ m → ¬ Q (b.state m) := fun m hm hq => hnever ⟨m, hm, hq⟩
  have hP : ∀ m, k ≤ m → P (b.state m) := by
    intro m hm
    induction m, hm using Nat.le_induction with
    | base => exact hk
    | succ m hm ih =>
      rcases b.step m with hstutter | hnext
      · rw [hstutter]
        exact ih
      · exact ((hstep _ _ ih hnext).resolve_left (hQ (m + 1) (Nat.le_succ_of_le hm))).1
  -- the measure becomes smaller again and again
  have hsmaller : ∀ m, k ≤ m → ∃ m', k ≤ m' ∧ M (b.state m') < M (b.state m) := by
    intro m hm
    by_contra hnot
    have hge : ∀ m', k ≤ m' → ¬ M (b.state m') < M (b.state m) :=
      fun m' hm' hlt => hnot ⟨m', hm', hlt⟩
    obtain ⟨i, hi⟩ := henabled _ (hP m hm)
    have hstays : ∀ m', m ≤ m' → M (b.state m') = M (b.state m) ∧ ∃ t, act i (b.state m') t := by
      intro m' hm'
      induction m', hm' using Nat.le_induction with
      | base => exact ⟨rfl, hi⟩
      | succ m' hm' ih =>
        have hkm : k ≤ m' := hm.trans hm'
        rcases b.step m' with hstutter | hnext
        · rw [hstutter]
          exact ih
        · have hcases := (hstep _ _ (hP m' hkm) hnext).resolve_left
            (hQ (m' + 1) (Nat.le_succ_of_le hkm))
          rcases hcases.2 with hlt | ⟨heq, hkeeps⟩
          · exact absurd (ih.1 ▸ hlt) (hge (m' + 1) (Nat.le_succ_of_le hkm))
          · exact ⟨heq.trans ih.1, hkeeps i ih.2⟩
    obtain ⟨m', hm', htaken⟩ := hfair i m fun m' hm' => (hstays m' hm').2
    have hkm : k ≤ m' := hm.trans hm'
    have hlt := (hact i _ _ (hP m' hkm) htaken).resolve_left
      (hQ (m' + 1) (Nat.le_succ_of_le hkm))
    exact hge (m' + 1) (Nat.le_succ_of_le hkm) ((hstays m' hm').1 ▸ hlt)
  have hdescend : ∀ x : α, ∀ m, k ≤ m → M (b.state m) = x → False := by
    intro x
    induction x using WellFoundedLT.induction with
    | ind x ih =>
      intro m hm hx
      obtain ⟨m', hm', hlt⟩ := hsmaller m hm
      exact ih _ (hx ▸ hlt) m' hm' rfl
  exact hdescend _ k le_rfl rfl

end Behaviour

end Cargo.Math
