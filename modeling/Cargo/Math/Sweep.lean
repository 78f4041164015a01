import Mathlib.Data.Finset.Card
import Mathlib.Data.Finset.Insert
import Mathlib.Algebra.Order.BigOperators.Group.List
import Mathlib.Algebra.Order.Ring.Nat
import Mathlib.Logic.Relation

/-!
# Sweeping a graph

Two ways to visit everything below some nodes of a graph once. A recursive sweep adds nodes to
a set that also tells it where it has been; what the set held before is not entered. A
worklist pops items off a stack, visits those whose key is new and pushes their successors.

## Main definitions

* `collect` — the recursive sweep
* `Collected` — what it leaves behind
* `worklist`

## Main results

* `collect_spec`, `worklist_spec`
-/

set_option autoImplicit false

namespace Cargo.Math

open Relation

/-! ### The recursive sweep -/

section Collect

variable {α : Type*} [DecidableEq α] (succ : α → List α)

/-- Add `a` and everything below it to a set, without entering what the set holds. -/
def collect : ℕ → Finset α → α → Finset α
  | 0, set, _ => set
  | n + 1, set, a => if a ∈ set then set else (succ a).foldl (collect n) (insert a set)

/-- The set `T` is `set` with `starts` and what lies below them outside `set`. -/
structure Collected (set : Finset α) (starts : List α) (T : Finset α) : Prop where
  subset : set ⊆ T
  starts_mem : ∀ a ∈ starts, a ∈ T
  closed : ∀ a ∈ T, a ∉ set → ∀ b ∈ succ a, b ∈ T
  below : ∀ b ∈ T, b ∉ set →
    ∃ a ∈ starts, a ∉ set ∧ ReflTransGen (fun x y => y ∈ succ x ∧ y ∉ set) a b

variable {succ}

omit [DecidableEq α] in
theorem Collected.nil (set : Finset α) : Collected succ set [] set where
  subset := fun _ h => h
  starts_mem := by simp
  closed := fun a h h' => absurd h h'
  below := fun b h h' => absurd h h'

/-- One sweep after another. -/
theorem Collected.append {set T T' : Finset α} {l l' : List α} (h : Collected succ set l T)
    (h' : Collected succ T l' T') : Collected succ set (l ++ l') T' where
  subset := h.subset.trans h'.subset
  starts_mem := by
    intro a ha
    rcases List.mem_append.mp ha with ha | ha
    · exact h'.subset (h.starts_mem a ha)
    · exact h'.starts_mem a ha
  closed := by
    intro a ha hset b hb
    by_cases haT : a ∈ T
    · exact h'.subset (h.closed a haT hset b hb)
    · exact h'.closed a ha haT b hb
  below := by
    intro b hb hset
    by_cases hbT : b ∈ T
    · obtain ⟨a, ha, hpath⟩ := h.below b hbT hset
      exact ⟨a, List.mem_append_left _ ha, hpath⟩
    · -- what the second sweep does not enter, the first one did
      obtain ⟨a, ha, haT, hpath⟩ := h'.below b hb hbT
      refine ⟨a, List.mem_append_right _ ha, fun h'' => haT (h.subset h''), ?_⟩
      exact ReflTransGen.mono (fun x y hxy => ⟨hxy.1, fun h'' => hxy.2 (h.subset h'')⟩) _ _ hpath

/-- A sweep over the successors of a new node is one from the node. -/
theorem Collected.cons {set T : Finset α} {a : α} (ha : a ∉ set)
    (h : Collected succ (insert a set) (succ a) T) : Collected succ set [a] T where
  subset := (Finset.subset_insert a set).trans h.subset
  starts_mem := by
    intro b hb
    rw [List.mem_singleton] at hb
    exact hb ▸ h.subset (Finset.mem_insert_self a set)
  closed := by
    intro b hb hset c hc
    by_cases hba : b = a
    · subst hba
      exact h.starts_mem c hc
    · exact h.closed b hb (by simp [hba, hset]) c hc
  below := by
    intro b hb hset
    refine ⟨a, List.mem_singleton_self a, ha, ?_⟩
    by_cases hba : b = a
    · rw [hba]
    · obtain ⟨c, hc, hcset, hpath⟩ := h.below b hb (by simp [hba, hset])
      rw [Finset.mem_insert, not_or] at hcset
      apply ReflTransGen.head ⟨hc, hcset.2⟩
      exact ReflTransGen.mono
        (fun x y hxy => ⟨hxy.1, fun hy => hxy.2 (Finset.mem_insert_of_mem hy)⟩) _ _ hpath

/-- Everything that a sweep can meet. -/
def ClosedUnder (succ : α → List α) (U : Finset α) : Prop := ∀ a ∈ U, ∀ b ∈ succ a, b ∈ U

theorem Collected.foldl {U : Finset α} {f : Finset α → α → Finset α} {n : ℕ}
    (hf : ∀ (set : Finset α) (a : α), a ∈ U → (U \ set).card < n → Collected succ set [a] (f set a))
    (l : List α) (hl : ∀ a ∈ l, a ∈ U) (set : Finset α) (hn : (U \ set).card < n) :
    Collected succ set l (l.foldl f set) := by
  induction l generalizing set with
  | nil => exact Collected.nil set
  | cons a l ih =>
    have hhead := hf set a (hl a List.mem_cons_self) hn
    have hcard : (U \ f set a).card < n :=
      (Finset.card_le_card (Finset.sdiff_subset_sdiff (Finset.Subset.refl U) hhead.subset)).trans_lt
        hn
    exact hhead.append (ih (fun b hb => hl b (List.mem_cons_of_mem _ hb)) _ hcard)

/-- With fuel for every node not yet in the set, the sweep is complete. -/
theorem collect_spec {U : Finset α} (hU : ClosedUnder succ U) (n : ℕ) (set : Finset α) (a : α)
    (ha : a ∈ U) (hn : (U \ set).card < n) : Collected succ set [a] (collect succ n set a) := by
  induction n generalizing set a with
  | zero => exact absurd hn (Nat.not_lt_zero _)
  | succ n ih =>
    rw [collect]
    split_ifs with hmem
    · exact ⟨Finset.Subset.refl set, by simpa using hmem, fun a h h' => absurd h h',
        fun b h h' => absurd h h'⟩
    · apply Collected.cons hmem
      apply Collected.foldl ih _ (hU a ha)
      -- the node itself leaves the nodes that are missing
      have hlt : (U \ insert a set).card < (U \ set).card := by
        apply Finset.card_lt_card
        rw [Finset.ssubset_iff_of_subset
          (Finset.sdiff_subset_sdiff (Finset.Subset.refl U) (Finset.subset_insert a set))]
        exact ⟨a, by simp [ha, hmem], by simp⟩
      omega

end Collect

/-! ### The worklist -/

section Worklist

variable {α K σ : Type*} [DecidableEq K] (key : α → K) (succ : α → List α) (visit : σ → α → σ)

/-- Pop items, visit those whose key is new and push their successors. -/
def worklist : ℕ → List α → Finset K → σ → Option σ
  | _, [], _, s => some s
  | 0, _ :: _, _, _ => none
  | n + 1, a :: stack, visited, s =>
    if key a ∈ visited then worklist n stack visited s
    else worklist n (succ a ++ stack) (insert (key a) visited) (visit s a)

/-- The pushes that are still to come if the items of `U` are all there are. -/
def pushesLeft (U : List α) (visited : Finset K) : ℕ :=
  (U.map fun a => if key a ∈ visited then 0 else (succ a).length).sum

variable {key succ visit}

theorem pushesLeft_cons (b : α) (U : List α) (visited : Finset K) :
    pushesLeft key succ (b :: U) visited =
      (if key b ∈ visited then 0 else (succ b).length) + pushesLeft key succ U visited := by
  simp [pushesLeft]

theorem pushesLeft_insert_le (U : List α) (visited : Finset K) (k : K) :
    pushesLeft key succ U (insert k visited) ≤ pushesLeft key succ U visited := by
  induction U with
  | nil => exact Nat.le_refl 0
  | cons b U ih =>
    rw [pushesLeft_cons, pushesLeft_cons]
    by_cases hb : key b ∈ visited
    · simpa [hb] using ih
    · split_ifs <;> omega

/-- Visiting an item takes its pushes off those still to come. -/
theorem pushesLeft_insert {U : List α} {visited : Finset K} {a : α} (ha : a ∈ U)
    (hnew : key a ∉ visited) :
    (succ a).length + pushesLeft key succ U (insert (key a) visited) ≤
      pushesLeft key succ U visited := by
  induction U with
  | nil => cases ha
  | cons b U ih =>
    rw [pushesLeft_cons, pushesLeft_cons]
    rcases List.mem_cons.mp ha with rfl | ha
    · have hrest : pushesLeft key succ U (insert (key a) visited) ≤ _ :=
        pushesLeft_insert_le U visited (key a)
      rw [if_pos (Finset.mem_insert_self _ _), if_neg hnew]
      omega
    · have hrest := ih ha
      by_cases hb : key b ∈ visited
      · simpa [hb] using hrest
      · split_ifs <;> omega

/-- With fuel for the stack and for all pushes to come, the worklist visits the items below
the stack, in some order. -/
theorem worklist_spec (visit : σ → α → σ) {U : List α} (hU : ∀ a ∈ U, ∀ b ∈ succ a, b ∈ U)
    (hkey : ∀ a ∈ U, ∀ b ∈ U, key a = key b → a = b) (n : ℕ) (stack : List α)
    (hstack : ∀ a ∈ stack, a ∈ U) (visited : Finset K) (s : σ)
    (hn : stack.length + pushesLeft key succ U visited ≤ n) :
    ∃ order : List α, worklist key succ visit n stack visited s = some (order.foldl visit s) ∧
      (∀ a ∈ order, ∃ b ∈ stack, ReflTransGen (fun x y => y ∈ succ x) b a) ∧
      (∀ a ∈ stack, a ∈ order ∨ key a ∈ visited) ∧
      ∀ a ∈ order, ∀ b ∈ succ a, b ∈ order ∨ key b ∈ visited := by
  induction n generalizing stack visited s with
  | zero =>
    obtain rfl : stack = [] := List.length_eq_zero_iff.mp (by omega)
    exact ⟨[], rfl, by simp, by simp, by simp⟩
  | succ n ih =>
    cases stack with
    | nil => exact ⟨[], rfl, by simp, by simp, by simp⟩
    | cons a stack =>
      have haU : a ∈ U := hstack a List.mem_cons_self
      have hrest : ∀ b ∈ stack, b ∈ U := fun b hb => hstack b (List.mem_cons_of_mem _ hb)
      rw [List.length_cons] at hn
      by_cases ha : key a ∈ visited
      · obtain ⟨order, hrun, hsound, hcovers, hclosed⟩ := ih stack hrest visited s (by omega)
        refine ⟨order, by rw [worklist, if_pos ha, hrun], ?_, ?_, hclosed⟩
        · intro c hc
          obtain ⟨b, hb, hpath⟩ := hsound c hc
          exact ⟨b, List.mem_cons_of_mem _ hb, hpath⟩
        · intro b hb
          rcases List.mem_cons.mp hb with rfl | hb
          · exact .inr ha
          · exact hcovers b hb
      · have hpushes : (succ a).length + _ ≤ _ := pushesLeft_insert haU ha
        have hpushed : ∀ b ∈ succ a ++ stack, b ∈ U := by
          intro b hb
          rcases List.mem_append.mp hb with hb | hb
          · exact hU a haU b hb
          · exact hrest b hb
        obtain ⟨order, hrun, hsound, hcovers, hclosed⟩ :=
          ih (succ a ++ stack) hpushed (insert (key a) visited) (visit s a)
            (by rw [List.length_append]; omega)
        -- an item that was left out for its key is the one just visited, or was left out before
        have hleft : ∀ b ∈ U, b ∈ order ∨ key b ∈ insert (key a) visited →
            b ∈ a :: order ∨ key b ∈ visited := by
          intro b hbU hb
          rcases hb with hb | hb
          · exact .inl (List.mem_cons_of_mem _ hb)
          · rcases Finset.mem_insert.mp hb with hb | hb
            · exact .inl (hkey b hbU a haU hb ▸ List.mem_cons_self)
            · exact .inr hb
        have horder : ∀ c ∈ order, c ∈ U := by
          intro c hc
          obtain ⟨b, hb, hpath⟩ := hsound c hc
          clear hc
          induction hpath with
          | refl => exact hpushed b hb
          | tail _ hstep hprev => exact hU _ hprev _ hstep
        refine ⟨a :: order, by rw [worklist, if_neg ha, hrun]; rfl, ?_, ?_, ?_⟩
        · intro c hc
          rcases List.mem_cons.mp hc with rfl | hc
          · exact ⟨c, List.mem_cons_self, .refl⟩
          · obtain ⟨b, hb, hpath⟩ := hsound c hc
            rcases List.mem_append.mp hb with hb | hb
            · exact ⟨a, List.mem_cons_self, .head hb hpath⟩
            · exact ⟨b, List.mem_cons_of_mem _ hb, hpath⟩
        · intro b hb
          rcases List.mem_cons.mp hb with rfl | hb
          · exact .inl List.mem_cons_self
          · exact hleft b (hrest b hb) (hcovers b (List.mem_append_right _ hb))
        · intro c hc b hb
          rcases List.mem_cons.mp hc with rfl | hc
          · exact hleft b (hU c haU b hb) (hcovers b (List.mem_append_left _ hb))
          · exact hleft b (hU c (horder c hc) b hb) (hclosed c hc b hb)

end Worklist

end Cargo.Math
