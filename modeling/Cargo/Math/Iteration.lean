import Mathlib.Data.Finset.Sort
import Mathlib.Data.List.Forall2
import Mathlib.Data.List.Sort

/-!
# Iterating over hash collections

A hash set or the key set of a hash map is a finite set; what a program sees when
it iterates over one is some enumeration of it. Nothing is promised about the
enumeration beyond that every element is met exactly once, so a program that
iterates is modelled with the enumeration as an argument and its properties are
proved for every enumeration.

The loops themselves are monadic folds that can fail. The two invariant rules
below are the only way the development reasons about such a loop: one shows that
the loop does not fail, the other reads off what holds when it did not.

## Main definitions

* `SetOrder` — a choice of enumeration for every finite set
* `SetOrder.ascending` — the executable enumeration in increasing order
* `SetOrder.following` — the enumeration in the order of a given list
* `HashOrder` — the enumerations of a set and of those that belong to its elements

## Main results

* `mapM_eq_ok` — a loop that collects its results
* `foldl_iff` — what becomes true in some step of a fold
* `exists_foldlM_pure` — a loop whose body never fails on the invariant succeeds
* `foldlM_ok_induction` — what a successful loop has established
-/

set_option autoImplicit false

namespace Cargo.Math

/-- A choice, for every finite set, of the order in which iterating over it meets
its elements. -/
structure SetOrder (α : Type*) where
  /-- The elements of the set, in iteration order. -/
  enum : Finset α → List α
  nodup_enum : ∀ s, (enum s).Nodup
  mem_enum_iff : ∀ s a, a ∈ enum s ↔ a ∈ s

namespace SetOrder

variable {α : Type*} (ho : SetOrder α)

@[simp] theorem mem_enum {s : Finset α} {a : α} : a ∈ ho.enum s ↔ a ∈ s :=
  ho.mem_enum_iff s a

@[simp] theorem enum_eq_nil {s : Finset α} : ho.enum s = [] ↔ s = ∅ := by
  rw [List.eq_nil_iff_forall_not_mem, Finset.eq_empty_iff_forall_notMem]
  simp

/-- Iteration in increasing order. Sorting by insertion keeps it reducible by
`decide`. -/
def ascending (α : Type*) [LinearOrder α] : SetOrder α where
  enum s := Quot.liftOn s.val (fun l => l.insertionSort (· ≤ ·)) fun l l' h =>
    List.Perm.eq_of_pairwise' (List.pairwise_insertionSort (· ≤ ·) l)
      (List.pairwise_insertionSort (· ≤ ·) l')
      (((List.perm_insertionSort _ l).trans h).trans (List.perm_insertionSort _ l').symm)
  nodup_enum := by
    rintro ⟨⟨l⟩, hl⟩
    exact (List.perm_insertionSort _ l).nodup_iff.mpr hl
  mem_enum_iff := by
    rintro ⟨⟨l⟩, hl⟩ a
    exact List.mem_insertionSort _

example : (ascending ℕ).enum {3, 1, 2} = [1, 2, 3] := by decide

/-- Iteration in the order of `l` over every set that `l` covers. -/
noncomputable def following {α : Type*} [DecidableEq α] (l : List α) : SetOrder α where
  enum s := if s ⊆ l.toFinset then l.dedup.filter (· ∈ s) else s.toList
  nodup_enum s := by
    split
    · exact (List.nodup_dedup l).filter _
    · exact s.nodup_toList
  mem_enum_iff s a := by
    split
    · rename_i hsub
      simp only [List.mem_filter, List.mem_dedup, decide_eq_true_eq, and_iff_right_iff_imp]
      exact fun ha => List.mem_toFinset.mp (hsub ha)
    · exact Finset.mem_toList

/-- A list without repetition is the iteration over its elements in its own order. -/
theorem following_enum {α : Type*} [DecidableEq α] {l : List α} (hl : l.Nodup) {s : Finset α}
    (hs : ∀ a, a ∈ s ↔ a ∈ l) : (following l).enum s = l := by
  have hsub : s ⊆ l.toFinset := fun a ha => List.mem_toFinset.mpr ((hs a).mp ha)
  change (if s ⊆ l.toFinset then l.dedup.filter (· ∈ s) else s.toList) = l
  rw [if_pos hsub, hl.dedup, List.filter_eq_self]
  intro a ha
  exact decide_eq_true ((hs a).mpr ha)

example : (following [2, 3, 1]).enum {1, 2} = [2, 1] := by decide

end SetOrder

/-- The orders in which a hash map is iterated over and those of the hash sets that belong to its
keys. Two sets of the same elements need not be met in the same order. -/
structure HashOrder (α : Type*) extends SetOrder α where
  /-- The order in which the set that belongs to a key is iterated over. -/
  of : α → SetOrder α

namespace HashOrder

/-- Every iteration is in increasing order. -/
def ascending (α : Type*) [LinearOrder α] : HashOrder α := ⟨.ascending α, fun _ => .ascending α⟩

/-- Every iteration is in the order of `l`, over the sets that `l` covers. -/
noncomputable def following {α : Type*} [DecidableEq α] (l : List α) : HashOrder α :=
  ⟨.following l, fun _ => .following l⟩

end HashOrder

/-- A sequence of two computations succeeds when both do. -/
theorem bind_eq_ok {ε α β : Type} {x : Except ε α} {f : α → Except ε β} {b : β} :
    x >>= f = .ok b ↔ ∃ a, x = .ok a ∧ f a = .ok b := by
  cases x with
  | error e => simp [bind, Except.bind]
  | ok a => simp [bind, Except.bind]

/-- A loop without a result succeeds when all of its turns do. -/
theorem forM_ok_iff {ε α : Type} {f : α → Except ε Unit} {l : List α} :
    l.forM f = .ok () ↔ ∀ a ∈ l, f a = .ok () := by
  induction l with
  | nil => simp [List.forM, pure, Except.pure]
  | cons a l ih =>
    change (f a >>= fun _ => l.forM f) = _ ↔ _
    rw [List.forall_mem_cons, ← ih, bind_eq_ok]
    exact ⟨fun ⟨_, h⟩ => h, fun h => ⟨(), h⟩⟩

theorem mapError_eq_ok {ε ε' α : Type} {x : Except ε α} {g : ε → ε'} {a : α} :
    x.mapError g = .ok a ↔ x = .ok a := by
  cases x with
  | error e => simp [Except.mapError]
  | ok b => simp [Except.mapError]

theorem map_eq_ok {ε α β : Type} {f : α → β} {x : Except ε α} {b : β} :
    x.map f = .ok b ↔ ∃ a, x = .ok a ∧ f a = b := by
  cases x with
  | error e => simp [Except.map]
  | ok a => simp [Except.map]

/-- A loop that collects its results succeeds when all of its turns do. -/
theorem mapM_eq_ok {ε α β : Type} {f : α → Except ε β} {l : List α} {l' : List β} :
    l.mapM f = .ok l' ↔ List.Forall₂ (fun a b => f a = .ok b) l l' := by
  induction l generalizing l' with
  | nil =>
    rw [List.mapM_nil, List.forall₂_nil_left_iff]
    constructor
    · intro h
      cases h
      rfl
    · rintro rfl
      rfl
  | cons a l ih =>
    rw [List.mapM_cons, List.forall₂_cons_left_iff, bind_eq_ok]
    constructor
    · rintro ⟨b, hb, h⟩
      obtain ⟨bs, hbs, h⟩ := bind_eq_ok.mp h
      cases h
      exact ⟨b, bs, hb, ih.mp hbs, rfl⟩
    · rintro ⟨b, bs, hb, hbs, rfl⟩
      exact ⟨b, hb, bind_eq_ok.mpr ⟨bs, ih.mpr hbs, rfl⟩⟩

theorem mapM_eq_some {α β : Type} {f : α → Option β} {l : List α} {l' : List β} :
    l.mapM f = some l' ↔ List.Forall₂ (fun a b => f a = some b) l l' := by
  induction l generalizing l' with
  | nil =>
    rw [List.mapM_nil, List.forall₂_nil_left_iff]
    exact ⟨fun h => (Option.some.inj h).symm, fun h => congrArg some h.symm⟩
  | cons a l ih =>
    rw [List.mapM_cons, List.forall₂_cons_left_iff]
    constructor
    · intro h
      obtain ⟨b, hb, h⟩ := Option.bind_eq_some_iff.mp h
      obtain ⟨bs, hbs, h⟩ := Option.bind_eq_some_iff.mp h
      cases h
      exact ⟨b, bs, hb, ih.mp hbs, rfl⟩
    · rintro ⟨b, bs, hb, hbs, rfl⟩
      exact Option.bind_eq_some_iff.mpr ⟨b, hb, Option.bind_eq_some_iff.mpr ⟨bs, ih.mpr hbs, rfl⟩⟩

/-- A loop succeeds if each of its turns does. -/
theorem exists_mapM_ok {ε α β : Type} {f : α → Except ε β} {l : List α}
    (h : ∀ a ∈ l, ∃ b, f a = .ok b) : ∃ l', l.mapM f = .ok l' := by
  induction l with
  | nil => exact ⟨[], rfl⟩
  | cons a l ih =>
    obtain ⟨b, hb⟩ := h a List.mem_cons_self
    obtain ⟨l', hl'⟩ := ih fun a' ha' => h a' (List.mem_cons_of_mem a ha')
    exact ⟨b :: l', mapM_eq_ok.mpr (.cons hb (mapM_eq_ok.mp hl'))⟩

/-- The results of a loop that succeeded are those of its turns. -/
theorem mem_of_mapM_ok {ε α β : Type} {f : α → Except ε β} {l : List α} {l' : List β}
    (h : l.mapM f = .ok l') (b : β) : b ∈ l' ↔ ∃ a ∈ l, f a = .ok b := by
  induction mapM_eq_ok.mp h with
  | nil => simp
  | @cons a b' l l' hb' htail ih =>
    replace ih := ih (mapM_eq_ok.mpr htail)
    constructor
    · intro hb
      rcases List.mem_cons.mp hb with rfl | hb
      · exact ⟨a, by simp, hb'⟩
      · obtain ⟨a', ha', hf⟩ := ih.mp hb
        exact ⟨a', by simp [ha'], hf⟩
    · rintro ⟨a', ha', hf⟩
      rcases List.mem_cons.mp ha' with rfl | ha'
      · rw [hb'] at hf
        cases hf
        exact List.mem_cons_self
      · exact List.mem_cons_of_mem b' (ih.mpr ⟨a', ha', hf⟩)

/-- Every turn of a loop that succeeded has succeeded. -/
theorem exists_of_mapM_ok {ε α β : Type} {f : α → Except ε β} {l : List α} {l' : List β}
    (h : l.mapM f = .ok l') {a : α} (ha : a ∈ l) : ∃ b ∈ l', f a = .ok b := by
  induction mapM_eq_ok.mp h with
  | nil => cases ha
  | @cons a' b' l l' hb' htail ih =>
    rcases List.mem_cons.mp ha with rfl | ha
    · exact ⟨b', by simp, hb'⟩
    · obtain ⟨b, hb, hf⟩ := ih (mapM_eq_ok.mpr htail) ha
      exact ⟨b, by simp [hb], hf⟩

/-! ### Lists of lists -/

theorem forall₂_singleton_left_iff {α β : Type*} {R : α → β → Prop} {a : α} {l : List β} :
    List.Forall₂ R [a] l ↔ ∃ b, R a b ∧ l = [b] := by
  rw [List.forall₂_cons_left_iff]
  simp

theorem forall₂_append_left_iff {α β : Type*} {R : α → β → Prop} {l₁ l₂ : List α} {l : List β} :
    List.Forall₂ R (l₁ ++ l₂) l ↔
      ∃ k₁ k₂, List.Forall₂ R l₁ k₁ ∧ List.Forall₂ R l₂ k₂ ∧ l = k₁ ++ k₂ := by
  induction l₁ generalizing l with
  | nil => simp
  | cons a l₁ ih =>
    rw [List.cons_append, List.forall₂_cons_left_iff]
    constructor
    · rintro ⟨b, k, hb, hk, rfl⟩
      obtain ⟨k₁, k₂, h₁, h₂, rfl⟩ := ih.mp hk
      exact ⟨b :: k₁, k₂, .cons hb h₁, h₂, rfl⟩
    · rintro ⟨_, k₂, _ | ⟨hb, h₁⟩, h₂, rfl⟩
      exact ⟨_, _, hb, ih.mpr ⟨_, k₂, h₁, h₂, rfl⟩, rfl⟩

theorem forall₂_flatMap_left_iff {α β γ : Type*} {R : β → γ → Prop} {f : α → List β}
    {l : List α} {k : List γ} :
    List.Forall₂ R (l.flatMap f) k ↔
      ∃ ks, List.Forall₂ (fun a c => List.Forall₂ R (f a) c) l ks ∧ k = ks.flatten := by
  induction l generalizing k with
  | nil => simp
  | cons a l ih =>
    rw [List.flatMap_cons, forall₂_append_left_iff]
    constructor
    · rintro ⟨k₁, k₂, h₁, h₂, rfl⟩
      obtain ⟨ks, hks, rfl⟩ := ih.mp h₂
      exact ⟨k₁ :: ks, .cons h₁ hks, rfl⟩
    · rintro ⟨_, _ | ⟨h₁, hks⟩, rfl⟩
      exact ⟨_, _, h₁, ih.mpr ⟨_, hks, rfl⟩, rfl⟩
/-- Lists of as many elements are put together, those of `f` and those of `g`. -/
theorem forall₂_flatMap_iff {α β γ : Type*} {R : β → γ → Prop} {f : α → List β} {g : α → List γ}
    {l : List α} (hlength : ∀ a ∈ l, (f a).length = (g a).length) :
    List.Forall₂ R (l.flatMap f) (l.flatMap g) ↔ ∀ a ∈ l, List.Forall₂ R (f a) (g a) := by
  induction l with
  | nil => simp
  | cons a l ih =>
    rw [List.flatMap_cons, List.flatMap_cons, forall₂_append_left_iff, List.forall_mem_cons,
      ← ih fun b hb => hlength b (List.mem_cons_of_mem _ hb)]
    constructor
    · rintro ⟨k₁, k₂, h₁, h₂, heq⟩
      have hlen : (g a).length = k₁.length := by
        rw [← hlength a List.mem_cons_self, h₁.length_eq]
      obtain ⟨rfl, rfl⟩ := List.append_inj heq hlen
      exact ⟨h₁, h₂⟩
    · rintro ⟨h₁, h₂⟩
      exact ⟨_, _, h₁, h₂, rfl⟩

/-- A fold whose steps make `P` true under conditions of their own. -/
theorem foldl_iff {α σ : Type*} {P : σ → Prop} {Q : α → Prop} {f : σ → α → σ}
    (hf : ∀ s a, P (f s a) ↔ P s ∨ Q a) {l : List α} {s : σ} :
    P (l.foldl f s) ↔ P s ∨ ∃ a ∈ l, Q a := by
  induction l generalizing s with
  | nil => simp
  | cons a l ih => rw [List.foldl_cons, ih, hf, List.exists_mem_cons_iff, or_assoc]

/-- A preorder that holds between the states of each step holds between those of the fold. -/
theorem foldl_rel {α σ : Type*} {R : σ → σ → Prop} (hrefl : ∀ s, R s s)
    (htrans : ∀ {s t u}, R s t → R t u → R s u) {f : σ → α → σ} (hf : ∀ s a, R s (f s a))
    (l : List α) (s : σ) : R s (l.foldl f s) := by
  induction l generalizing s with
  | nil => exact hrefl s
  | cons a l ih => exact htrans (hf s a) (ih _)

/-- A loop over `l` succeeds when its body succeeds on every state satisfying the
invariant `P`, indexed by the elements already met. -/
theorem exists_foldlM_pure.{u, v, w} {m : Type u → Type v} [Monad m] [LawfulMonad m] {σ : Type u}
    {α : Type w} {f : σ → α → m σ} {P : List α → σ → Prop} {l : List α} {s : σ} (h0 : P [] s)
    (hstep : ∀ pre a post s, l = pre ++ a :: post → P pre s →
      ∃ s', f s a = pure s' ∧ P (pre ++ [a]) s') :
    ∃ s', l.foldlM f s = pure s' ∧ P l s' := by
  -- Generalise over the elements still to come, keeping those already met.
  suffices h : ∀ (rest pre : List α) (s : σ), l = pre ++ rest → P pre s →
      ∃ s', rest.foldlM f s = pure s' ∧ P l s' from h l [] s rfl h0
  intro rest
  induction rest with
  | nil =>
    intro pre s hl hP
    refine ⟨s, rfl, ?_⟩
    rwa [hl, List.append_nil]
  | cons a rest ih =>
    intro pre s hl hP
    obtain ⟨s', hs', hP'⟩ := hstep pre a rest s hl hP
    obtain ⟨s'', hs'', hP''⟩ := ih (pre ++ [a]) s' (by rw [hl]; simp) hP'
    refine ⟨s'', ?_, hP''⟩
    rw [List.foldlM_cons, hs', pure_bind]
    exact hs''

section Fold

variable {σ α ε : Type*} {f : σ → α → Except ε σ}

/-- A loop that can fail succeeds when its body does. -/
theorem exists_foldlM_ok {P : List α → σ → Prop} {l : List α} {s : σ} (h0 : P [] s)
    (hstep : ∀ pre a post s, l = pre ++ a :: post → P pre s →
      ∃ s', f s a = .ok s' ∧ P (pre ++ [a]) s') :
    ∃ s', l.foldlM f s = .ok s' ∧ P l s' :=
  exists_foldlM_pure h0 hstep

/-- The same of a loop that indexes its elements. -/
theorem exists_foldlM_zipIdx {f : σ → α × ℕ → Option σ} {P : ℕ → σ → Prop} {l : List α} {s : σ}
    (h0 : P 0 s)
    (hstep : ∀ k a s, l[k]? = some a → P k s → ∃ s', f s (a, k) = some s' ∧ P (k + 1) s') :
    ∃ s', l.zipIdx.foldlM f s = some s' ∧ P l.length s' := by
  have hloop := exists_foldlM_pure (f := f) (l := l.zipIdx)
    (P := fun (pre : List (α × ℕ)) s => P pre.length s) h0 ?_
  · rwa [List.length_zipIdx] at hloop
  · intro pre a post s hl hP
    have hget : l.zipIdx[pre.length]? = some a := by rw [hl]; simp
    rw [List.getElem?_zipIdx, Option.map_eq_some_iff] at hget
    obtain ⟨x, hx, rfl⟩ := hget
    rw [Nat.zero_add, List.length_append, List.length_singleton]
    exact hstep pre.length x s hx hP

/-- A loop that succeeded has established its invariant at the end. -/
theorem foldlM_ok_induction {P : List α → σ → Prop} {l : List α} {s s' : σ}
    (h : l.foldlM f s = .ok s') (h0 : P [] s)
    (hstep : ∀ pre a post s s', l = pre ++ a :: post → P pre s → f s a = .ok s' →
      P (pre ++ [a]) s') :
    P l s' := by
  suffices hgen : ∀ (rest pre : List α) (s : σ), l = pre ++ rest → P pre s →
      rest.foldlM f s = .ok s' → P l s' from hgen l [] s rfl h0 h
  intro rest
  induction rest with
  | nil =>
    intro pre s hl hP hs
    cases hs
    rwa [hl, List.append_nil]
  | cons a rest ih =>
    intro pre s hl hP hs
    rw [List.foldlM_cons] at hs
    cases hfa : f s a with
    | error e => rw [hfa] at hs; cases hs
    | ok t =>
      rw [hfa] at hs
      exact ih (pre ++ [a]) t (by rw [hl]; simp) (hstep pre a rest s t hl hP hfa) hs

/-- A loop fails with `e` only if its body does so on a state satisfying the invariant. -/
theorem foldlM_ne_error {P : List α → σ → Prop} {l : List α} {s : σ} {e : ε} (h0 : P [] s)
    (hstep : ∀ pre a post s, l = pre ++ a :: post → P pre s →
      f s a ≠ .error e ∧ ∀ s', f s a = .ok s' → P (pre ++ [a]) s') :
    l.foldlM f s ≠ .error e := by
  suffices hgen : ∀ (rest pre : List α) (s : σ), l = pre ++ rest → P pre s →
      rest.foldlM f s ≠ .error e from hgen l [] s rfl h0
  intro rest
  induction rest with
  | nil =>
    intro pre s _ _ h
    cases h
  | cons a rest ih =>
    intro pre s hl hP h
    obtain ⟨hne, hok⟩ := hstep pre a rest s hl hP
    rw [List.foldlM_cons] at h
    cases hfa : f s a with
    | error e' =>
      rw [hfa] at h hne
      cases h
      exact hne rfl
    | ok t =>
      rw [hfa] at h
      exact ih (pre ++ [a]) t (by rw [hl]; simp) (hok t hfa) h

/-- Either outcome of a loop: the invariant at its end, or what its body says of the error. -/
theorem foldlM_cases {P : List α → σ → Prop} {Q : ε → Prop} {l : List α} {s : σ} (h0 : P [] s)
    (hstep : ∀ pre a post s, l = pre ++ a :: post → P pre s →
      (∃ s', f s a = .ok s' ∧ P (pre ++ [a]) s') ∨ ∃ e, f s a = .error e ∧ Q e) :
    (∃ s', l.foldlM f s = .ok s' ∧ P l s') ∨ ∃ e, l.foldlM f s = .error e ∧ Q e := by
  suffices hgen : ∀ (rest pre : List α) (s : σ), l = pre ++ rest → P pre s →
      (∃ s', rest.foldlM f s = .ok s' ∧ P l s') ∨ ∃ e, rest.foldlM f s = .error e ∧ Q e from
    hgen l [] s rfl h0
  intro rest
  induction rest with
  | nil =>
    intro pre s hl hP
    refine Or.inl ⟨s, rfl, ?_⟩
    rwa [hl, List.append_nil]
  | cons a rest ih =>
    intro pre s hl hP
    rw [List.foldlM_cons]
    rcases hstep pre a rest s hl hP with ⟨s', hs', hP'⟩ | ⟨e, he, hQ⟩
    · rw [hs']
      exact ih (pre ++ [a]) s' (by rw [hl]; simp) hP'
    · rw [he]
      exact Or.inr ⟨e, rfl, hQ⟩

/-- Two loops over one list that both succeed end as their bodies keep them. -/
theorem foldlM_ok_rel {τ ε' : Type*} {g : τ → α → Except ε' τ} {Q : σ → τ → Prop}
    {l : List α} {s s' : σ} {t t' : τ} (hf : l.foldlM f s = .ok s') (hg : l.foldlM g t = .ok t')
    (h0 : Q s t)
    (hstep : ∀ s t s' t' a, a ∈ l → Q s t → f s a = .ok s' → g t a = .ok t' → Q s' t') :
    Q s' t' := by
  induction l generalizing s t with
  | nil =>
    cases hf
    cases hg
    exact h0
  | cons a l ih =>
    rw [List.foldlM_cons] at hf hg
    cases hfa : f s a with
    | error e => rw [hfa] at hf; cases hf
    | ok s₁ =>
      cases hga : g t a with
      | error e => rw [hga] at hg; cases hg
      | ok t₁ =>
        rw [hfa] at hf
        rw [hga] at hg
        refine ih hf hg (hstep s t s₁ t₁ a List.mem_cons_self h0 hfa hga) ?_
        exact fun s t s' t' b hb => hstep s t s' t' b (List.mem_cons_of_mem a hb)

end Fold

/-! ### The errors of a computation -/

/-- If the computation fails then with an error of this kind. -/
def FailsAs {ε α : Type} (Q : ε → Prop) (x : Except ε α) : Prop :=
  ∀ e, x = .error e → Q e

section FailsAs

variable {ε α β σ : Type} {Q : ε → Prop}

theorem failsAs_ok (a : α) : FailsAs Q (.ok a : Except ε α) := by
  intro e h
  cases h

theorem failsAs_error {e : ε} (he : Q e) : FailsAs Q (.error e : Except ε α) := by
  intro e' h
  cases h
  exact he

theorem FailsAs.mono {Q' : ε → Prop} {x : Except ε α} (hx : FailsAs Q x)
    (himp : ∀ e, Q e → Q' e) : FailsAs Q' x :=
  fun e he => himp e (hx e he)

theorem FailsAs.mapError {ε' : Type} {Q' : ε' → Prop} {g : ε → ε'} {x : Except ε α}
    (hx : FailsAs Q x) (himp : ∀ e, Q e → Q' (g e)) : FailsAs Q' (x.mapError g) := by
  cases x with
  | ok a => exact failsAs_ok a
  | error e => exact failsAs_error (himp e (hx e rfl))

theorem FailsAs.bind {x : Except ε α} {f : α → Except ε β} (hx : FailsAs Q x)
    (hf : ∀ a, x = .ok a → FailsAs Q (f a)) : FailsAs Q (x >>= f) := by
  cases hres : x with
  | error e =>
    intro e' h
    cases h
    exact hx e hres
  | ok a => exact hf a hres

/-- A loop fails in the ways of its body, on states that satisfy an invariant. -/
theorem failsAs_foldlM_of {P : σ → Prop} {f : σ → α → Except ε σ} {l : List α} {s : σ} (h0 : P s)
    (hstep : ∀ s, P s → ∀ a ∈ l, FailsAs Q (f s a) ∧ ∀ s', f s a = .ok s' → P s') :
    FailsAs Q (l.foldlM f s) := by
  induction l generalizing s with
  | nil => exact failsAs_ok s
  | cons a l ih =>
    obtain ⟨hfails, hok⟩ := hstep s h0 a List.mem_cons_self
    rw [List.foldlM_cons]
    refine hfails.bind fun s' hs' => ih (hok s' hs') fun s hs a' ha' => ?_
    exact hstep s hs a' (List.mem_cons_of_mem a ha')

theorem failsAs_foldlM {f : σ → α → Except ε σ} (hf : ∀ s a, FailsAs Q (f s a)) (l : List α)
    (s : σ) : FailsAs Q (l.foldlM f s) := by
  have htrue : ∀ s : σ, True → ∀ a ∈ l, FailsAs Q (f s a) ∧ ∀ s', f s a = .ok s' → True :=
    fun s _ a _ => ⟨hf s a, fun _ _ => trivial⟩
  exact failsAs_foldlM_of trivial htrue

theorem failsAs_mapM {f : α → Except ε β} (hf : ∀ a, FailsAs Q (f a)) (l : List α) :
    FailsAs Q (l.mapM f) := by
  induction l with
  | nil => exact failsAs_ok []
  | cons a l ih =>
    rw [List.mapM_cons]
    exact (hf a).bind fun b _ => ih.bind fun bs _ => failsAs_ok _

end FailsAs

end Cargo.Math
