import Cargo.Math.Iteration
import Mathlib.Data.Finset.SDiff
import Mathlib.Data.Set.Finite.Basic
import Mathlib.Logic.Relation

/-!
# Visiting a graph depth first

A node is entered, what it leads to is visited, and then the node is left. A node that has been
entered is not entered again. Entering and leaving may change a state, and may fail.

What a visit does is told by an invariant of three things: the nodes entered, those left, and the
state. On a graph without cycles the nodes that are entered and not left are above the node at
hand, so that whatever a node leads to has been left when the node is.

## Main definitions

* `visit` — the visit from one item
* `VisitInvariant` — what entering and leaving keep

## Main results

* `visit_spec`, `visitAll_spec` — a visit keeps the invariant, and enters what can be reached
* `visit_failsAs`, `visitAll_failsAs` — it fails only where entering or leaving fails
-/

set_option autoImplicit false

namespace Cargo.Math

open Relation

/-- The nodes that were entered, and whatever else a visit changes. -/
structure Entered (σ K : Type) where
  rest : σ
  entered : Finset K

variable {A K σ E : Type} [DecidableEq K]

/-- Visit from an item, unless its node has been entered. -/
def visit (key : A → K) (enter : A → σ → Except E (List A × σ)) (leave : A → σ → Except E σ)
    (depth : E) : ℕ → A → Entered σ K → Except E (Entered σ K)
  | 0, _, _ => .error depth
  | n + 1, a, s =>
    if key a ∈ s.entered then .ok s
    else do
      let r ← enter a s.rest
      let s ← r.1.foldlM (fun s b => visit key enter leave depth n b s)
        ⟨r.2, insert (key a) s.entered⟩
      let rest ← leave a s.rest
      .ok ⟨rest, s.entered⟩

/-- What entering and leaving keep: the nodes `entered`, those `left` and the state are related by
`I`. Every item satisfies `P`, the items that it leads to are for the nodes `succ` of its node, and
these have a lower rank. -/
structure VisitInvariant (key : A → K) (enter : A → σ → Except E (List A × σ))
    (leave : A → σ → Except E σ) (succ : K → List K) (rank : K → ℕ) (P : A → Prop)
    (I : Finset K → Finset K → σ → Prop) : Prop where
  rank_lt : ∀ a, P a → ∀ d ∈ succ (key a), rank d < rank (key a)
  items : ∀ a entered left s next s', P a → I entered left s → enter a s = .ok (next, s') →
    next.map key = succ (key a) ∧ ∀ b ∈ next, P b
  enter : ∀ a entered left s next s', P a → I entered left s → key a ∉ entered → left ⊆ entered →
    enter a s = .ok (next, s') → I (insert (key a) entered) left s'
  leave : ∀ a entered left s s', P a → I entered left s → key a ∈ entered → key a ∉ left →
    (∀ d ∈ succ (key a), d ∈ left) → left ⊆ entered → leave a s = .ok s' →
    I entered (insert (key a) left) s'

/-- Two invariants at once. -/
theorem VisitInvariant.and {key : A → K} {enter : A → σ → Except E (List A × σ)}
    {leave : A → σ → Except E σ} {succ : K → List K} {rank : K → ℕ} {P : A → Prop}
    {I J : Finset K → Finset K → σ → Prop}
    (hI : VisitInvariant key enter leave succ rank P I)
    (hJ : VisitInvariant key enter leave succ rank P J) :
    VisitInvariant key enter leave succ rank P fun entered left s =>
      I entered left s ∧ J entered left s where
  rank_lt := hI.rank_lt
  items a entered left s next s' ha hs := hI.items a entered left s next s' ha hs.1
  enter a entered left s next s' ha hs hnot hsub h :=
    ⟨hI.enter a entered left s next s' ha hs.1 hnot hsub h,
      hJ.enter a entered left s next s' ha hs.2 hnot hsub h⟩
  leave a entered left s s' ha hs hin hnot hsucc hsub h :=
    ⟨hI.leave a entered left s s' ha hs.1 hin hnot hsucc hsub h,
      hJ.leave a entered left s s' ha hs.2 hin hnot hsucc hsub h⟩

/-- What leads from one node to another. -/
def Leads (succ : K → List K) (k d : K) : Prop := d ∈ succ k

section Visit

variable {key : A → K} {enter : A → σ → Except E (List A × σ)} {leave : A → σ → Except E σ}
  {depth : E} {succ : K → List K} {rank : K → ℕ} {P : A → Prop}
  {I : Finset K → Finset K → σ → Prop}

/-- What holds between the states before and after a visit, where the nodes in `above` have been
entered and not left. -/
structure VisitSpec (succ : K → List K) (I : Finset K → Finset K → σ → Prop) (starts : List K)
    (above : Finset K) (s s' : Entered σ K) : Prop where
  keeps : I s'.entered (s'.entered \ above) s'.rest
  done : ∀ k ∈ starts, k ∈ s'.entered
  subset : s.entered ⊆ s'.entered
  reached : ∀ k ∈ s'.entered, k ∉ s.entered →
    ∃ a ∈ starts, ReflTransGen (Leads succ) a k
  closed : ∀ k ∈ s'.entered, k ∉ s.entered → ∀ d ∈ succ k, d ∈ s'.entered

namespace VisitSpec

variable {starts : List K} {above : Finset K} {s s' s'' : Entered σ K}

theorem refl (h : I s.entered (s.entered \ above) s.rest) : VisitSpec succ I [] above s s where
  keeps := h
  done := by simp
  subset := Finset.Subset.refl _
  reached _ hk hnot := absurd hk hnot
  closed _ hk hnot := absurd hk hnot

/-- One visit after others. -/
theorem concat {k : K} (h : VisitSpec succ I starts above s s')
    (h' : VisitSpec succ I [k] above s' s'') : VisitSpec succ I (starts ++ [k]) above s s'' where
  keeps := h'.keeps
  done a ha := by
    rcases List.mem_append.mp ha with ha | ha
    · exact h'.subset (h.done a ha)
    · exact h'.done a ha
  subset := h.subset.trans h'.subset
  reached a ha hnot := by
    by_cases hmid : a ∈ s'.entered
    · obtain ⟨b, hb, hpath⟩ := h.reached a hmid hnot
      exact ⟨b, List.mem_append_left _ hb, hpath⟩
    · obtain ⟨b, hb, hpath⟩ := h'.reached a ha hmid
      exact ⟨b, List.mem_append_right _ hb, hpath⟩
  closed a ha hnot d hd := by
    by_cases hmid : a ∈ s'.entered
    · exact h'.subset (h.closed a hmid hnot d hd)
    · exact h'.closed a ha hmid d hd

end VisitSpec

/-- The visits from several items, if each of them is as it should be. -/
theorem foldlM_visit_spec {f : Entered σ K → A → Except E (Entered σ K)} {above : Finset K}
    {items : List A} (hf : ∀ a ∈ items, ∀ s s', I s.entered (s.entered \ above) s.rest →
      f s a = .ok s' → VisitSpec succ I [key a] above s s')
    {s s' : Entered σ K} (hs : I s.entered (s.entered \ above) s.rest)
    (h : items.foldlM f s = .ok s') : VisitSpec succ I (items.map key) above s s' := by
  refine foldlM_ok_induction (P := fun pre t => VisitSpec succ I (pre.map key) above s t) h
    (.refl hs) ?_
  intro pre a post t t' hsplit hpre hstep
  rw [List.map_append]
  exact hpre.concat (hf a (by simp [hsplit]) t t' hpre.keeps hstep)

/-- A visit keeps the invariant, and what it enters can be reached from its item. The nodes above
are those that were entered before and not left. -/
theorem visit_spec (hinv : VisitInvariant key enter leave succ rank P I) {n : ℕ} {a : A}
    {above : Finset K} {s s' : Entered σ K} (ha : P a)
    (habove : ∀ k ∈ above, rank (key a) < rank k)
    (hs : I s.entered (s.entered \ above) s.rest)
    (h : visit key enter leave depth n a s = .ok s') : VisitSpec succ I [key a] above s s' := by
  induction n generalizing a above s s' with
  | zero => cases h
  | succ n ih =>
    rw [visit] at h
    split_ifs at h with hmem
    · cases h
      exact { VisitSpec.refl hs with
        done := by simpa using hmem
        reached := fun _ hk hnot => absurd hk hnot }
    obtain ⟨⟨next, rest⟩, henter, h⟩ := bind_eq_ok.mp h
    obtain ⟨t, hfold, h⟩ := bind_eq_ok.mp h
    obtain ⟨rest', hleave, h⟩ := bind_eq_ok.mp h
    cases h
    obtain ⟨hnext, hitems⟩ := hinv.items a _ _ s.rest next rest ha hs henter
    have hself : key a ∉ above := fun hk => lt_irrefl _ (habove _ hk)
    -- the node itself is above what it leads to
    have hrank : ∀ b ∈ next, ∀ k ∈ insert (key a) above, rank (key b) < rank k := by
      intro b hb k hk
      have hlt := hinv.rank_lt a ha (key b) (hnext ▸ List.mem_map_of_mem hb)
      rcases Finset.mem_insert.mp hk with rfl | hk
      · exact hlt
      · exact hlt.trans (habove k hk)
    have hsdiff : insert (key a) s.entered \ insert (key a) above = s.entered \ above := by
      ext k
      by_cases hk : k = key a
      · simp [hk, hmem]
      · simp [hk]
    have hstart : I (insert (key a) s.entered) (insert (key a) s.entered \ insert (key a) above)
        rest := by
      rw [hsdiff]
      exact hinv.enter a _ _ s.rest next rest ha hs hmem Finset.sdiff_subset henter
    have hloop : VisitSpec succ I (next.map key) (insert (key a) above) _ t := foldlM_visit_spec
      (fun b hb t t' ht hstep => ih (hitems b hb) (hrank b hb) ht hstep) hstart hfold
    have hentered : key a ∈ t.entered := hloop.subset (Finset.mem_insert_self _ _)
    have hleft : insert (key a) (t.entered \ insert (key a) above) = t.entered \ above := by
      ext k
      by_cases hk : k = key a
      · subst hk
        simp [hentered, hself]
      · simp [hk]
    refine ⟨?_, ?_, (Finset.subset_insert _ _).trans hloop.subset, ?_, ?_⟩
    · rw [← hleft]
      refine hinv.leave a _ _ t.rest rest' ha hloop.keeps hentered (by simp) ?_
        Finset.sdiff_subset hleave
      intro d hd
      refine Finset.mem_sdiff.mpr ⟨hloop.done d (hnext.symm ▸ hd), fun hk => ?_⟩
      have hlt := hinv.rank_lt a ha d hd
      rcases Finset.mem_insert.mp hk with rfl | hk
      · exact lt_irrefl _ hlt
      · exact lt_asymm hlt (habove d hk)
    · rintro k hk
      obtain rfl := List.mem_singleton.mp hk
      exact hentered
    · intro k hk hnot
      refine ⟨key a, List.mem_singleton_self _, ?_⟩
      by_cases heq : k = key a
      · exact heq ▸ .refl
      · obtain ⟨d, hd, hpath⟩ := hloop.reached k hk (by simp [heq, hnot])
        rw [hnext] at hd
        exact .head hd hpath
    · intro k hk hnot d hd
      by_cases heq : k = key a
      · subst heq
        exact hloop.done d (hnext.symm ▸ hd)
      · exact hloop.closed k hk (by simp [heq, hnot]) d hd

/-- A visit that is allowed to go as deep as the rank of its item fails only where entering or
leaving fails. -/
theorem visit_failsAs (hinv : VisitInvariant key enter leave succ rank P I) {Q : E → Prop}
    (henter : ∀ a entered left s, P a → I entered left s → key a ∉ entered →
      FailsAs Q (enter a s))
    (hleave : ∀ a entered left s, P a → I entered left s → key a ∈ entered →
      (∀ d ∈ succ (key a), d ∈ left) → FailsAs Q (leave a s))
    {n : ℕ} {a : A} {above : Finset K} {s : Entered σ K} (ha : P a) (hn : rank (key a) < n)
    (habove : ∀ k ∈ above, rank (key a) < rank k)
    (hs : I s.entered (s.entered \ above) s.rest) :
    FailsAs Q (visit key enter leave depth n a s) := by
  induction n generalizing a above s with
  | zero => exact absurd hn (Nat.not_lt_zero _)
  | succ n ih =>
    rw [visit]
    split_ifs with hmem
    · exact failsAs_ok s
    refine (henter a _ _ s.rest ha hs hmem).bind ?_
    rintro ⟨next, rest⟩ hstep
    obtain ⟨hnext, hitems⟩ := hinv.items a _ _ s.rest next rest ha hs hstep
    have hlt : ∀ b ∈ next, rank (key b) < rank (key a) := fun b hb =>
      hinv.rank_lt a ha (key b) (hnext ▸ List.mem_map_of_mem hb)
    have hrank : ∀ b ∈ next, ∀ k ∈ insert (key a) above, rank (key b) < rank k := by
      intro b hb k hk
      rcases Finset.mem_insert.mp hk with rfl | hk
      · exact hlt b hb
      · exact (hlt b hb).trans (habove k hk)
    have hsdiff : insert (key a) s.entered \ insert (key a) above = s.entered \ above := by
      ext k
      by_cases hk : k = key a
      · simp [hk, hmem]
      · simp [hk]
    have hstart : I (insert (key a) s.entered) (insert (key a) s.entered \ insert (key a) above)
        rest := by
      rw [hsdiff]
      exact hinv.enter a _ _ s.rest next rest ha hs hmem Finset.sdiff_subset hstep
    refine FailsAs.bind ?_ ?_
    -- the loop over the successors: each has a smaller rank
    · intro e he
      by_contra hQ
      refine foldlM_ne_error (P := fun _ (t : Entered σ K) =>
        I t.entered (t.entered \ insert (key a) above) t.rest) hstart ?_ he
      rintro pre b post t hsplit ht
      have hsplit' : next = pre ++ b :: post := hsplit
      have hb : b ∈ next := by simp [hsplit']
      constructor
      · exact fun hfail => hQ (ih (hitems b hb)
          (lt_of_lt_of_le (hlt b hb) (Nat.le_of_lt_succ hn)) (hrank b hb) ht e hfail)
      · intro t' hvisit
        exact (visit_spec hinv (hitems b hb) (hrank b hb) ht hvisit).keeps
    -- after the loop all successors are left, so that the item may be
    · intro t hfold
      have hloop : VisitSpec succ I (next.map key) (insert (key a) above) _ t := foldlM_visit_spec
        (fun b hb t t' ht hvisit => visit_spec hinv (hitems b hb) (hrank b hb) ht hvisit)
        hstart hfold
      refine (hleave a _ _ t.rest ha hloop.keeps (hloop.subset (Finset.mem_insert_self _ _))
        ?_).bind fun rest' _ => failsAs_ok _
      intro d hd
      refine Finset.mem_sdiff.mpr ⟨hloop.done d (hnext.symm ▸ hd), fun hk => ?_⟩
      have hlt := hinv.rank_lt a ha d hd
      rcases Finset.mem_insert.mp hk with rfl | hk
      · exact lt_irrefl _ hlt
      · exact lt_asymm hlt (habove d hk)

/-! ### From several items -/

/-- Visit from several items. -/
def visitAll (key : A → K) (enter : A → σ → Except E (List A × σ)) (leave : A → σ → Except E σ)
    (depth : E) (n : ℕ) (items : List A) (s : σ) : Except E (Entered σ K) :=
  items.foldlM (fun s a => visit key enter leave depth n a s) ⟨s, ∅⟩

/-- All that can be reached is entered and left, and nothing else. -/
theorem visitAll_spec (hinv : VisitInvariant key enter leave succ rank P I) {n : ℕ}
    {items : List A} (hitems : ∀ a ∈ items, P a) {s : σ} (hs : I ∅ ∅ s) {s' : Entered σ K}
    (h : visitAll key enter leave depth n items s = .ok s') :
    I s'.entered s'.entered s'.rest ∧
      ∀ k, k ∈ s'.entered ↔ ∃ a ∈ items, ReflTransGen (Leads succ) (key a) k := by
  have hspec : VisitSpec succ I (items.map key) ∅ ⟨s, ∅⟩ s' := by
    refine foldlM_visit_spec (fun a ha t t' ht hstep => ?_) ?_ h
    · exact visit_spec hinv (hitems a ha) (by simp) ht hstep
    · simpa using hs
  refine ⟨by simpa using hspec.keeps, fun k => ⟨fun hk => ?_, ?_⟩⟩
  · obtain ⟨d, hd, hpath⟩ := hspec.reached k hk (Finset.notMem_empty k)
    obtain ⟨a, ha, rfl⟩ := List.mem_map.mp hd
    exact ⟨a, ha, hpath⟩
  · rintro ⟨a, ha, hpath⟩
    induction hpath with
    | refl => exact hspec.done _ (List.mem_map_of_mem ha)
    | tail _ hstep ih => exact hspec.closed _ ih (Finset.notMem_empty _) _ hstep

theorem visitAll_failsAs (hinv : VisitInvariant key enter leave succ rank P I) {Q : E → Prop}
    (henter : ∀ a entered left s, P a → I entered left s → key a ∉ entered →
      FailsAs Q (enter a s))
    (hleave : ∀ a entered left s, P a → I entered left s → key a ∈ entered →
      (∀ d ∈ succ (key a), d ∈ left) → FailsAs Q (leave a s))
    {n : ℕ} {items : List A} (hitems : ∀ a ∈ items, P a) (hn : ∀ a ∈ items, rank (key a) < n)
    {s : σ} (hs : I ∅ ∅ s) : FailsAs Q (visitAll key enter leave depth n items s) := by
  intro e he
  by_contra hQ
  refine foldlM_ne_error (P := fun _ (t : Entered σ K) => I t.entered (t.entered \ ∅) t.rest)
    (by simpa using hs) ?_ he
  rintro pre a post t hsplit ht
  have ha : a ∈ items := by simp [hsplit]
  constructor
  · exact fun hfail => hQ (visit_failsAs hinv henter hleave (hitems a ha) (hn a ha) (by simp) ht
      e hfail)
  · intro t' hstep
    exact (visit_spec hinv (hitems a ha) (by simp) ht hstep).keeps

end Visit

end Cargo.Math
