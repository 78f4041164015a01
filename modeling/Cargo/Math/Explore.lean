import Cargo.Math.Iteration
import Mathlib.Data.Finmap
import Mathlib.Data.Finset.Card
import Mathlib.Data.Finset.SDiff
import Mathlib.Logic.Relation

/-!
# Exploring a graph into a table

A graph is explored depth first, and a table keeps the successors of every node that was entered.
What is explored are items, and an item says more than which node it is: the successors may depend
on how a node was come by, and finding them may change a state and fail. The table is asked for
the node alone, so the item that comes first counts.

## Main definitions

* `explore` — the exploration
* `Next` — one step in a table
* `Extends` — what an exploration adds to a table
* `renameTable` — a table with other names for its nodes

## Main results

* `explore_spec` — what was added is closed, and is reached from where it started
* `explore_failsAs` — enough fuel is as much as there are nodes
* `explore_sim` — two explorations side by side
* `Extends.mem_iff` — the nodes of a table whose entries do not depend on the items
-/

set_option autoImplicit false

namespace Cargo.Math

open Relation

/-- The successors of each node. -/
abbrev SuccTable (K : Type) := Finmap fun _ : K => List K

/-- A table, and whatever else the exploration changes. -/
structure Explored (σ K : Type) where
  rest : σ
  table : SuccTable K

variable {A K σ E : Type}

/-- `d` is a successor of `k` in the table. -/
def Next [DecidableEq K] (t : SuccTable K) (k d : K) : Prop :=
  ∃ l, t.lookup k = some l ∧ d ∈ l

/-- Explore from an item: enter its successors, unless the node has been entered. -/
def explore [DecidableEq K] (key : A → K) (succ : A → σ → Except E (List A × σ)) (depth : E) :
    ℕ → A → Explored σ K → Except E (Explored σ K)
  | 0, _, _ => .error depth
  | n + 1, a, s =>
    if key a ∈ s.table then .ok s
    else do
      let (next, rest) ← succ a s.rest
      next.foldlM (fun s b => explore key succ depth n b s)
        ⟨rest, s.table.insert (key a) (next.map key)⟩

variable [DecidableEq K]

/-- A table with more entries: the new ones are closed and are reached from `starts`. -/
structure Extends (Entry : K → List K → Prop) (starts : K → Prop) (t t' : SuccTable K) : Prop where
  lookup_of : ∀ k l, t.lookup k = some l → t'.lookup k = some l
  entry : ∀ k l, t'.lookup k = some l → k ∉ t → Entry k l
  closed : ∀ k d, Next t' k d → k ∉ t → d ∈ t'
  reached : ∀ k ∈ t', k ∉ t → ∃ a, starts a ∧ ReflTransGen (Next t') a k

namespace Extends

variable {Entry : K → List K → Prop} {starts starts' : K → Prop} {t t' t'' : SuccTable K}

theorem refl : Extends Entry starts t t where
  lookup_of _ _ h := h
  entry k _ h hk := absurd (Finmap.mem_of_lookup_eq_some h) hk
  closed k _ := by
    rintro ⟨_, h, -⟩ hk
    exact absurd (Finmap.mem_of_lookup_eq_some h) hk
  reached _ h hk := absurd h hk

theorem mem (h : Extends Entry starts t t') {k : K} (hk : k ∈ t) : k ∈ t' := by
  obtain ⟨l, hl⟩ := Finmap.mem_iff.mp hk
  exact Finmap.mem_of_lookup_eq_some (h.lookup_of k l hl)

theorem next (h : Extends Entry starts t t') {k d : K} (hkd : Next t k d) : Next t' k d := by
  obtain ⟨l, hl, hd⟩ := hkd
  exact ⟨l, h.lookup_of k l hl, hd⟩

theorem mono (h : Extends Entry starts t t') (hstarts : ∀ k, starts k → starts' k) :
    Extends Entry starts' t t' :=
  { h with
    reached := by
      intro k hk hnot
      obtain ⟨a, ha, hpath⟩ := h.reached k hk hnot
      exact ⟨a, hstarts a ha, hpath⟩ }

theorem trans (h : Extends Entry starts t t') (h' : Extends Entry starts t' t'') :
    Extends Entry starts t t'' where
  lookup_of k l hl := h'.lookup_of k l (h.lookup_of k l hl)
  entry k l hl hk := by
    by_cases hmid : k ∈ t'
    · obtain ⟨l', hl'⟩ := Finmap.mem_iff.mp hmid
      have heq : l' = l := Option.some.inj ((h'.lookup_of k l' hl').symm.trans hl)
      exact h.entry k l (heq ▸ hl') hk
    · exact h'.entry k l hl hmid
  closed k d hkd hk := by
    by_cases hmid : k ∈ t'
    · obtain ⟨l', hl'⟩ := Finmap.mem_iff.mp hmid
      obtain ⟨l, hl, hd⟩ := hkd
      have heq : l' = l := Option.some.inj ((h'.lookup_of k l' hl').symm.trans hl)
      exact h'.mem (h.closed k d ⟨l', hl', heq ▸ hd⟩ hk)
    · exact h'.closed k d hkd hmid
  reached k hk hnot := by
    by_cases hmid : k ∈ t'
    · obtain ⟨a, ha, hpath⟩ := h.reached k hmid hnot
      exact ⟨a, ha, ReflTransGen.mono (fun x y hxy => h'.next hxy) _ _ hpath⟩
    · exact h'.reached k hk hmid

/-- A new entry, and then what is reached from it. -/
theorem cons {k : K} {l : List K} (hk : k ∉ t) (hentry : Entry k l)
    (h : Extends Entry (· ∈ l) (t.insert k l) t') (hl : ∀ d ∈ l, d ∈ t') :
    Extends Entry (· = k) t t' := by
  have hself : t'.lookup k = some l := h.lookup_of k l (Finmap.lookup_insert t)
  refine ⟨?_, ?_, ?_, ?_⟩
  · intro k' l' hl'
    have hne : k' ≠ k := by
      rintro rfl
      exact hk (Finmap.mem_of_lookup_eq_some hl')
    exact h.lookup_of k' l' (by rw [Finmap.lookup_insert_of_ne _ hne, hl'])
  · intro k' l' hl' hnot
    by_cases heq : k' = k
    · subst heq
      rw [hself] at hl'
      cases hl'
      exact hentry
    · exact h.entry k' l' hl' (by simp [heq, hnot])
  · rintro k' d ⟨l', hl', hd⟩ hnot
    by_cases heq : k' = k
    · subst heq
      rw [hself] at hl'
      cases hl'
      exact hl d hd
    · exact h.closed k' d ⟨l', hl', hd⟩ (by simp [heq, hnot])
  · intro k' hk' hnot
    by_cases heq : k' = k
    · exact ⟨k, rfl, heq ▸ .refl⟩
    · obtain ⟨d, hd, hpath⟩ := h.reached k' hk' (by simp [heq, hnot])
      exact ⟨k, rfl, .head ⟨l, hself, hd⟩ hpath⟩

/-- If the entries are the successors in a relation, then the table that was made from nothing has
what is reached from the starts. -/
theorem mem_iff {Edge : K → K → Prop}
    (h : Extends (fun k l => ∀ d, d ∈ l ↔ Edge k d) starts ∅ t) (hstarts : ∀ k, starts k → k ∈ t)
    (k : K) : k ∈ t ↔ ∃ a, starts a ∧ ReflTransGen Edge a k := by
  have hnext : ∀ k d, Next t k d → Edge k d := by
    rintro k d ⟨l, hl, hd⟩
    exact (h.entry k l hl Finmap.notMem_empty d).mp hd
  constructor
  · intro hk
    obtain ⟨a, ha, hpath⟩ := h.reached k hk Finmap.notMem_empty
    exact ⟨a, ha, ReflTransGen.mono hnext _ _ hpath⟩
  · rintro ⟨a, ha, hpath⟩
    induction hpath with
    | refl => exact hstarts a ha
    | @tail b c _ hstep ih =>
      obtain ⟨l, hl⟩ := Finmap.mem_iff.mp ih
      exact h.closed b c ⟨l, hl, (h.entry b l hl Finmap.notMem_empty c).mpr hstep⟩
        Finmap.notMem_empty

end Extends

/-! ### What an exploration does -/

section Explore

variable {key : A → K} {succ : A → σ → Except E (List A × σ)} {depth : E}

/-- What holds of the items and of the state throughout, and what entries are made. -/
structure Keeps (key : A → K) (succ : A → σ → Except E (List A × σ)) (P : A → Prop)
    (I : σ → Prop) (Entry : K → List K → Prop) : Prop where
  items : ∀ a s next s', P a → I s → succ a s = .ok (next, s') → ∀ b ∈ next, P b
  state : ∀ a s next s', P a → I s → succ a s = .ok (next, s') → I s'
  entry : ∀ a s next s', P a → I s → succ a s = .ok (next, s') → Entry (key a) (next.map key)

theorem foldlM_explore_spec {P : A → Prop} {I : σ → Prop} {Entry : K → List K → Prop}
    {f : Explored σ K → A → Except E (Explored σ K)}
    (hf : ∀ a s s', P a → I s.rest → f s a = .ok s' →
      I s'.rest ∧ key a ∈ s'.table ∧ Extends Entry (· = key a) s.table s'.table)
    {items : List A} (hitems : ∀ a ∈ items, P a) {s s' : Explored σ K} (hs : I s.rest)
    (h : items.foldlM f s = .ok s') :
    I s'.rest ∧ (∀ a ∈ items, key a ∈ s'.table) ∧
      Extends Entry (· ∈ items.map key) s.table s'.table := by
  refine foldlM_ok_induction (P := fun pre t => I t.rest ∧ (∀ a ∈ pre, key a ∈ t.table) ∧
    Extends Entry (· ∈ items.map key) s.table t.table) h ⟨hs, by simp, .refl⟩ ?_
  rintro pre a post t t' hsplit ⟨hI, hpre, hext⟩ hstep
  have ha : a ∈ items := by simp [hsplit]
  obtain ⟨hI', hkey, hext'⟩ := hf a t t' (hitems a ha) hI hstep
  refine ⟨hI', ?_, hext.trans (hext'.mono ?_)⟩
  · intro b hb
    rcases List.mem_append.mp hb with hb | hb
    · exact hext'.mem (hpre b hb)
    · rw [List.mem_singleton] at hb
      exact hb ▸ hkey
  · rintro k rfl
    exact List.mem_map_of_mem ha

/-- An exploration enters the node it starts from and everything below that is new. -/
theorem explore_spec {P : A → Prop} {I : σ → Prop} {Entry : K → List K → Prop}
    (hkeeps : Keeps key succ P I Entry) {n : ℕ} {a : A} {s s' : Explored σ K} (ha : P a)
    (hs : I s.rest) (h : explore key succ depth n a s = .ok s') :
    I s'.rest ∧ key a ∈ s'.table ∧ Extends Entry (· = key a) s.table s'.table := by
  induction n generalizing a s s' with
  | zero => cases h
  | succ n ih =>
    rw [explore] at h
    split_ifs at h with hmem
    · cases h
      exact ⟨hs, hmem, .refl⟩
    · obtain ⟨⟨next, rest⟩, hsucc, hfold⟩ := bind_eq_ok.mp h
      have hnext := hkeeps.items a s.rest next rest ha hs hsucc
      have hrest := hkeeps.state a s.rest next rest ha hs hsucc
      obtain ⟨hI, hkeys, hext⟩ := foldlM_explore_spec
        (fun b t t' hb ht hstep => ih hb ht hstep) hnext hrest hfold
      refine ⟨hI, hext.mem (by simp), ?_⟩
      apply Extends.cons hmem (hkeeps.entry a s.rest next rest ha hs hsucc) hext
      intro d hd
      obtain ⟨b, hb, rfl⟩ := List.mem_map.mp hd
      exact hkeys b hb

/-- An exploration that has fuel for every node that may be entered fails only where finding
successors fails. -/
theorem explore_failsAs {P : A → Prop} {I : σ → Prop} {Entry : K → List K → Prop}
    (hkeeps : Keeps key succ P I Entry) {Q : E → Prop}
    (hfails : ∀ a s, P a → I s → FailsAs Q (succ a s)) {U : Finset K} (hU : ∀ a, P a → key a ∈ U)
    {n : ℕ} {a : A} {s : Explored σ K} (ha : P a) (hs : I s.rest)
    (hn : (U \ s.table.keys).card < n) : FailsAs Q (explore key succ depth n a s) := by
  induction n generalizing a s with
  | zero => exact absurd hn (Nat.not_lt_zero _)
  | succ n ih =>
    rw [explore]
    split_ifs with hmem
    · exact failsAs_ok s
    · refine (hfails a s.rest ha hs).bind ?_
      rintro ⟨next, rest⟩ hsucc
      have hnext := hkeeps.items a s.rest next rest ha hs hsucc
      have hrest := hkeeps.state a s.rest next rest ha hs hsucc
      -- the node itself leaves the nodes that are missing
      have hlt : (U \ (s.table.insert (key a) (next.map key)).keys).card < n := by
        refine Nat.lt_of_lt_of_le (Finset.card_lt_card ?_) (Nat.le_of_lt_succ hn)
        rw [Finset.ssubset_iff_of_subset]
        · refine ⟨key a, ?_, ?_⟩
          · simpa [Finmap.mem_keys] using ⟨hU a ha, hmem⟩
          · simp [Finmap.mem_keys]
        · intro k hk
          simp only [Finset.mem_sdiff, Finmap.mem_keys, Finmap.mem_insert, not_or] at hk ⊢
          exact ⟨hk.1, hk.2.2⟩
      intro e he
      by_contra hQ
      refine foldlM_ne_error (P := fun _ t => I t.rest ∧
        Extends Entry (fun _ => True) (s.table.insert (key a) (next.map key)) t.table)
        ⟨hrest, .refl⟩ ?_ he
      rintro pre b post t hsplit ⟨hI, hext⟩
      have hb : P b := hnext b (by simp [hsplit])
      have hcard : (U \ t.table.keys).card < n := by
        refine lt_of_le_of_lt (Finset.card_le_card ?_) hlt
        apply Finset.sdiff_subset_sdiff (Finset.Subset.refl U)
        intro k hk
        rw [Finmap.mem_keys] at hk ⊢
        exact hext.mem hk
      constructor
      · exact fun hfail => hQ (ih hb hI hcard e hfail)
      · intro t' hstep
        obtain ⟨hI', -, hext'⟩ := explore_spec hkeeps hb hI hstep
        exact ⟨hI', hext.trans (hext'.mono fun _ _ => trivial)⟩

omit [DecidableEq K] in
/-- A loop whose turns have the same results where they succeed. -/
theorem foldlM_ok_of_imp {f f' : σ → A → Except E σ}
    (hf : ∀ s a s', f s a = .ok s' → f' s a = .ok s') {l : List A} {s s' : σ}
    (h : l.foldlM f s = .ok s') : l.foldlM f' s = .ok s' := by
  induction l generalizing s with
  | nil => exact h
  | cons a l ih =>
    rw [List.foldlM_cons] at h ⊢
    obtain ⟨t, ht, h⟩ := bind_eq_ok.mp h
    exact bind_eq_ok.mpr ⟨t, hf s a t ht, ih h⟩

/-- More fuel makes no difference. -/
theorem explore_mono {n m : ℕ} (hnm : n ≤ m) {a : A} {s s' : Explored σ K}
    (h : explore key succ depth n a s = .ok s') : explore key succ depth m a s = .ok s' := by
  induction n generalizing m a s s' with
  | zero => cases h
  | succ n ih =>
    obtain ⟨m, rfl⟩ : ∃ m', m = m' + 1 := ⟨m - 1, by omega⟩
    rw [explore] at h ⊢
    split_ifs at h ⊢ with hmem
    · exact h
    · obtain ⟨⟨next, rest⟩, hstep, hfold⟩ := bind_eq_ok.mp h
      refine bind_eq_ok.mpr ⟨(next, rest), hstep, ?_⟩
      exact foldlM_ok_of_imp (fun t b t' ht => ih (Nat.le_of_succ_le_succ hnm) ht) hfold

/-- Two explorations side by side. If the state of the first is good at the end only when it was
good all along, and the second finds the same as long as it is, then so does the whole of it. -/
theorem explore_sim {τ : Type} {Good : σ → Prop} {R : σ → τ → Prop}
    {succ' : A → τ → Except E (List A × τ)}
    (hsucc : ∀ a s next s', succ a s = .ok (next, s') → Good s' →
      Good s ∧ ∀ r, R s r → ∃ r', succ' a r = .ok (next, r') ∧ R s' r')
    {n : ℕ} {a : A} {s s' : Explored σ K} (h : explore key succ depth n a s = .ok s')
    (hgood : Good s'.rest) :
    Good s.rest ∧ ∀ r, R s.rest r →
      ∃ r', explore key succ' depth n a ⟨r, s.table⟩ = .ok ⟨r', s'.table⟩ ∧ R s'.rest r' := by
  induction n generalizing a s s' with
  | zero => cases h
  | succ n ih =>
    simp only [explore] at h ⊢
    split_ifs at h ⊢ with hmem
    · cases h
      exact ⟨hgood, fun r hr => ⟨r, rfl, hr⟩⟩
    · obtain ⟨⟨next, rest⟩, hstep, hfold⟩ := bind_eq_ok.mp h
      -- the successors are entered one after the other
      have hall : ∀ (items : List A) (t : Explored σ K),
          items.foldlM (fun s b => explore key succ depth n b s) t = .ok s' →
          Good t.rest ∧ ∀ r, R t.rest r →
            ∃ r', items.foldlM (fun s b => explore key succ' depth n b s) ⟨r, t.table⟩ =
              .ok ⟨r', s'.table⟩ ∧ R s'.rest r' := by
        intro items
        induction items with
        | nil =>
          intro t ht
          cases ht
          exact ⟨hgood, fun r hr => ⟨r, rfl, hr⟩⟩
        | cons b items ihItems =>
          intro t ht
          rw [List.foldlM_cons] at ht
          obtain ⟨u, hu, hrest⟩ := bind_eq_ok.mp ht
          obtain ⟨hgood', hsim⟩ := ihItems u hrest
          obtain ⟨hgood'', hsim'⟩ := ih hu hgood'
          refine ⟨hgood'', fun r hr => ?_⟩
          obtain ⟨r', hr', hrel⟩ := hsim' r hr
          obtain ⟨r'', hr'', hrel'⟩ := hsim r' hrel
          refine ⟨r'', ?_, hrel'⟩
          rw [List.foldlM_cons]
          exact bind_eq_ok.mpr ⟨_, hr', hr''⟩
      obtain ⟨hgood', hsim⟩ := hall next _ hfold
      obtain ⟨hgood'', hnext⟩ := hsucc a s.rest next rest hstep hgood'
      refine ⟨hgood'', fun r hr => ?_⟩
      obtain ⟨r', hr', hrel⟩ := hnext r hr
      obtain ⟨r'', hr'', hrel'⟩ := hsim r' hrel
      exact ⟨r'', bind_eq_ok.mpr ⟨(next, r'), hr', hr''⟩, hrel'⟩

end Explore

/-! ### Other names for the nodes -/

section Rename

variable {L : Type} [DecidableEq L] (ho : HashOrder K) {f : K → L}

/-- The table with other names for its nodes. -/
def renameTable (ho : HashOrder K) (f : K → L) (t : SuccTable K) : SuccTable L :=
  ((ho.enum t.keys).filterMap fun k => (t.lookup k).map fun l =>
    (⟨f k, l.map f⟩ : Σ _ : L, List L)).toFinmap

theorem lookup_renameTable (hf : Function.Injective f) {t : SuccTable K} {x : L} {l' : List L} :
    (renameTable ho f t).lookup x = some l' ↔
      ∃ k l, t.lookup k = some l ∧ f k = x ∧ l.map f = l' := by
  have hnodup : ((ho.enum t.keys).filterMap fun k => (t.lookup k).map fun l =>
      (⟨f k, l.map f⟩ : Σ _ : L, List L)).NodupKeys := by
    rw [List.NodupKeys, List.keys, List.map_filterMap]
    refine List.Nodup.filterMap ?_ (ho.nodup_enum _)
    intro a a' b hb hb'
    simp only [Option.map_map, Option.mem_def, Option.map_eq_some_iff] at hb hb'
    obtain ⟨l, -, rfl⟩ := hb
    obtain ⟨l', -, heq⟩ := hb'
    exact hf heq.symm
  rw [renameTable, Finmap.dlookup_list_toFinmap, ← Option.mem_def,
    List.mem_dlookup_iff hnodup, List.mem_filterMap]
  constructor
  · rintro ⟨k, -, hk⟩
    obtain ⟨l, hl, heq⟩ := Option.map_eq_some_iff.mp hk
    cases heq
    exact ⟨k, l, hl, rfl, rfl⟩
  · rintro ⟨k, l, hl, rfl, rfl⟩
    refine ⟨k, ?_, by rw [hl]; rfl⟩
    rw [SetOrder.mem_enum, Finmap.mem_keys]
    exact Finmap.mem_of_lookup_eq_some hl

end Rename

end Cargo.Math
