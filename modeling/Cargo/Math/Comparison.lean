import Mathlib.Data.Set.Basic
import Mathlib.Order.Basic

/-!
# Keys with a hand-written comparison

A type of keys comes with three separate implementations: a comparison for ordered maps, an
equality and a hash for hash maps. They fit together on a set of keys if the comparison is a
total order that calls two keys equal exactly when the equality does, and equal keys hash
alike. Then an ordered map holds at most one entry per key and both kinds of map find what
they hold.

## Main definitions

* `Coherent` — order, equality and hash of a set of keys fit together
* `treeFind`, `hashFind`, `hashInsert` — what the two kinds of map do with a key
* `WellKeyed` — maps over a set of keys hold one entry per key and never miss one

## Main results

* `coherent_iff` — for a lawful comparison only the ties matter
* `Coherent.wellKeyed` — maps over coherent keys work
-/

set_option autoImplicit false

namespace Cargo.Math

variable {α H : Type*}

/-- Over the keys `K`, the comparison is a total order whose ties are the equal keys, and
equal keys hash alike. -/
structure Coherent (cmp : α → α → Ordering) (eq : α → α → Bool) (hash : α → H)
    (K : Set α) : Prop where
  total : ∀ a ∈ K, ∀ b ∈ K, (cmp a b).isLE ∨ (cmp b a).isLE
  antisymm : ∀ a ∈ K, ∀ b ∈ K, (cmp a b).isLE → (cmp b a).isLE → eq a b
  swap : ∀ a ∈ K, ∀ b ∈ K, cmp b a = (cmp a b).swap
  trans : ∀ a ∈ K, ∀ b ∈ K, ∀ c ∈ K, (cmp a b).isLE → (cmp b c).isLE → (cmp a c).isLE
  equal_iff : ∀ a ∈ K, ∀ b ∈ K, (cmp a b = .eq ↔ eq a b)
  hash_eq : ∀ a ∈ K, ∀ b ∈ K, eq a b → hash a = hash b

/-- The lookup of an ordered map, over its keys in their order. -/
def treeFind (cmp : α → α → Ordering) (k : α) : List α → Option α
  | [] => none
  | x :: xs =>
    match cmp k x with
    | .lt => none
    | .eq => some x
    | .gt => treeFind cmp k xs

/-- The lookup of a hash map: among the entries whose hash is the key's, one that is equal
to it. -/
def hashFind [DecidableEq H] (eq : α → α → Bool) (hash : α → H) (k : α)
    (entries : List α) : Option α :=
  (entries.filter fun x => hash x = hash k).find? (eq k)

/-- Inserting a key into a hash map: an entry that is found stays. -/
def hashInsert [DecidableEq H] (eq : α → α → Bool) (hash : α → H) (entries : List α) (k : α) :
    List α :=
  if (hashFind eq hash k entries).isSome then entries else k :: entries

/-- Maps over the keys `K` hold at most one entry per key and do not miss a key they hold. -/
structure WellKeyed [DecidableEq H] (cmp : α → α → Ordering) (eq : α → α → Bool)
    (hash : α → H) (K : Set α) : Prop where
  one_entry : ∀ keys : List α, (∀ x ∈ keys, x ∈ K) → keys.Pairwise (cmp · · = .lt) →
    keys.Pairwise fun a b => eq a b = false
  tree_found : ∀ keys : List α, (∀ x ∈ keys, x ∈ K) → keys.Pairwise (cmp · · = .lt) →
    ∀ k ∈ K, ((∃ x ∈ keys, eq k x) ↔ ∃ x ∈ keys, treeFind cmp k keys = some x)
  hash_one_entry : ∀ ids : List α, (∀ x ∈ ids, x ∈ K) →
    (ids.foldl (hashInsert eq hash) []).Pairwise fun a b => eq a b = false
  hash_found : ∀ entries : List α, (∀ x ∈ entries, x ∈ K) →
    ∀ k ∈ K, ((∃ x ∈ entries, eq k x) ↔ ∃ x ∈ entries, hashFind eq hash k entries = some x)

namespace Coherent

variable {cmp : α → α → Ordering} {eq : α → α → Bool} {hash : α → H} {K : Set α}

/-- A tie of a key comes after whatever the key comes after. -/
theorem gt_of_tie_of_gt (h : Coherent cmp eq hash K) {a b c : α} (ha : a ∈ K) (hb : b ∈ K)
    (hc : c ∈ K) (hab : cmp a b = .eq) (hbc : cmp b c = .gt) : cmp a c = .gt := by
  have hba : cmp b a = .eq := by
    rw [h.swap a ha b hb, hab]
    rfl
  have hnle : ¬ (cmp a c).isLE := by
    -- otherwise `b ≤ a ≤ c`, against `c < b`
    intro hac
    have hle := h.trans b hb a ha c hc (by simp [hba]) hac
    rw [hbc] at hle
    exact absurd hle (by decide)
  cases hac : cmp a c with
  | lt => exact absurd (by simp [hac]) hnle
  | eq => exact absurd (by simp [hac]) hnle
  | gt => rfl

/-- The walk along the sorted keys stops at the key that ties. -/
theorem treeFind_of_tie (h : Coherent cmp eq hash K) {k y : α} (hk : k ∈ K) (keys : List α)
    (hK : ∀ x ∈ keys, x ∈ K) (hsorted : keys.Pairwise (cmp · · = .lt)) (hy : y ∈ keys)
    (htie : cmp k y = .eq) : treeFind cmp k keys = some y := by
  induction keys with
  | nil => cases hy
  | cons x xs ih =>
    obtain ⟨hx, hxs⟩ := List.pairwise_cons.mp hsorted
    rcases List.mem_cons.mp hy with rfl | hy'
    · simp [treeFind, htie]
    · have hxK : x ∈ K := hK x List.mem_cons_self
      have hyK : y ∈ K := hK y hy
      have hyx : cmp y x = .gt := by
        rw [h.swap x hxK y hyK, hx y hy']
        rfl
      have hkx : cmp k x = .gt := h.gt_of_tie_of_gt hk hyK hxK htie hyx
      simp only [treeFind, hkx]
      exact ih (fun z hz => hK z (List.mem_cons_of_mem _ hz)) hxs hy'

end Coherent

/-- What the walk along the keys returns ties with the key looked up. -/
theorem treeFind_some {cmp : α → α → Ordering} {k y : α} {keys : List α}
    (h : treeFind cmp k keys = some y) : y ∈ keys ∧ cmp k y = .eq := by
  induction keys with
  | nil => cases h
  | cons x xs ih =>
    cases hx : cmp k x with
    | lt => simp [treeFind, hx] at h
    | eq =>
      simp only [treeFind, hx, Option.some.injEq] at h
      exact h ▸ ⟨List.mem_cons_self, hx⟩
    | gt =>
      simp only [treeFind, hx] at h
      exact ⟨List.mem_cons_of_mem _ (ih h).1, (ih h).2⟩

/-- The entry a hash map finds is equal to the key and hashes like it. -/
theorem hashFind_some [DecidableEq H] {eq : α → α → Bool} {hash : α → H} {k x : α}
    {entries : List α} (h : hashFind eq hash k entries = some x) :
    x ∈ entries ∧ eq k x := by
  unfold hashFind at h
  exact ⟨(List.mem_filter.mp (List.mem_of_find?_eq_some h)).1, List.find?_some h⟩

/-- A hash map over keys whose equality and hash fit together finds every key it holds. -/
theorem Coherent.hashFind_isSome [DecidableEq H] {cmp : α → α → Ordering}
    {eq : α → α → Bool} {hash : α → H} {K : Set α} (h : Coherent cmp eq hash K)
    {entries : List α} (hK : ∀ x ∈ entries, x ∈ K) {k : α} (hk : k ∈ K) :
    (hashFind eq hash k entries).isSome ↔ ∃ x ∈ entries, eq k x := by
  rw [hashFind, List.find?_isSome]
  constructor
  · rintro ⟨x, hx, hkx⟩
    exact ⟨x, (List.mem_filter.mp hx).1, hkx⟩
  · rintro ⟨x, hx, hkx⟩
    have hhash : hash x = hash k := (h.hash_eq k hk x (hK x hx) hkx).symm
    exact ⟨x, List.mem_filter.mpr ⟨hx, by simpa using hhash⟩, hkx⟩

/-- Filling a hash map keeps its entries pairwise different. -/
theorem Coherent.hashInsert_pairwise [DecidableEq H] {cmp : α → α → Ordering}
    {eq : α → α → Bool} {hash : α → H} {K : Set α} (h : Coherent cmp eq hash K)
    (ids : List α) (hK : ∀ x ∈ ids, x ∈ K) (entries : List α) (hentries : ∀ x ∈ entries, x ∈ K)
    (hne : entries.Pairwise fun a b => eq a b = false) :
    (ids.foldl (hashInsert eq hash) entries).Pairwise fun a b => eq a b = false := by
  induction ids generalizing entries with
  | nil => exact hne
  | cons k ids ih =>
    have hk : k ∈ K := hK k List.mem_cons_self
    rw [List.foldl_cons]
    apply ih (fun x hx => hK x (List.mem_cons_of_mem _ hx))
    · intro x hx
      unfold hashInsert at hx
      split at hx
      · exact hentries x hx
      · rcases List.mem_cons.mp hx with rfl | hx
        · exact hk
        · exact hentries x hx
    · unfold hashInsert
      split
      · exact hne
      · rename_i hmiss
        rw [h.hashFind_isSome hentries hk] at hmiss
        apply List.pairwise_cons.mpr
        constructor
        · intro x hx
          exact Bool.eq_false_iff.mpr fun hkx => hmiss ⟨x, hx, hkx⟩
        · exact hne

/-- Maps over keys whose order, equality and hash fit together do what maps are for. -/
theorem Coherent.wellKeyed [DecidableEq H] {cmp : α → α → Ordering} {eq : α → α → Bool}
    {hash : α → H} {K : Set α} (h : Coherent cmp eq hash K) :
    WellKeyed cmp eq hash K where
  one_entry := by
    intro keys hK hsorted
    apply hsorted.imp_of_mem
    intro a b ha hb hab
    apply Bool.eq_false_iff.mpr
    intro heq
    have htie := (h.equal_iff a (hK a ha) b (hK b hb)).mpr heq
    rw [hab] at htie
    cases htie
  tree_found := by
    intro keys hK hsorted k hk
    constructor
    · rintro ⟨x, hx, hkx⟩
      have htie := (h.equal_iff k hk x (hK x hx)).mpr hkx
      exact ⟨x, hx, h.treeFind_of_tie hk keys hK hsorted hx htie⟩
    · rintro ⟨x, hx, hfound⟩
      exact ⟨x, hx, (h.equal_iff k hk x (hK x hx)).mp (treeFind_some hfound).2⟩
  hash_one_entry := by
    intro ids hK
    exact h.hashInsert_pairwise ids hK [] (by simp) List.Pairwise.nil
  hash_found := by
    intro entries hK k hk
    rw [← h.hashFind_isSome hK hk, Option.isSome_iff_exists]
    constructor
    · rintro ⟨x, hx⟩
      exact ⟨x, (hashFind_some hx).1, hx⟩
    · rintro ⟨x, _, hx⟩
      exact ⟨x, hx⟩

/-- A lawful comparison fits an equality and a hash on a set of keys exactly when its ties
are the equal keys of the set. -/
theorem coherent_iff (cmp : α → α → Ordering) [Std.TransCmp cmp] (eq : α → α → Bool)
    {hash : α → H}
    (hhash : ∀ a b, eq a b → hash a = hash b) (K : Set α) :
    Coherent cmp eq hash K ↔ ∀ a ∈ K, ∀ b ∈ K, (cmp a b = .eq ↔ eq a b) := by
  constructor
  · intro h
    exact h.equal_iff
  · intro h
    exact
      { total := by
          intro a _ b _
          have hswap : cmp b a = (cmp a b).swap := Std.OrientedCmp.eq_swap
          rw [hswap]
          cases cmp a b <;> simp
        antisymm := fun a ha b hb hab hba =>
          (h a ha b hb).mp (Std.OrientedCmp.isLE_antisymm hab hba)
        swap := fun a _ b _ => Std.OrientedCmp.eq_swap
        trans := fun a _ b _ c _ => Std.TransCmp.isLE_trans
        equal_iff := h
        hash_eq := fun a _ b _ => hhash a b }

end Cargo.Math
