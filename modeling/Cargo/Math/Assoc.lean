import Mathlib.Data.List.Nodup
import Mathlib.Data.List.Lookmap

/-!
# Association lists

A map as the list of its entries, in the order in which iterating over it meets them. No key is
listed twice.

## Main definitions

* `Assoc.Keys` — no key is listed twice
* `Assoc.set`, `Assoc.insert`, `Assoc.erase`

## Main results

* `Assoc.lookup_set`, `Assoc.lookup_insert`, `Assoc.lookup_erase`
* `Assoc.lookup_eq_some_iff` — what a key finds
-/

set_option autoImplicit false

namespace Cargo.Math.Assoc

variable {K V : Type*} [DecidableEq K]

/-- No key is listed twice. -/
def Keys {K V : Type*} (l : List (K × V)) : Prop :=
  (l.map Prod.fst).Nodup

instance (l : List (K × V)) : Decidable (Keys l) :=
  inferInstanceAs (Decidable (l.map Prod.fst).Nodup)

/-- Another value for a key that is there. -/
def set (l : List (K × V)) (k : K) (v : V) : List (K × V) :=
  l.map fun e => if e.1 = k then (e.1, v) else e

/-- A value for a key, whether it is there or not. -/
def insert (l : List (K × V)) (k : K) (v : V) : List (K × V) :=
  if (l.lookup k).isSome then set l k v else l ++ [(k, v)]

/-- Without a key. -/
def erase (l : List (K × V)) (k : K) : List (K × V) :=
  l.filter fun e => e.1 ≠ k

theorem lookup_cons (e : K × V) (l : List (K × V)) (k : K) :
    (e :: l).lookup k = if k = e.1 then some e.2 else l.lookup k := by
  rw [List.lookup_cons]
  by_cases h : k = e.1
  · simp [h]
  · simp [h, beq_eq_false_iff_ne.mpr h]

theorem mem_of_lookup {l : List (K × V)} {k : K} {v : V} (h : l.lookup k = some v) :
    (k, v) ∈ l := by
  induction l with
  | nil => cases h
  | cons e l ih =>
    rw [lookup_cons] at h
    split at h
    · rename_i hk
      cases h
      rw [hk]
      exact List.mem_cons_self
    · exact List.mem_cons_of_mem _ (ih h)

theorem lookup_eq_some_iff {l : List (K × V)} (hl : Keys l) {k : K} {v : V} :
    l.lookup k = some v ↔ (k, v) ∈ l := by
  refine ⟨mem_of_lookup, fun h => ?_⟩
  induction l with
  | nil => cases h
  | cons e l ih =>
    rw [Keys, List.map_cons, List.nodup_cons] at hl
    rw [lookup_cons]
    rcases List.mem_cons.mp h with rfl | h
    · rw [if_pos rfl]
    · have hne : k ≠ e.1 := by
        intro hk
        exact hl.1 (List.mem_map.mpr ⟨(k, v), h, hk⟩)
      rw [if_neg hne]
      exact ih hl.2 h

theorem lookup_eq_none_iff {l : List (K × V)} {k : K} :
    l.lookup k = none ↔ k ∉ l.map Prod.fst := by
  induction l with
  | nil => simp
  | cons e l ih =>
    rw [lookup_cons, List.map_cons, List.mem_cons, not_or, ← ih]
    by_cases h : k = e.1
    · simp [h]
    · simp [h]

theorem lookup_set (l : List (K × V)) (k k' : K) (v : V) :
    (set l k v).lookup k' = if k' = k then (l.lookup k').map fun _ => v else l.lookup k' := by
  induction l with
  | nil => simp [set]
  | cons e l ih =>
    rw [set, List.map_cons, lookup_cons, lookup_cons, ← set, ih]
    by_cases he : e.1 = k
    · by_cases hk : k' = k
      · simp [he, hk]
      · simp [he, hk]
    · by_cases hk : k' = e.1
      · have hne : k' ≠ k := fun h => he (hk ▸ h)
        simp [he, hk]
      · simp [he, hk]

theorem keys_set (l : List (K × V)) (k : K) (v : V) :
    (set l k v).map Prod.fst = l.map Prod.fst := by
  rw [set, List.map_map]
  apply List.map_congr_left
  intro e _
  rw [Function.comp_apply]
  split
  · rfl
  · rfl

theorem lookup_concat (l : List (K × V)) (k k' : K) (v : V) :
    (l ++ [(k, v)]).lookup k' = (l.lookup k').or (if k' = k then some v else none) := by
  rw [List.lookup_append, lookup_cons]
  rfl

theorem lookup_insert (l : List (K × V)) (k k' : K) (v : V) :
    (insert l k v).lookup k' = if k' = k then some v else l.lookup k' := by
  rw [insert]
  split
  · rename_i hsome
    rw [lookup_set]
    by_cases hk : k' = k
    · obtain ⟨w, hw⟩ := Option.isSome_iff_exists.mp hsome
      simp [hk, hw]
    · simp [hk]
  · rename_i hnone
    rw [lookup_concat]
    by_cases hk : k' = k
    · have hk' : l.lookup k = none := Option.not_isSome_iff_eq_none.mp hnone
      simp [hk, hk']
    · simp [hk]

theorem keys_concat {l : List (K × V)} (hl : Keys l) {k : K} {v : V} (h : l.lookup k = none) :
    Keys (l ++ [(k, v)]) := by
  rw [Keys, List.map_append, List.map_singleton]
  apply List.Nodup.append hl (List.nodup_singleton k)
  intro k' hk' hk
  exact lookup_eq_none_iff.mp h (List.mem_singleton.mp hk ▸ hk')

theorem keys_insert {l : List (K × V)} (hl : Keys l) (k : K) (v : V) : Keys (insert l k v) := by
  rw [insert]
  split
  · rw [Keys, keys_set]
    exact hl
  · rename_i hnone
    exact keys_concat hl (Option.not_isSome_iff_eq_none.mp hnone)

theorem lookup_erase (l : List (K × V)) (k k' : K) :
    (erase l k).lookup k' = if k' = k then none else l.lookup k' := by
  induction l with
  | nil => simp [erase]
  | cons e l ih =>
    rw [erase, List.filter_cons]
    by_cases he : e.1 = k
    · rw [if_neg (by simpa using he), ← erase, ih, lookup_cons]
      by_cases hk : k' = k
      · simp [hk]
      · have hne : k' ≠ e.1 := fun h => hk (h.trans he)
        simp [hk, hne]
    · rw [if_pos (by simpa using he), lookup_cons, lookup_cons, ← erase, ih]
      by_cases hk : k' = e.1
      · have hne : k' ≠ k := fun h => he (hk ▸ h)
        simp [hk, he]
      · simp [hk]

theorem keys_erase {l : List (K × V)} (hl : Keys l) (k : K) : Keys (erase l k) :=
  (List.filter_sublist.map _).nodup hl

end Cargo.Math.Assoc
