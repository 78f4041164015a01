import Cargo.Math.EditDistance
import Cargo.Math.Iteration
import Cargo.Math.Slice

/-!
# Edit distance

The distance of two names, by which a name that is not known is answered with one that is. One
column of the table of distances is kept and overwritten row by row: while a row is gone through,
the entries up to the position are those of the new row and the ones after it those of the old.

## Main definitions

* `levDistance`
* `entry` — an entry of the table
* `Column`, `InRow` — what the column holds between two rows and within one

## Main results

* `levStep_spec`, `levRow_spec` — what one entry and one row change
* `levDistance_eq` — the column ends with the distance of the two names
* `levDistance_metric` — it is the least number of edits, and a metric
-/

set_option autoImplicit false

namespace Cargo.Util

open Cargo.Math

/-- `dcol[j] = value` -/
def setColumn (dcol : List ℕ) (j value : ℕ) : Option (List ℕ) :=
  if j < dcol.length then some (dcol.set j value) else none

/-- The column while a row is gone through, with the entry that was overwritten last and the
position that was last seen. -/
structure LevState where
  dcol : List ℕ
  current : ℕ
  tLast : ℕ
  deriving DecidableEq

/-- One character of a row against one character of the column. -/
def levStep (sc : Char) (s : LevState) (cell : Char × ℕ) : Option LevState := do
  let (tc, j) := cell
  let next ← s.dcol[j + 1]?
  let dcol ←
    if sc = tc then setColumn s.dcol (j + 1) s.current
    else do
      let dcol ← setColumn s.dcol (j + 1) (min s.current next)
      let here ← dcol[j + 1]?
      let before ← dcol[j]?
      setColumn dcol (j + 1) (min here before + 1)
  some { dcol := dcol, current := next, tLast := j }

/-- One row. -/
def levRow (t : List Char) (s : LevState) (row : Char × ℕ) : Option LevState := do
  let (sc, i) := row
  let dcol ← setColumn s.dcol 0 (i + 1)
  t.zipIdx.foldlM (levStep sc) { s with dcol := dcol, current := i }

/-- The distance, unless an index is out of bounds. -/
def levDistance (me t : List Char) : Option ℕ :=
  if me.isEmpty then some t.length
  else if t.isEmpty then some me.length
  else do
    let s ← me.zipIdx.foldlM (levRow t)
      { dcol := List.range (byteLen t + 1), current := 0, tLast := 0 }
    s.dcol[s.tLast + 1]?

/-! ### The table -/

/-- The distance of the reversed row prefix `u` from the first `k` characters of `t`. -/
def entry (u t : List Char) (k : ℕ) : ℕ := editDistance u (t.take k).reverse

section Entry

variable {u t : List Char} {sc tc : Char} {k : ℕ}

@[simp] theorem entry_zero (u t : List Char) : entry u t 0 = u.length := by
  simp [entry]

theorem entry_nil (h : k ≤ t.length) : entry [] t k = k := by
  simp [entry, h]

theorem entry_length (u t : List Char) : entry u t t.length = editDistance u t.reverse := by
  rw [entry, List.take_length]

theorem reverse_take_succ {t : List Char} (h : t[k]? = some tc) :
    (t.take (k + 1)).reverse = tc :: (t.take k).reverse := by
  rw [List.take_add_one, h]
  simp

/-- Characters that are the same take the diagonal. -/
theorem entry_succ_self (h : t[k]? = some sc) : entry (sc :: u) t (k + 1) = entry u t k := by
  rw [entry, reverse_take_succ h, editDistance_cons_self, entry]

theorem entry_succ_of_ne (h : t[k]? = some tc) (hne : sc ≠ tc) :
    entry (sc :: u) t (k + 1) =
      min (min (entry u t k) (entry u t (k + 1))) (entry (sc :: u) t k) + 1 := by
  rw [entry, reverse_take_succ h, editDistance_cons_cons hne, ← reverse_take_succ h]
  rfl

end Entry

/-! ### The column -/

theorem setColumn_of_lt {dcol : List ℕ} {j : ℕ} (h : j < dcol.length) (value : ℕ) :
    setColumn dcol j value = some (dcol.set j value) := if_pos h

/-- Between two rows: the column holds the entries of the row prefix `u`. -/
structure Column (u t : List Char) (dcol : List ℕ) : Prop where
  length_eq : dcol.length = byteLen t + 1
  get : ∀ k ≤ t.length, dcol[k]? = some (entry u t k)

/-- Within the row of `sc`, at position `j`. -/
structure InRow (u t : List Char) (sc : Char) (j : ℕ) (s : LevState) : Prop where
  length_eq : s.dcol.length = byteLen t + 1
  written : ∀ k ≤ j, s.dcol[k]? = some (entry (sc :: u) t k)
  old : ∀ k, j < k → k ≤ t.length → s.dcol[k]? = some (entry u t k)
  current_eq : s.current = entry u t j
  tLast_eq : 0 < j → s.tLast + 1 = j

section Steps

variable {u t : List Char} {sc tc : Char} {j : ℕ} {s : LevState}

/-- One more entry of the row is written. -/
theorem InRow.write (h : InRow u t sc j s) (hj : j < t.length) :
    InRow u t sc (j + 1)
      ⟨s.dcol.set (j + 1) (entry (sc :: u) t (j + 1)), entry u t (j + 1), j⟩ := by
  have hlt : j + 1 < s.dcol.length := by
    have hle := length_le_byteLen t
    rw [h.length_eq]
    omega
  refine ⟨?_, ?_, ?_, rfl, fun _ => rfl⟩
  · rw [List.length_set]
    exact h.length_eq
  · intro k hk
    rw [List.getElem?_set]
    by_cases heq : j + 1 = k
    · subst heq
      rw [if_pos rfl, if_pos hlt]
    · rw [if_neg heq]
      exact h.written k (by omega)
  · intro k hk hkt
    rw [List.getElem?_set_ne (by omega)]
    exact h.old k (by omega) hkt

theorem levStep_spec (h : InRow u t sc j s) (htc : t[j]? = some tc) :
    ∃ s', levStep sc s (tc, j) = some s' ∧ InRow u t sc (j + 1) s' := by
  have hj : j < t.length := (List.getElem?_eq_some_iff.mp htc).1
  refine ⟨_, ?_, h.write hj⟩
  have hlt : j + 1 < s.dcol.length := by
    have hle := length_le_byteLen t
    rw [h.length_eq]
    omega
  have hnext := h.old (j + 1) (Nat.lt_succ_self j) hj
  by_cases hc : sc = tc
  · subst hc
    rw [levStep, hnext, Option.bind_eq_bind, Option.bind_some, if_pos rfl, h.current_eq,
      setColumn_of_lt hlt, entry_succ_self htc]
    rfl
  · -- the entry is written twice: the least of two neighbours, then the least of all three
    have hhere : (s.dcol.set (j + 1) (min (entry u t j) (entry u t (j + 1))))[j + 1]? =
        some (min (entry u t j) (entry u t (j + 1))) := by
      rw [List.getElem?_set, if_pos rfl, if_pos hlt]
    have hbefore : (s.dcol.set (j + 1) (min (entry u t j) (entry u t (j + 1))))[j]? =
        some (entry (sc :: u) t j) := by
      rw [List.getElem?_set_ne (Nat.succ_ne_self j)]
      exact h.written j le_rfl
    have hlt' : j + 1 <
        (s.dcol.set (j + 1) (min (entry u t j) (entry u t (j + 1)))).length := by
      rw [List.length_set]
      exact hlt
    simp only [levStep, hnext, Option.bind_eq_bind, Option.bind_some, if_neg hc, h.current_eq,
      setColumn_of_lt hlt, hhere, hbefore, setColumn_of_lt hlt', List.set_set,
      entry_succ_of_ne htc hc]

theorem levRow_spec (h : Column u t s.dcol) :
    ∃ s', levRow t s (sc, u.length) = some s' ∧ Column (sc :: u) t s'.dcol ∧
      (t ≠ [] → s'.tLast + 1 = t.length) := by
  have hlt : 0 < s.dcol.length := by
    rw [h.length_eq]
    omega
  have hstart : InRow u t sc 0 ⟨s.dcol.set 0 (u.length + 1), u.length, s.tLast⟩ := by
    refine ⟨?_, ?_, ?_, (entry_zero u t).symm, fun h0 => absurd h0 (lt_irrefl 0)⟩
    · rw [List.length_set]
      exact h.length_eq
    · intro k hk
      obtain rfl := Nat.le_zero.mp hk
      rw [List.getElem?_set, if_pos rfl, if_pos hlt, entry_zero, List.length_cons]
    · intro k hk hkt
      rw [List.getElem?_set_ne (by omega)]
      exact h.get k hkt
  obtain ⟨s', hs', hrow⟩ := exists_foldlM_zipIdx (P := fun j s => InRow u t sc j s) hstart
    fun j tc s htc hs => levStep_spec hs htc
  refine ⟨s', ?_, ⟨hrow.length_eq, hrow.written⟩, fun ht => ?_⟩
  · rw [levRow, setColumn_of_lt hlt]
    exact hs'
  · exact hrow.tLast_eq (List.length_pos_iff.mpr ht)

end Steps

/-! ### The distance -/

/-- The code computes the distance, and no index is out of bounds. -/
theorem levDistance_eq (me t : List Char) : levDistance me t = some (editDistance me t) := by
  unfold levDistance
  split
  · rename_i hme
    rw [List.isEmpty_iff.mp hme, editDistance_nil_left]
  · rename_i hme
    split
    · rename_i ht
      rw [List.isEmpty_iff.mp ht, editDistance_nil_right]
    · rename_i ht
      rw [List.isEmpty_iff] at hme ht
      have hstart : Column [] t (List.range (byteLen t + 1)) := by
        refine ⟨List.length_range, fun k hk => ?_⟩
        have hle := length_le_byteLen t
        rw [entry_nil hk, List.getElem?_range (by omega)]
      -- after `k` rows the column belongs to the first `k` characters
      obtain ⟨s, hs, hcolumn, hlast⟩ := exists_foldlM_zipIdx (l := me) (f := levRow t)
        (s := ⟨List.range (byteLen t + 1), 0, 0⟩)
        (P := fun k s => Column (me.take k).reverse t s.dcol ∧ (0 < k → s.tLast + 1 = t.length))
        ⟨hstart, fun h0 => absurd h0 (lt_irrefl 0)⟩ <| by
          rintro k sc s hsc ⟨hcolumn, -⟩
          have hk : ((me.take k).reverse).length = k := by
            have hlt := (List.getElem?_eq_some_iff.mp hsc).1
            rw [List.length_reverse, List.length_take, Nat.min_eq_left hlt.le]
          have hrow : ∃ s', levRow t s (sc, (me.take k).reverse.length) = some s' ∧
              Column (sc :: (me.take k).reverse) t s'.dcol ∧
              (t ≠ [] → s'.tLast + 1 = t.length) := levRow_spec hcolumn
          obtain ⟨s', hs', hcolumn', hlast'⟩ := hrow
          rw [hk] at hs'
          rw [reverse_take_succ hsc]
          exact ⟨s', hs', hcolumn', fun _ => hlast' ht⟩
      rw [hs, Option.bind_eq_bind, Option.bind_some,
        hlast (List.length_pos_iff.mpr hme), hcolumn.get t.length le_rfl, entry_length,
        List.take_length, editDistance_reverse]

/-- The distance is the least number of edits; it is symmetric, zero for equal names only, and
satisfies the triangle inequality. -/
theorem levDistance_metric :
    (∀ a b, ∃ n, levDistance a b = some n ∧ IsLeast {k | Edits k a b} n) ∧
      (∀ a b, levDistance a b = levDistance b a) ∧
      (∀ a b, levDistance a b = some 0 ↔ a = b) ∧
      ∀ a b c, ∃ x y z, levDistance a b = some x ∧ levDistance b c = some y ∧
        levDistance a c = some z ∧ z ≤ x + y := by
  refine ⟨fun a b => ?_, fun a b => ?_, fun a b => ?_, fun a b c => ?_⟩
  · exact ⟨_, levDistance_eq a b, isLeast_editDistance a b⟩
  · rw [levDistance_eq, levDistance_eq, editDistance_comm]
  · rw [levDistance_eq, Option.some.injEq, editDistance_eq_zero]
  · exact ⟨_, _, _, levDistance_eq a b, levDistance_eq b c, levDistance_eq a c,
      editDistance_triangle a b c⟩

example : levDistance "Märy".toList "Mary had".toList = some 5 := by decide

end Cargo.Util
