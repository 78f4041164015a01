import Mathlib.Data.List.Basic
import Mathlib.Data.List.TakeWhile

/-!
# Slices of a text by byte positions

A text in memory is its encoding, and a position in it counts bytes. A slice between two
positions exists only if both fall between two characters.

## Main definitions

* `byteLen` — the length of a text in bytes
* `charIndices` — the characters of a text with their positions
* `slice`, `sliceFrom` — the text between two positions
* `IsCharBoundary` — a position between two characters

## Main results

* `slice_append` — positions that are lengths of prefixes cut between characters
* `exists_slice_iff` — there is a slice between two boundaries, and between no other positions
* `dropWhile_charIndices` — characters are dropped with their positions
-/

set_option autoImplicit false

namespace Cargo.Math

/-- The number of bytes that a text takes. -/
def byteLen : List Char → ℕ
  | [] => 0
  | c :: cs => c.utf8Size + byteLen cs

/-- Cut a text at a byte position, if that falls between two characters. -/
def splitAtByte : List Char → ℕ → Option (List Char × List Char)
  | cs, 0 => some ([], cs)
  | [], _ + 1 => none
  | c :: cs, n + 1 =>
    -- a position inside the first character is no boundary
    if c.utf8Size ≤ n + 1 then
      (splitAtByte cs (n + 1 - c.utf8Size)).map fun parts => (c :: parts.1, parts.2)
    else none

/-- The text between two byte positions. -/
def slice (cs : List Char) (start stop : ℕ) : Option (List Char) :=
  if start ≤ stop then
    (splitAtByte cs start).bind fun parts =>
      (splitAtByte parts.2 (stop - start)).map Prod.fst
  else none

/-- The text from a byte position on. -/
def sliceFrom (cs : List Char) (start : ℕ) : Option (List Char) :=
  (splitAtByte cs start).map Prod.snd

/-- The characters of a text, with their positions counted from `pos`. -/
def charIndices (pos : ℕ) : List Char → List (ℕ × Char)
  | [] => []
  | c :: cs => (pos, c) :: charIndices (pos + c.utf8Size) cs

@[simp] theorem byteLen_nil : byteLen [] = 0 := rfl

@[simp] theorem byteLen_cons (c : Char) (cs : List Char) :
    byteLen (c :: cs) = c.utf8Size + byteLen cs := rfl

@[simp] theorem byteLen_append (xs ys : List Char) :
    byteLen (xs ++ ys) = byteLen xs + byteLen ys := by
  induction xs with
  | nil => simp
  | cons c xs ih =>
    rw [List.cons_append, byteLen_cons, byteLen_cons, ih]
    omega

theorem length_le_byteLen (cs : List Char) : cs.length ≤ byteLen cs := by
  induction cs with
  | nil => simp
  | cons c cs ih =>
    have hpos := c.utf8Size_pos
    rw [List.length_cons, byteLen_cons]
    omega

/-- Characters of seven bits take one byte each. -/
theorem byteLen_of_ascii {cs : List Char} (h : ∀ c ∈ cs, c.toNat < 128) :
    byteLen cs = cs.length := by
  induction cs with
  | nil => rfl
  | cons c cs ih =>
    have hc : c.utf8Size = 1 := by
      have hlt := h c List.mem_cons_self
      rw [Char.utf8Size_eq_one_iff]
      exact UInt32.le_iff_toNat_le.mpr (by simpa using Nat.le_of_lt_succ hlt)
    rw [byteLen_cons, hc, ih fun d hd => h d (List.mem_cons_of_mem _ hd), List.length_cons,
      Nat.add_comm]

@[simp] theorem charIndices_nil (pos : ℕ) : charIndices pos [] = [] := rfl

@[simp] theorem charIndices_cons (pos : ℕ) (c : Char) (cs : List Char) :
    charIndices pos (c :: cs) = (pos, c) :: charIndices (pos + c.utf8Size) cs := rfl

@[simp] theorem length_charIndices (pos : ℕ) (cs : List Char) :
    (charIndices pos cs).length = cs.length := by
  induction cs generalizing pos with
  | nil => rfl
  | cons c cs ih => simp [ih]

theorem mem_of_mem_charIndices {pos : ℕ} {cs : List Char} {e : ℕ × Char}
    (h : e ∈ charIndices pos cs) : e.2 ∈ cs := by
  induction cs generalizing pos with
  | nil => cases h
  | cons c cs ih =>
    rcases List.mem_cons.mp h with rfl | h
    · exact List.mem_cons_self
    · exact List.mem_cons_of_mem _ (ih h)

/-- Characters are dropped with their positions. -/
theorem dropWhile_charIndices (p : Char → Bool) (pos : ℕ) (cs : List Char) :
    (charIndices pos cs).dropWhile (fun e => p e.2) =
      charIndices (pos + byteLen (cs.takeWhile p)) (cs.dropWhile p) := by
  induction cs generalizing pos with
  | nil => rfl
  | cons c cs ih =>
    rw [charIndices_cons, List.dropWhile_cons, List.takeWhile_cons, List.dropWhile_cons]
    by_cases hc : p c = true
    · simp [hc, ih, Nat.add_assoc]
    · simp [hc]

/-- A prefix ends between two characters. -/
theorem splitAtByte_append (xs ys : List Char) :
    splitAtByte (xs ++ ys) (byteLen xs) = some (xs, ys) := by
  induction xs with
  | nil => simp [splitAtByte]
  | cons c xs ih =>
    have hpos := c.utf8Size_pos
    obtain ⟨n, hn⟩ : ∃ n, byteLen (c :: xs) = n + 1 := ⟨byteLen (c :: xs) - 1, by simp; omega⟩
    have hle : c.utf8Size ≤ n + 1 := by rw [← hn, byteLen_cons]; omega
    have hrest : n + 1 - c.utf8Size = byteLen xs := by rw [← hn, byteLen_cons]; omega
    rw [hn, List.cons_append, splitAtByte, if_pos hle, hrest, ih]
    rfl

/-- The text between the ends of two prefixes. -/
theorem slice_append (pre mid post : List Char) :
    slice (pre ++ mid ++ post) (byteLen pre) (byteLen pre + byteLen mid) = some mid := by
  have hlen : byteLen pre + byteLen mid - byteLen pre = byteLen mid := by omega
  rw [slice, if_pos (by omega), List.append_assoc, splitAtByte_append, Option.bind_some, hlen,
    splitAtByte_append, Option.map_some]

/-- A position that falls between two characters. -/
def IsCharBoundary (cs : List Char) (n : ℕ) : Prop :=
  ∃ front back, cs = front ++ back ∧ byteLen front = n

theorem eq_of_splitAtByte {cs : List Char} {n : ℕ} {parts : List Char × List Char}
    (h : splitAtByte cs n = some parts) : cs = parts.1 ++ parts.2 ∧ byteLen parts.1 = n := by
  induction cs, n using splitAtByte.induct generalizing parts with
  | case1 cs =>
    rw [splitAtByte, Option.some.injEq] at h
    subst h
    exact ⟨rfl, rfl⟩
  | case2 n => cases h
  | case3 c cs n hle ih =>
    rw [splitAtByte, if_pos hle] at h
    obtain ⟨rest, hrest, rfl⟩ := Option.map_eq_some_iff.mp h
    obtain ⟨heq, hlen⟩ := ih hrest
    refine ⟨by rw [heq, List.cons_append], ?_⟩
    rw [byteLen_cons, hlen]
    omega
  | case4 c cs n hlt =>
    rw [splitAtByte, if_neg hlt] at h
    cases h

/-- Between two boundaries there is a slice. -/
theorem exists_slice_iff {cs : List Char} {start stop : ℕ} (hle : start ≤ stop) :
    (∃ mid, slice cs start stop = some mid) ↔
      IsCharBoundary cs start ∧ IsCharBoundary cs stop := by
  constructor
  · rintro ⟨mid, hmid⟩
    rw [slice, if_pos hle] at hmid
    obtain ⟨parts, hparts, hmid⟩ := Option.bind_eq_some_iff.mp hmid
    obtain ⟨ends, hends, -⟩ := Option.map_eq_some_iff.mp hmid
    obtain ⟨heq, hlen⟩ := eq_of_splitAtByte hparts
    obtain ⟨heq', hlen'⟩ := eq_of_splitAtByte hends
    refine ⟨⟨parts.1, parts.2, heq, hlen⟩, parts.1 ++ ends.1, ends.2, ?_, ?_⟩
    · rw [heq, heq', List.append_assoc]
    · rw [byteLen_append, hlen, hlen']
      omega
  · rintro ⟨⟨front, back, heq, hlen⟩, front', back', heq', hlen'⟩
    -- of two prefixes the one with fewer bytes is a prefix of the other
    have hprefix : front <+: front' := by
      have hf : front <+: cs := ⟨back, heq.symm⟩
      have hf' : front' <+: cs := ⟨back', heq'.symm⟩
      rcases List.prefix_or_prefix_of_prefix hf hf' with h | ⟨rest, hrest⟩
      · exact h
      · have hbytes := congrArg byteLen hrest
        have hrestlen := length_le_byteLen rest
        rw [byteLen_append] at hbytes
        have hnil : rest = [] := List.length_eq_zero_iff.mp (by omega)
        rw [hnil, List.append_nil] at hrest
        exact hrest ▸ List.prefix_rfl
    obtain ⟨mid, rfl⟩ := hprefix
    rw [byteLen_append] at hlen'
    have hstop : stop = byteLen front + byteLen mid := by omega
    refine ⟨mid, ?_⟩
    rw [heq', ← hlen, hstop, slice_append]

/-- The text after a prefix. -/
theorem sliceFrom_append (pre post : List Char) :
    sliceFrom (pre ++ post) (byteLen pre) = some post := by
  rw [sliceFrom, splitAtByte_append, Option.map_some]

end Cargo.Math
