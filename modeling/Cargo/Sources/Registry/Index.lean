import Cargo.Core.Url
import Cargo.Math.Iteration
import Cargo.Math.Slice
import Cargo.Math.Switching
import Mathlib.Data.Nat.Bitwise

/-!
# Looking up a crate in the index of a registry

The file of a crate is found by its name, in directories named after the first characters of the
name. Hyphens and underscores are interchangeable, and all spellings of the path are tried until
there is a file, counting through the combinations of spellings with a number of 16 bits.

The directories are cut out of the name at fixed byte positions, which need not fall between two
characters. And the directories repeat hyphens and underscores of the name: these are switched
apart from the name, and take up combinations. How many there are is kept in 32 bits; of a text
with more of them than that the enumeration can stop early.

## Main definitions

* `UncanonicalizedIter` — the spellings of a path
* `rawPath`, `candidates`, `loadSummaries` — the paths that are tried
* `Enumerates` — the spellings are what they should be
* `Covers` — every spelling of a crate is found
* `Coverable` — what a name has to be like for that

## Main results

* `take_eq`, `enumerates_iff` — the spellings that are enumerated
* `covers_iff` — which crates are found
* `loadSummaries_found` — what that means for the lookup
-/

set_option autoImplicit false

namespace Cargo.Sources.Registry

open Cargo.Core Cargo.Math

/-! ### The spellings of a path -/

/-- The ways in which the lookup can panic. -/
inductive Panic
  /-- A slice does not end between two characters. -/
  | charBoundary
  /-- The counter or a shift. -/
  | overflow
  deriving DecidableEq, Repr

def isSep (c : Char) : Bool := c = '_' || c = '-'

structure UncanonicalizedIter where
  input : Text
  /-- Of 32 bits. -/
  numHyphenUnderscore : ℕ
  /-- Of 16 bits. -/
  hyphenCombinationNum : ℕ

/-- The number of zeros at the end of a number of `w` bits. -/
def trailingZeros : ℕ → ℕ → ℕ
  | 0, _ => 0
  | w + 1, n => if n % 2 = 1 then 0 else trailingZeros w (n / 2) + 1

/-- `num & (1u16 << s) > 0` -/
def bit (num s : ℕ) : Except Panic Bool :=
  if s < 16 then .ok (num.testBit s) else .error .overflow

/-- The spelling with the given number, where `s` hyphens and underscores came before. -/
def respell (num : ℕ) : ℕ → Text → Except Panic Text
  | _, [] => .ok []
  | s, c :: cs =>
    if isSep c = true ∧ s ≤ 15 then do
      let switch ← bit num s
      let rest ← respell num (s + 1) cs
      .ok ((if (decide (c = '_') ^^ switch) = true then '_' else '-') :: rest)
    else do
      let rest ← respell num s cs
      .ok (c :: rest)

namespace UncanonicalizedIter

def new (input : Text) : UncanonicalizedIter where
  input
  numHyphenUnderscore := input.countP isSep % 2 ^ 32
  hyphenCombinationNum := 0

def next (it : UncanonicalizedIter) : Except Panic (Option (Text × UncanonicalizedIter)) :=
  if 0 < it.hyphenCombinationNum ∧
      it.numHyphenUnderscore ≤ trailingZeros 16 it.hyphenCombinationNum then .ok none
  else do
    let ret ← respell it.hyphenCombinationNum 0 it.input
    if it.hyphenCombinationNum + 1 < 2 ^ 16 then
      .ok (some (ret, { it with hyphenCombinationNum := it.hyphenCombinationNum + 1 }))
    else .error .overflow

/-- The first spellings, at most as many as are asked for. -/
def take : ℕ → UncanonicalizedIter → Except Panic (List Text)
  | 0, _ => .ok []
  | k + 1, it => do
    match ← it.next with
    | none => .ok []
    | some (ret, it) => (take k it).map (ret :: ·)

end UncanonicalizedIter

/-! ### The paths that are tried -/

/-- `&t[start..stop]` -/
def cut (t : Text) (start stop : ℕ) : Except Panic Text :=
  match slice t start stop with
  | none => .error .charBoundary
  | some part => .ok part

def rawPath (fsName : Text) : Except Panic Text :=
  match byteLen fsName with
  | 1 => .ok ('1' :: '/' :: fsName)
  | 2 => .ok ('2' :: '/' :: fsName)
  | 3 => do
    let first ← cut fsName 0 1
    .ok ('3' :: '/' :: first ++ '/' :: fsName)
  | _ => do
    let first ← cut fsName 0 2
    let second ← cut fsName 2 4
    .ok (first ++ '/' :: second ++ '/' :: fsName)

/-- The paths for a name, in the order in which they are tried. -/
def candidates (toLowercase : Char → Text) (name : Text) : Except Panic (List Text) := do
  let rawPath ← rawPath (name.flatMap toLowercase)
  (UncanonicalizedIter.new rawPath).take 1024

/-- What the first file gives, of those that there are. -/
def firstHit {E S : Type} (load : Text → Option (Except E (List S))) :
    List Text → Except E (List S)
  | [] => .ok []
  | path :: paths =>
    match load path with
    | none => firstHit load paths
    | some ret => ret

/-- The summaries of a crate; `load` says what the file at a path gives, if there is one. -/
def loadSummaries {E S : Type} (toLowercase : Char → Text)
    (load : Text → Option (Except E (List S))) (name : Text) :
    Except Panic (Except E (List S)) :=
  (candidates toLowercase name).map (firstHit load)

/-! ### Which spellings there are -/

/-- Exchange hyphen and underscore. -/
def flipSep (c : Char) : Char := if c = '_' then '-' else if c = '-' then '_' else c

theorem isSep_flipSep (c : Char) : isSep (flipSep c) = isSep c := by
  unfold flipSep
  split
  · rename_i h
    rw [h]
    rfl
  · split
    · rename_i h
      rw [h]
      rfl
    · rfl

theorem isSep_iff {c : Char} : isSep c = true ↔ c = '_' ∨ c = '-' := by
  simp [isSep]

theorem flipSep_ne {c : Char} (hc : isSep c = true) : flipSep c ≠ c := by
  rcases isSep_iff.mp hc with rfl | rfl <;> decide

/-- Only powers of two end in so many zeros. -/
theorem le_trailingZeros_iff {k w n : ℕ} : k ≤ trailingZeros w n ↔ k ≤ w ∧ 2 ^ k ∣ n := by
  induction w generalizing k n with
  | zero =>
    rw [trailingZeros]
    constructor
    · intro hk
      obtain rfl : k = 0 := by omega
      exact ⟨le_rfl, one_dvd n⟩
    · exact And.left
  | succ w ih =>
    rw [trailingZeros]
    cases k with
    | zero => simp
    | succ k =>
      split
      · rename_i hodd
        have hnot : ¬ 2 ^ (k + 1) ∣ n := by
          intro hdvd
          have htwo : 2 ∣ n := (dvd_pow_self 2 (by omega)).trans hdvd
          omega
        simp [hnot]
      · rename_i heven
        have hhalf : n = n / 2 * 2 := by omega
        have hdvd : 2 ^ (k + 1) ∣ n ↔ 2 ^ k ∣ n / 2 := by
          conv_lhs => rw [hhalf, Nat.pow_succ]
          exact Nat.mul_dvd_mul_iff_right (by omega)
        rw [Nat.add_le_add_iff_right, Nat.add_le_add_iff_right, ih, hdvd]

/-- The spelling of a number switches where the number has a digit. -/
theorem respell_eq {num : ℕ} (hnum : num < 2 ^ 16) (s : ℕ) (t : Text) :
    respell num s t = .ok (switch isSep flipSep (num / 2 ^ s) t) := by
  induction t generalizing s with
  | nil => rfl
  | cons c t ih =>
    rw [respell]
    cases hc : isSep c with
    | false => rw [if_neg (by simp), ih, switch_cons_of_not_marked hc]; rfl
    | true =>
      by_cases hs : s ≤ 15
      · have hhalf : num / 2 ^ s / 2 = num / 2 ^ (s + 1) := by
          rw [Nat.div_div_eq_div_mul, Nat.pow_succ]
        have hswitched : (if (decide (c = '_') ^^ num.testBit s) = true then '_' else '-') =
            if num / 2 ^ s % 2 = 1 then flipSep c else c := by
          rw [Nat.testBit_eq_decide_div_mod_eq]
          rcases isSep_iff.mp hc with rfl | rfl <;> by_cases hodd : num / 2 ^ s % 2 = 1 <;>
            simp [hodd, flipSep]
        rw [if_pos ⟨rfl, hs⟩, bit, if_pos (by omega), ih, switch_cons_of_marked hc, hhalf,
          ← hswitched]
        rfl
      · -- beyond the sixteenth nothing is switched, and the number has no digits there
        have hzero : num / 2 ^ s = 0 := by
          apply Nat.div_eq_of_lt
          exact hnum.trans_le (Nat.pow_le_pow_right (by omega) (by omega))
        rw [if_neg (by simp [hs]), ih, hzero, switch_zero, switch_zero]
        rfl

namespace UncanonicalizedIter

variable {it : UncanonicalizedIter}

/-- The enumeration stops at the power of two, after every combination has come up. -/
theorem next_eq (hle : it.hyphenCombinationNum ≤ 2 ^ it.numHyphenUnderscore)
    (hnum : it.hyphenCombinationNum + 1 < 2 ^ 16) :
    it.next = .ok (if it.hyphenCombinationNum = 2 ^ it.numHyphenUnderscore then none
      else some (switch isSep flipSep it.hyphenCombinationNum it.input,
        { it with hyphenCombinationNum := it.hyphenCombinationNum + 1 })) := by
  have hpow := Nat.two_pow_pos it.numHyphenUnderscore
  have hstop : (0 < it.hyphenCombinationNum ∧
      it.numHyphenUnderscore ≤ trailingZeros 16 it.hyphenCombinationNum) ↔
      it.hyphenCombinationNum = 2 ^ it.numHyphenUnderscore := by
    rw [le_trailingZeros_iff]
    constructor
    · rintro ⟨hpos, -, hdvd⟩
      exact le_antisymm hle (Nat.le_of_dvd hpos hdvd)
    · intro heq
      refine ⟨by omega, ?_, heq ▸ dvd_rfl⟩
      by_contra hlt
      have hbig : 2 ^ 16 ≤ 2 ^ it.numHyphenUnderscore :=
        Nat.pow_le_pow_right (by omega) (by omega)
      omega
  unfold next
  simp only [hstop]
  split
  · rfl
  · have hrespell := respell_eq (by omega : it.hyphenCombinationNum < 2 ^ 16) 0 it.input
    rw [Nat.pow_zero, Nat.div_one] at hrespell
    rw [hrespell]
    rfl

/-- The spellings enumerated are those of consecutive numbers, up to the power of two. -/
theorem take_eq (it : UncanonicalizedIter) (k : ℕ)
    (hle : it.hyphenCombinationNum ≤ 2 ^ it.numHyphenUnderscore)
    (hnum : it.hyphenCombinationNum + k < 2 ^ 16) :
    it.take k = .ok
      ((List.range' it.hyphenCombinationNum
        (min k (2 ^ it.numHyphenUnderscore - it.hyphenCombinationNum))).map
          fun n => switch isSep flipSep n it.input) := by
  induction k generalizing it with
  | zero => simp [take]
  | succ k ih =>
    rw [take, next_eq hle (by omega)]
    split
    · rename_i heq
      rw [heq, Nat.sub_self, Nat.min_zero]
      rfl
    · rename_i hne
      have hrest := ih { it with hyphenCombinationNum := it.hyphenCombinationNum + 1 }
        (by dsimp only; omega) (by dsimp only; omega)
      have hmin : min (k + 1) (2 ^ it.numHyphenUnderscore - it.hyphenCombinationNum) =
          min k (2 ^ it.numHyphenUnderscore - (it.hyphenCombinationNum + 1)) + 1 := by
        omega
      dsimp only at hrest
      rw [hmin, List.range'_succ, List.map_cons]
      change (take k _).map _ = _
      rw [hrest]
      rfl

end UncanonicalizedIter

/-- The same text, up to hyphens and underscores. -/
def Respelling (name other : Text) : Prop := List.Forall₂ (Alike isSep flipSep) name other

section Enumeration

variable {raw path : Text}

/-- The spellings that are enumerated when the enumeration is cut off. The counter and the shifts
do not overflow up to there. -/
theorem take_new (raw : Text) : (UncanonicalizedIter.new raw).take 1024 =
    .ok ((List.range (min 1024 (2 ^ (raw.countP isSep % 2 ^ 32)))).map
      fun n => switch isSep flipSep n raw) := by
  rw [UncanonicalizedIter.take_eq (.new raw) 1024 (Nat.zero_le _)
    (by change 0 + 1024 < 2 ^ 16; omega), List.range_eq_range']
  rfl

/-- A path is among the spellings that are tried. -/
theorem mem_take_new_iff :
    (∃ paths, (UncanonicalizedIter.new raw).take 1024 = .ok paths ∧ path ∈ paths) ↔
      ∃ n, n < 1024 ∧ n < 2 ^ (raw.countP isSep % 2 ^ 32) ∧
        switch isSep flipSep n raw = path := by
  rw [take_new]
  constructor
  · rintro ⟨paths, heq, hpath⟩
    cases heq
    obtain ⟨n, hn, rfl⟩ := List.mem_map.mp hpath
    rw [List.mem_range, lt_min_iff] at hn
    exact ⟨n, hn.1, hn.2, rfl⟩
  · rintro ⟨n, hlt, hpow, rfl⟩
    refine ⟨_, rfl, List.mem_map.mpr ⟨n, ?_, rfl⟩⟩
    rw [List.mem_range, lt_min_iff]
    exact ⟨hlt, hpow⟩

/-- The first of the spellings that a text with `k` hyphens and underscores has: as many as there
are, the text itself in front, and all of them if there are not too many. -/
structure Enumerates (raw : Text) (paths : List Text) : Prop where
  length_eq : paths.length = min (2 ^ raw.countP isSep) 1024
  nodup : paths.Nodup
  head : paths.head? = some raw
  respelling : ∀ path ∈ paths, Respelling raw path
  complete : raw.countP isSep ≤ 10 → ∀ path, Respelling raw path → path ∈ paths

theorem length_take_new {paths : List Text}
    (h : (UncanonicalizedIter.new raw).take 1024 = .ok paths) :
    paths.length = min 1024 (2 ^ (raw.countP isSep % 2 ^ 32)) := by
  rw [take_new, Except.ok.injEq] at h
  rw [← h, List.length_map, List.length_range]

/-- With fewer than ten hyphens and underscores left of the count, the enumeration stops early. -/
theorem min_two_pow_eq_iff (k : ℕ) :
    min 1024 (2 ^ (k % 2 ^ 32)) = min (2 ^ k) 1024 ↔ k < 2 ^ 32 ∨ 10 ≤ k % 2 ^ 32 := by
  have hten : ∀ j, 1024 ≤ 2 ^ j ↔ 10 ≤ j := fun j =>
    (Nat.pow_le_pow_iff_right (a := 2) (by omega) : 2 ^ 10 ≤ 2 ^ j ↔ 10 ≤ j)
  by_cases hsmall : k < 2 ^ 32
  · rw [Nat.mod_eq_of_lt hsmall, min_comm]
    exact iff_of_true rfl (.inl hsmall)
  · have hk : 1024 ≤ 2 ^ k := (hten k).mpr (by omega)
    rw [min_eq_right hk, min_eq_left_iff, hten]
    exact ⟨.inr, fun h => h.resolve_left hsmall⟩

/-- The enumeration is what it should be unless the count of the hyphens and underscores is cut
off to a number below ten. -/
theorem enumerates_iff (raw : Text) :
    (∃ paths, (UncanonicalizedIter.new raw).take 1024 = .ok paths ∧ Enumerates raw paths) ↔
      raw.countP isSep < 2 ^ 32 ∨ 10 ≤ raw.countP isSep % 2 ^ 32 := by
  constructor
  · rintro ⟨paths, hpaths, henumerates⟩
    -- the number of paths says how far the count was cut off
    rw [← min_two_pow_eq_iff, ← length_take_new hpaths]
    exact henumerates.length_eq
  · intro hcount
    have htake := take_new raw
    have hlt : ∀ n, n < min 1024 (2 ^ (raw.countP isSep % 2 ^ 32)) →
        n < 2 ^ raw.countP isSep := by
      intro n hn
      rw [(min_two_pow_eq_iff _).mpr hcount, lt_min_iff] at hn
      exact hn.1
    refine ⟨_, htake, ?_⟩
    constructor
    · rw [length_take_new htake]
      exact (min_two_pow_eq_iff _).mpr hcount
    · apply List.Nodup.map_on _ List.nodup_range
      intro n hn m hm heq
      rw [List.mem_range] at hn hm
      exact eq_of_switch_eq (fun c hc => flipSep_ne hc) (hlt n hn) (hlt m hm) heq
    · have hpos : 0 < min 1024 (2 ^ (raw.countP isSep % 2 ^ 32)) :=
        lt_min (by omega) (Nat.two_pow_pos _)
      rw [List.head?_map, List.head?_range, if_neg (by omega)]
      simp
    · intro path hpath
      obtain ⟨n, -, rfl⟩ := List.mem_map.mp hpath
      exact alike_switch n raw
    · intro hten path hpath
      obtain ⟨n, hn, rfl⟩ := exists_lt_switch hpath
      -- with at most ten separators all ways are among the first 1024
      have hpow : 2 ^ raw.countP isSep ≤ 2 ^ 10 := Nat.pow_le_pow_right (by omega) hten
      refine List.mem_map.mpr ⟨n, List.mem_range.mpr ?_, rfl⟩
      rw [(min_two_pow_eq_iff _).mpr hcount, lt_min_iff]
      omega

/-- Of a text of `2 ^ 32` hyphens only the text itself is enumerated. -/
theorem hyphens_cut_off : ¬ ∃ paths,
    (UncanonicalizedIter.new (List.replicate (2 ^ 32) '-')).take 1024 = .ok paths ∧
      Enumerates (List.replicate (2 ^ 32) '-') paths := by
  have hcount : (List.replicate (2 ^ 32) '-').countP isSep = 2 ^ 32 := by
    rw [List.countP_replicate, if_pos (by decide)]
  rintro ⟨paths, hpaths, henumerates⟩
  have hlength := (length_take_new hpaths).symm.trans henumerates.length_eq
  rw [min_two_pow_eq_iff, hcount, Nat.mod_self] at hlength
  omega

end Enumeration

/-! ### Which crates are found -/

def Ascii (t : Text) : Prop := ∀ c ∈ t, c.toNat < 128

/-- The paths can be computed, and if the name is short of separators, then the path of each
spelling of it is among them. -/
structure Covers (toLowercase : Char → Text) (name : Text) : Prop where
  computed : ∃ paths, candidates toLowercase name = .ok paths
  respelled : Ascii name → name.countP isSep ≤ 10 → ∀ other, Respelling name other →
    ∃ path, rawPath (other.flatMap toLowercase) = .ok path ∧
      ∃ paths, candidates toLowercase name = .ok paths ∧ path ∈ paths

/-- The characters of a name that its directories repeat. -/
def repeated (name : Text) : Text :=
  match name.length with
  | 1 | 2 => []
  | 3 => name.take 1
  | _ => name.take 4

/-- The directories of the name can be cut out of it, and together with what they repeat of the
name there are not too many separators. -/
structure Coverable (toLowercase : Char → Text) (name : Text) : Prop where
  three : byteLen (name.flatMap toLowercase) = 3 →
    IsCharBoundary (name.flatMap toLowercase) 1
  other : byteLen (name.flatMap toLowercase) ∉ [1, 2, 3] →
    IsCharBoundary (name.flatMap toLowercase) 2 ∧ IsCharBoundary (name.flatMap toLowercase) 4
  separators : Ascii name → name.countP isSep ≤ 10 →
    name.countP isSep + (repeated name).countP isSep ≤ 10

section Path

theorem exists_cut_iff (t : Text) {start stop : ℕ} (hle : start ≤ stop) :
    (∃ part, cut t start stop = .ok part) ↔ IsCharBoundary t start ∧ IsCharBoundary t stop := by
  rw [← exists_slice_iff hle]
  unfold cut
  cases slice t start stop <;> simp

theorem isCharBoundary_zero (t : Text) : IsCharBoundary t 0 := ⟨[], t, rfl, rfl⟩

/-- When the path can be computed. -/
theorem exists_rawPath_iff {t : Text} : (∃ path, rawPath t = .ok path) ↔
    (byteLen t = 3 → IsCharBoundary t 1) ∧
      (byteLen t ∉ [1, 2, 3] → IsCharBoundary t 2 ∧ IsCharBoundary t 4) := by
  have hone := exists_cut_iff t (by omega : 0 ≤ 1)
  have htwo := exists_cut_iff t (by omega : 0 ≤ 2)
  have hfour := exists_cut_iff t (by omega : 2 ≤ 4)
  unfold rawPath
  split
  · rename_i hlen
    simp [hlen]
  · rename_i hlen
    simp [hlen]
  · rename_i hlen
    constructor
    · rintro ⟨path, hpath⟩
      obtain ⟨first, hfirst, -⟩ := bind_eq_ok.mp hpath
      exact ⟨fun _ => (hone.mp ⟨first, hfirst⟩).2, fun hnot => absurd hlen (by simp_all)⟩
    · rintro ⟨hthree, -⟩
      obtain ⟨first, hfirst⟩ := hone.mpr ⟨isCharBoundary_zero t, hthree hlen⟩
      exact ⟨_, bind_eq_ok.mpr ⟨first, hfirst, rfl⟩⟩
  · rename_i h1 h2 h3
    have hbig : byteLen t ∉ [1, 2, 3] := by
      simp only [List.mem_cons, List.not_mem_nil, or_false, not_or]
      exact ⟨h1, h2, h3⟩
    constructor
    · rintro ⟨path, hpath⟩
      obtain ⟨first, hfirst, hpath⟩ := bind_eq_ok.mp hpath
      obtain ⟨second, hsecond, -⟩ := bind_eq_ok.mp hpath
      exact ⟨fun hlen => absurd hlen h3, fun _ => hfour.mp ⟨second, hsecond⟩⟩
    · rintro ⟨-, hother⟩
      obtain ⟨h₂, h₄⟩ := hother hbig
      obtain ⟨first, hfirst⟩ := htwo.mpr ⟨isCharBoundary_zero t, h₂⟩
      obtain ⟨second, hsecond⟩ := hfour.mpr ⟨h₂, h₄⟩
      exact ⟨_, bind_eq_ok.mpr ⟨first, hfirst, bind_eq_ok.mpr ⟨second, hsecond, rfl⟩⟩⟩

/-- The enumeration does not panic. -/
theorem exists_candidates_iff {toLowercase : Char → Text} {name : Text} :
    (∃ paths, candidates toLowercase name = .ok paths) ↔
      ∃ path, rawPath (name.flatMap toLowercase) = .ok path := by
  constructor
  · rintro ⟨paths, hpaths⟩
    obtain ⟨path, hpath, -⟩ := bind_eq_ok.mp hpaths
    exact ⟨path, hpath⟩
  · rintro ⟨path, hpath⟩
    have hpow := Nat.two_pow_pos (path.countP isSep % 2 ^ 32)
    obtain ⟨paths, hpaths, -⟩ := mem_take_new_iff.mpr ⟨0, by omega, hpow, switch_zero⟩
    exact ⟨paths, bind_eq_ok.mpr ⟨path, hpath, hpaths⟩⟩

end Path

/-! ### Names of one byte a character -/

section AsciiNames

variable {t t' : Text}

/-- The path of a name whose characters take one byte each. -/
def asciiPath (t : Text) : Text :=
  match t.length with
  | 1 => '1' :: '/' :: t
  | 2 => '2' :: '/' :: t
  | 3 => '3' :: '/' :: t.take 1 ++ '/' :: t
  | _ => t.take 2 ++ '/' :: (t.drop 2).take 2 ++ '/' :: t

theorem cut_of_ascii (h : Ascii t) {start stop : ℕ} (hle : start ≤ stop)
    (hstop : stop ≤ t.length) : cut t start stop = .ok ((t.drop start).take (stop - start)) := by
  have hascii : ∀ {front : Text}, (∀ c ∈ front, c ∈ t) → byteLen front = front.length :=
    fun hsub => byteLen_of_ascii fun c hc => h c (hsub c hc)
  have hsplit : t = t.take start ++ (t.drop start).take (stop - start) ++ t.drop stop := by
    conv_lhs => rw [← List.take_append_drop start t,
      ← List.take_append_drop (stop - start) (t.drop start), List.drop_drop,
      Nat.add_sub_cancel' hle, ← List.append_assoc]
  have hfront : byteLen (t.take start) = start := by
    rw [hascii fun c => List.mem_of_mem_take, List.length_take]
    omega
  have hmid : byteLen ((t.drop start).take (stop - start)) = stop - start := by
    rw [hascii fun c hc => List.mem_of_mem_drop (List.mem_of_mem_take hc), List.length_take,
      List.length_drop]
    omega
  have hslice := slice_append (t.take start) ((t.drop start).take (stop - start)) (t.drop stop)
  rw [← hsplit, hfront, hmid, Nat.add_sub_cancel' hle] at hslice
  rw [cut, hslice]

theorem rawPath_of_ascii (h : Ascii t) (hne : t ≠ []) : rawPath t = .ok (asciiPath t) := by
  have hlen := byteLen_of_ascii h
  have hpos := List.length_pos_iff.mpr hne
  unfold rawPath asciiPath
  rw [hlen]
  split
  · rfl
  · rfl
  · rename_i hthree
    have hfirst : cut t 0 1 = .ok (t.take 1) := cut_of_ascii h (by omega) (by omega)
    rw [hfirst]
    rfl
  · rename_i h1 h2 h3
    have hbig : 4 ≤ t.length := by
      have hne1 : t.length ≠ 1 := h1
      have hne2 : t.length ≠ 2 := h2
      have hne3 : t.length ≠ 3 := h3
      omega
    have hfirst : cut t 0 2 = .ok (t.take 2) := cut_of_ascii h (by omega) (by omega)
    have hsecond : cut t 2 4 = .ok ((t.drop 2).take 2) := cut_of_ascii h (by omega) hbig
    rw [hfirst, hsecond]
    rfl

theorem countP_asciiPath (t : Text) :
    (asciiPath t).countP isSep = t.countP isSep + (repeated t).countP isSep := by
  have hslash : isSep '/' = false := rfl
  unfold asciiPath repeated
  split
  · simp [isSep]
  · simp [isSep]
  · simp [isSep]
    omega
  · have hfour : t.take 4 = t.take 2 ++ (t.drop 2).take 2 := by
      rw [← List.take_add]
    rw [hfour]
    simp [List.countP_append, hslash]
    omega

/-- The paths of spellings are spellings of the path. -/
theorem alike_asciiPath (h : Respelling t t') : Respelling (asciiPath t) (asciiPath t') := by
  have happend : ∀ {a a' b b' : Text}, Respelling a a' → Respelling b b' →
      Respelling (a ++ b) (a' ++ b') := fun ha hb => List.rel_append ha hb
  have hcons : ∀ {c : Char} {b b' : Text}, Respelling b b' → Respelling (c :: b) (c :: b') :=
    fun hb => .cons (.inl rfl) hb
  unfold asciiPath
  rw [← List.Forall₂.length_eq h]
  split
  · exact hcons (hcons h)
  · exact hcons (hcons h)
  · exact happend (hcons (hcons (List.forall₂_take 1 h))) (hcons h)
  · exact happend (happend (List.forall₂_take 2 h)
      (hcons (List.forall₂_take 2 (List.forall₂_drop 2 h)))) (hcons h)

theorem mem_filter_asciiPath (hsep : t.countP isSep ≠ 0) :
    ((asciiPath t).filter isSep).getLast? = (t.filter isSep).getLast? := by
  have hne : t.filter isSep ≠ [] := by
    intro hnil
    rw [List.countP_eq_length_filter, hnil] at hsep
    exact hsep rfl
  obtain ⟨front, hfront⟩ : ∃ front, asciiPath t = front ++ t := by
    unfold asciiPath
    split
    · exact ⟨['1', '/'], rfl⟩
    · exact ⟨['2', '/'], rfl⟩
    · exact ⟨'3' :: '/' :: t.take 1 ++ ['/'], by simp⟩
    · exact ⟨t.take 2 ++ '/' :: (t.drop 2).take 2 ++ ['/'], by simp⟩
  rw [hfront, List.filter_append, List.getLast?_append_of_ne_nil _ hne]

end AsciiNames

/-! ### Lower case -/

/-- Lower case keeps one byte to one byte, and has to do with no hyphen or underscore. -/
theorem toLower_of_ascii {c : Char} (hc : c.toNat < 128) :
    c.toLower.toNat < 128 ∧ isSep c.toLower = isSep c ∧ (isSep c = true → c.toLower = c) := by
  have hall : ∀ n : Fin 128, (Char.ofNat n).toLower.toNat < 128 ∧
      isSep (Char.ofNat n).toLower = isSep (Char.ofNat n) ∧
      (isSep (Char.ofNat n) = true → (Char.ofNat n).toLower = Char.ofNat n) := by
    decide
  have h := hall ⟨c.toNat, hc⟩
  rwa [Char.ofNat_toNat] at h

theorem flipSep_of_sep {c : Char} (hc : isSep c = true) :
    (flipSep c).toNat < 128 ∧ (flipSep c).toLower = flipSep c := by
  rcases isSep_iff.mp hc with rfl | rfl <;> decide

theorem flipSep_of_not_sep {c : Char} (hc : isSep c = false) : flipSep c = c := by
  simp only [isSep, Bool.or_eq_false_iff, decide_eq_false_iff_not] at hc
  rw [flipSep, if_neg hc.1, if_neg hc.2]

section LowerCase

variable {toLowercase : Char → Text} {name other : Text}

theorem Ascii.map_toLower (h : Ascii name) : Ascii (name.map Char.toLower) := by
  intro c hc
  obtain ⟨d, hd, rfl⟩ := List.mem_map.mp hc
  exact (toLower_of_ascii (h d hd)).1

theorem countP_map_toLower (h : Ascii name) :
    (name.map Char.toLower).countP isSep = name.countP isSep := by
  rw [List.countP_map]
  apply List.countP_congr
  intro c hc
  rw [Function.comp_apply, (toLower_of_ascii (h c hc)).2.1]

theorem repeated_map (f : Char → Char) (name : Text) :
    repeated (name.map f) = (repeated name).map f := by
  unfold repeated
  rw [List.length_map]
  split <;> simp [List.map_take]

theorem Ascii.repeated (h : Ascii name) : Ascii (repeated name) := by
  intro c hc
  apply h c
  unfold Registry.repeated at hc
  split at hc
  · cases hc
  · cases hc
  · exact List.mem_of_mem_take hc
  · exact List.mem_of_mem_take hc

/-- A spelling of a name of one byte a character is another such name. -/
theorem Respelling.ascii (h : Respelling name other) (hname : Ascii name) : Ascii other := by
  induction h with
  | nil => exact hname
  | @cons c d name other hcd _ ih =>
    intro e he
    rcases List.mem_cons.mp he with rfl | he
    · rcases hcd with rfl | ⟨hsep, rfl⟩
      · exact hname _ List.mem_cons_self
      · exact (flipSep_of_sep hsep).1
    · exact ih (fun c hc => hname c (List.mem_cons_of_mem _ hc)) e he

theorem Respelling.map_toLower (h : Respelling name other) (hname : Ascii name) :
    Respelling (name.map Char.toLower) (other.map Char.toLower) := by
  induction h with
  | nil => exact .nil
  | @cons c d name other hcd _ ih =>
    refine .cons ?_ (ih fun c hc => hname c (List.mem_cons_of_mem _ hc))
    rcases hcd with rfl | ⟨hsep, rfl⟩
    · exact .inl rfl
    · have hlower := (toLower_of_ascii (hname c List.mem_cons_self)).2.2 hsep
      rw [hlower, (flipSep_of_sep hsep).2]
      exact .inr ⟨hsep, rfl⟩

/-- The spelling with all hyphens and underscores exchanged. -/
theorem respelling_map_flipSep (name : Text) : Respelling name (name.map flipSep) := by
  induction name with
  | nil => exact .nil
  | cons c name ih =>
    refine .cons ?_ ih
    cases hc : isSep c with
    | true => exact .inr ⟨hc, rfl⟩
    | false => exact .inl (flipSep_of_not_sep hc).symm

/-- It ends in another hyphen or underscore. -/
theorem getLast?_filter_map_flipSep (hsep : name.countP isSep ≠ 0) :
    ((name.map flipSep).filter isSep).getLast? ≠ (name.filter isSep).getLast? := by
  have hne : name.filter isSep ≠ [] := by
    intro hnil
    rw [List.countP_eq_length_filter, hnil] at hsep
    exact hsep rfl
  have hfilter : (name.map flipSep).filter isSep = (name.filter isSep).map flipSep := by
    rw [List.filter_map]
    congr 1
    apply List.filter_congr
    intro c _
    exact isSep_flipSep c
  rw [hfilter, List.getLast?_map, List.getLast?_eq_some_getLast hne, Option.map_some]
  intro heq
  have hlast := (List.mem_filter.mp (List.getLast_mem hne)).2
  exact flipSep_ne hlast (Option.some.inj heq)

variable (hlower : ∀ c : Char, c.toNat < 128 → toLowercase c = [c.toLower])

include hlower in
theorem flatMap_of_ascii (h : Ascii name) :
    name.flatMap toLowercase = name.map Char.toLower := by
  induction name with
  | nil => rfl
  | cons c name ih =>
    rw [List.flatMap_cons, hlower c (h c List.mem_cons_self),
      ih fun d hd => h d (List.mem_cons_of_mem _ hd)]
    rfl

include hlower in
/-- The path of a name of one byte a character. -/
theorem rawPath_flatMap (h : Ascii name) (hne : name ≠ []) :
    rawPath (name.flatMap toLowercase) = .ok (asciiPath (name.map Char.toLower)) := by
  rw [flatMap_of_ascii hlower h]
  apply rawPath_of_ascii h.map_toLower
  rwa [ne_eq, List.map_eq_nil_iff]

theorem countP_asciiPath_toLower (h : Ascii name) :
    (asciiPath (name.map Char.toLower)).countP isSep =
      name.countP isSep + (Registry.repeated name).countP isSep := by
  rw [countP_asciiPath, countP_map_toLower h, repeated_map, countP_map_toLower h.repeated]

end LowerCase

/-! ### The condition -/

section Condition

variable {toLowercase : Char → Text} {name : Text}

theorem countP_repeated_le (name : Text) : (repeated name).countP isSep ≤ 4 := by
  apply List.countP_le_length.trans
  unfold repeated
  split
  · simp
  · simp
  · rw [List.length_take]
    omega
  · rw [List.length_take]
    omega

theorem map_toLower_map_flipSep (h : Ascii name) :
    (name.map flipSep).map Char.toLower = (name.map Char.toLower).map flipSep := by
  rw [List.map_map, List.map_map]
  apply List.map_congr_left
  intro c hc
  obtain ⟨-, hsep, hsame⟩ := toLower_of_ascii (h c hc)
  rw [Function.comp_apply, Function.comp_apply]
  cases hmark : isSep c with
  | true => rw [hsame hmark, (flipSep_of_sep hmark).2]
  | false => rw [flipSep_of_not_sep hmark, flipSep_of_not_sep (hsep.trans hmark)]

/-- All spellings are tried if no more than ten separators are in the path. With more of them, the
last is left as it is. -/
theorem respelled_iff (hlower : ∀ c : Char, c.toNat < 128 → toLowercase c = [c.toLower])
    (h : Ascii name) (hne : name ≠ []) (hten : name.countP isSep ≤ 10) :
    (∀ other, Respelling name other → ∃ path, rawPath (other.flatMap toLowercase) = .ok path ∧
        ∃ paths, candidates toLowercase name = .ok paths ∧ path ∈ paths) ↔
      name.countP isSep + (repeated name).countP isSep ≤ 10 := by
  have hraw := rawPath_flatMap hlower h hne
  have hcount := countP_asciiPath_toLower h
  have hcandidates : candidates toLowercase name =
      (UncanonicalizedIter.new (asciiPath (name.map Char.toLower))).take 1024 := by
    rw [candidates, hraw]
    rfl
  have hother : ∀ {other}, Respelling name other → rawPath (other.flatMap toLowercase) =
      .ok (asciiPath (other.map Char.toLower)) := by
    intro other hspelling
    apply rawPath_flatMap hlower (hspelling.ascii h)
    intro hnil
    rw [hnil] at hspelling
    exact hne (List.forall₂_nil_right_iff.mp hspelling)
  rw [hcandidates]
  constructor
  · intro hall
    by_contra hmany
    -- the last separator of the path belongs to the name, and its number is ten or more
    have hrepeated := countP_repeated_le name
    have hspelling := respelling_map_flipSep name
    obtain ⟨path, hpath, hmem⟩ := hall _ hspelling
    rw [hother hspelling, map_toLower_map_flipSep h, Except.ok.injEq] at hpath
    subst hpath
    obtain ⟨n, hlt, -, hswitch⟩ := mem_take_new_iff.mp hmem
    have hsep : (name.map Char.toLower).countP isSep ≠ 0 := by
      rw [countP_map_toLower h]
      omega
    have hsep' : ((name.map Char.toLower).map flipSep).countP isSep ≠ 0 := by
      rw [List.countP_map]
      simpa only [Function.comp_def, isSep_flipSep] using hsep
    have hdigits : 2 * n < 2 ^ (asciiPath (name.map Char.toLower)).countP isSep := by
      have hpow : 2 ^ 11 ≤ 2 ^ (asciiPath (name.map Char.toLower)).countP isSep :=
        Nat.pow_le_pow_right (by omega) (by omega)
      omega
    have hlast := getLast?_marked_switch isSep_flipSep hdigits
    rw [hswitch, mem_filter_asciiPath hsep, mem_filter_asciiPath hsep'] at hlast
    exact getLast?_filter_map_flipSep hsep hlast
  · intro hfew other hspelling
    refine ⟨_, hother hspelling, mem_take_new_iff.mpr ?_⟩
    obtain ⟨n, hn, hswitch⟩ := exists_lt_switch (alike_asciiPath (hspelling.map_toLower h))
    have hpow : 2 ^ (asciiPath (name.map Char.toLower)).countP isSep ≤ 2 ^ 10 :=
      Nat.pow_le_pow_right (by omega) (by omega)
    rw [Nat.mod_eq_of_lt (by omega)]
    exact ⟨n, by omega, hn, hswitch⟩

/-- A crate is found under all of its spellings exactly when the directories can be cut out of its
name, and at most ten separators are in the path, those of the directories included. -/
theorem covers_iff (hlower : ∀ c : Char, c.toNat < 128 → toLowercase c = [c.toLower])
    (hne : name ≠ []) : Covers toLowercase name ↔ Coverable toLowercase name := by
  constructor
  · rintro ⟨hcomputed, hrespelled⟩
    obtain ⟨hthree, hother⟩ := exists_rawPath_iff.mp (exists_candidates_iff.mp hcomputed)
    refine ⟨hthree, hother, ?_⟩
    intro h hten
    exact (respelled_iff hlower h hne hten).mp (hrespelled h hten)
  · rintro ⟨hthree, hother, hseparators⟩
    refine ⟨exists_candidates_iff.mpr (exists_rawPath_iff.mpr ⟨hthree, hother⟩), ?_⟩
    intro h hten
    exact (respelled_iff hlower h hne hten).mpr (hseparators h hten)

theorem firstHit_of_mem {E S : Type} {load : Text → Option (Except E (List S))}
    {paths : List Text} {path : Text} (hpath : path ∈ paths) (hload : load path ≠ none) :
    ∃ path' ∈ paths, load path' = some (firstHit load paths) := by
  induction paths with
  | nil => cases hpath
  | cons head paths ih =>
    rw [firstHit]
    cases hhead : load head with
    | some ret => exact ⟨head, List.mem_cons_self, hhead⟩
    | none =>
      have hrest : path ∈ paths := by
        rcases List.mem_cons.mp hpath with rfl | hrest
        · exact absurd hhead hload
        · exact hrest
      obtain ⟨path', hpath', hret⟩ := ih hrest
      exact ⟨path', List.mem_cons_of_mem _ hpath', hret⟩

/-- If the index has a file for some spelling of the name, then the lookup reads a file. -/
theorem loadSummaries_found {E S : Type} {load : Text → Option (Except E (List S))}
    (hcovers : Covers toLowercase name) (h : Ascii name) (hten : name.countP isSep ≤ 10)
    {other path : Text} (hspelling : Respelling name other)
    (hpath : rawPath (other.flatMap toLowercase) = .ok path) (hload : load path ≠ none) :
    ∃ path' ret, load path' = some ret ∧ loadSummaries toLowercase load name = .ok ret := by
  obtain ⟨path', hpath', paths, hpaths, hmem⟩ := hcovers.respelled h hten other hspelling
  rw [hpath, Except.ok.injEq] at hpath'
  subst hpath'
  obtain ⟨hit, -, hret⟩ := firstHit_of_mem hmem hload
  exact ⟨hit, _, hret, by rw [loadSummaries, hpaths]; rfl⟩

end Condition

/-- Lower case for texts without other letters than those of English. -/
def plainLowercase (c : Char) : Text := [c.toLower]

/-- A name with a capital and one separator is found under both spellings. -/
theorem serdeJson_covers : Covers plainLowercase "Serde_json".toList := by
  refine (covers_iff (fun _ _ => rfl) (by decide)).mpr ⟨?_, ?_, ?_⟩
  · exact fun hthree => absurd hthree (by decide)
  · exact fun _ => ⟨⟨"se".toList, "rde_json".toList, by decide, by decide⟩,
      ⟨"serd".toList, "e_json".toList, by decide, by decide⟩⟩
  · exact fun _ _ => by decide

/-- The name of one character of three bytes is cut within the character. -/
theorem not_covers_wide : ¬ Covers plainLowercase ['日'] := by
  rintro ⟨⟨paths, hpaths⟩, -⟩
  cases hpaths

end Cargo.Sources.Registry
