import Mathlib.Data.Nat.Basic

/-!
# Versions and package ids

A package is named by its name, its version and the source it comes from. The type of
sources is left open here: what the resolver knows about a source is whether two of them
are equal.

## Main definitions

* `Version`, `compatible` — semantic versions, and when two of them may not coexist
* `PackageId` — the name of a package
-/

set_option autoImplicit false

namespace Cargo.Core

/-- One identifier of a pre-release. -/
inductive Identifier
  | numeric (n : ℕ)
  | alphaNumeric (s : String)
  deriving DecidableEq, Repr

/-- A version. Build metadata takes no part in the comparison of versions. -/
structure Version where
  major : ℕ
  minor : ℕ
  patch : ℕ
  pre : List Identifier
  deriving DecidableEq, Repr

namespace Identifier

/-- Numeric identifiers come before alphanumeric ones. -/
def cmp : Identifier → Identifier → Ordering
  | numeric m, numeric n => compare m n
  | numeric _, alphaNumeric _ => .lt
  | alphaNumeric _, numeric _ => .gt
  | alphaNumeric s, alphaNumeric t => compare s t

/-- Lexicographic comparison of lists of identifiers. -/
def cmpList : List Identifier → List Identifier → Ordering
  | [], [] => .eq
  | [], _ :: _ => .lt
  | _ :: _, [] => .gt
  | a :: as, b :: bs => (cmp a b).then (cmpList as bs)

end Identifier

/-- The order of versions; a pre-release comes before the release. -/
def Version.cmp (a b : Version) : Ordering :=
  (compare a.major b.major).then <| (compare a.minor b.minor).then <|
    (compare a.patch b.patch).then <|
      match a.pre, b.pre with
      | [], [] => .eq
      | [], _ :: _ => .gt
      | _ :: _, [] => .lt
      | p, q => Identifier.cmpList p q

/-- Two versions are compatible if their left-most nonzero digits are the same. -/
def compatible (a b : Version) : Bool :=
  if a.major ≠ b.major then false
  else if a.major ≠ 0 then true
  else if a.minor ≠ b.minor then false
  else if a.minor ≠ 0 then true
  else decide (a.patch = b.patch)

/-- What a version becomes when only its left-most nonzero digit counts. -/
def Version.line (v : Version) : ℕ × ℕ × ℕ :=
  if v.major ≠ 0 then (v.major, 0, 0)
  else if v.minor ≠ 0 then (0, v.minor, 0)
  else (0, 0, v.patch)

/-- Compatibility is an equivalence: it compares the left-most nonzero digits. -/
theorem compatible_iff {a b : Version} : compatible a b = true ↔ a.line = b.line := by
  unfold compatible Version.line
  grind

theorem compatible_refl (a : Version) : compatible a a = true := compatible_iff.mpr rfl

theorem compatible_symm {a b : Version} (h : compatible a b = true) : compatible b a = true :=
  compatible_iff.mpr (compatible_iff.mp h).symm

/-- The name of a package. -/
structure PackageId (S : Type) where
  name : String
  version : Version
  sourceId : S
  deriving DecidableEq, Repr

/-- The part of a package id that activations are grouped by. -/
def PackageId.slot {S : Type} (id : PackageId S) : String × S := (id.name, id.sourceId)

end Cargo.Core
