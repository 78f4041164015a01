/-!
# Platform configurations

The expressions that say on which platforms a dependency is used.

## Main definitions

* `Cfg`, `CfgExpr` — atoms and expressions
* `CfgExpr.matches` — whether an expression holds for the set configuration of a target
-/

set_option autoImplicit false

namespace Cargo.Util

/-- One item of a target's configuration. -/
inductive Cfg
  | name (s : String)
  | keyPair (key value : String)
  deriving DecidableEq, Repr

/-- A configuration expression. -/
inductive CfgExpr
  | not (e : CfgExpr)
  | all (es : List CfgExpr)
  | any (es : List CfgExpr)
  | value (c : Cfg)

namespace CfgExpr

mutual

/-- Equality of expressions is decidable. -/
def decEq : (a b : CfgExpr) → Decidable (a = b)
  | not a, not b =>
    match decEq a b with
    | isTrue h => isTrue (by rw [h])
    | isFalse h => isFalse (by simpa using h)
  | all as, all bs =>
    match decEqList as bs with
    | isTrue h => isTrue (by rw [h])
    | isFalse h => isFalse (by simpa using h)
  | any as, any bs =>
    match decEqList as bs with
    | isTrue h => isTrue (by rw [h])
    | isFalse h => isFalse (by simpa using h)
  | value a, value b =>
    if h : a = b then isTrue (by rw [h]) else isFalse (by simpa using h)
  | not _, all _ | not _, any _ | not _, value _ | all _, not _ | all _, any _ | all _, value _
  | any _, not _ | any _, all _ | any _, value _ | value _, not _ | value _, all _
  | value _, any _ => isFalse (by simp)

/-- Equality of lists of expressions is decidable. -/
def decEqList : (as bs : List CfgExpr) → Decidable (as = bs)
  | [], [] => isTrue rfl
  | [], _ :: _ | _ :: _, [] => isFalse (by simp)
  | a :: as, b :: bs =>
    match decEq a b, decEqList as bs with
    | isTrue h, isTrue h' => isTrue (by rw [h, h'])
    | isFalse h, _ => isFalse (by simp [h])
    | _, isFalse h' => isFalse (by simp [h'])

end

instance : DecidableEq CfgExpr := decEq

mutual

/-- Whether an expression holds for a target with the configuration `cfg`. -/
def «matches» (cfg : List Cfg) : CfgExpr → Bool
  | not e => !«matches» cfg e
  | all es => allMatch cfg es
  | any es => anyMatch cfg es
  | value c => decide (c ∈ cfg)

/-- Whether all of the expressions hold. -/
def allMatch (cfg : List Cfg) : List CfgExpr → Bool
  | [] => true
  | e :: es => «matches» cfg e && allMatch cfg es

/-- Whether one of the expressions holds. -/
def anyMatch (cfg : List Cfg) : List CfgExpr → Bool
  | [] => false
  | e :: es => «matches» cfg e || anyMatch cfg es

end

end CfgExpr

end Cargo.Util
