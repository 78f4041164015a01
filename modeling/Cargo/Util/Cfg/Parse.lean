import Cargo.Math.Slice
import Cargo.Util.Cfg

/-!
# Reading platform configurations

The text of an expression is cut into tokens by their byte positions, one at a time, as a
recursive-descent parser asks for them. The parser looks one token ahead; since the tokenizer
has no state besides what is left of the text, looking ahead is reading a token and keeping
the old state.

## Main definitions

* `CfgExpr.Token`, `CfgExpr.Tokenizer.next` — one token
* `CfgExpr.Parser.expr`, `CfgExpr.Parser.exprs` — an expression, and the loop over a list
* `CfgExpr.fromStr`, `CfgExpr.toStr` — reading and printing
-/

set_option autoImplicit false

namespace Cargo.Util

open Cargo.Math

namespace CfgExpr

/-- What the text is cut into. -/
inductive Token
  | leftParen
  | rightParen
  | ident (s : String)
  | comma
  | equals
  | string (s : String)
  deriving DecidableEq, Repr

/-- What a token is called in messages. -/
def Token.classify : Token → String
  | leftParen => "`(`"
  | rightParen => "`)`"
  | ident _ => "an identifier"
  | comma => "`,`"
  | equals => "`=`"
  | string _ => "a string"

/-- Why a text is no expression. -/
inductive ParseError
  | unterminatedString
  | unexpectedCharacter (ch : Char)
  | expectedStart
  | expectedToken (token found : Token)
  | exprEnded (token : Token)
  | expectedIdentifier (found : Option Token)
  | expectedString (found : Option Token)
  | secondExpr
  /-- A slice index was off a character boundary: the code would panic. -/
  | offBoundary
  /-- The recursion went deeper than the text is long. -/
  | depth
  deriving DecidableEq, Repr

/-- The text of an error. -/
def ParseError.message : ParseError → String
  | unterminatedString => "unterminated string in cfg"
  | unexpectedCharacter ch => "unexpected character in cfg `" ++ ch.toString ++
    "`, expected parens, a comma, an identifier, or a string"
  | expectedStart => "expected start of a cfg expression, found nothing"
  | expectedToken token found => "expected " ++ token.classify ++ ", found " ++ found.classify
  | exprEnded token => "expected " ++ token.classify ++ ", but cfg expr ended"
  | expectedIdentifier found =>
    "expected identifier, found " ++ (found.map Token.classify).getD "nothing"
  | expectedString found =>
    "expected a string, found " ++ (found.map Token.classify).getD "nothing"
  | secondExpr =>
    "can only have one cfg-expression, consider using all() or any() explicitly"
  | offBoundary => "byte index is not a char boundary"
  | depth => "out of stack"

/-- Can an identifier start with the character? -/
def isIdentStart (ch : Char) : Bool :=
  ch = '_' || ('a' ≤ ch && ch ≤ 'z') || ('A' ≤ ch && ch ≤ 'Z')

/-- Can an identifier go on with the character? -/
def isIdentRest (ch : Char) : Bool := isIdentStart ch || ('0' ≤ ch && ch ≤ '9')

/-- What is left of the text: its characters with their byte positions. -/
abbrev Rest := List (ℕ × Char)

/-- The outcome of reading a token; nothing at the end of the text. -/
abbrev Item := Option (Except ParseError Token)

namespace Tokenizer

/-- A token made of a slice of the text. -/
def ofSlice (token : String → Token) (part : Option (List Char)) : Except ParseError Token :=
  match part with
  | some cs => .ok (token (String.ofList cs))
  | none => .error .offBoundary

/-- The token that `ch` at the position `start` begins, unless `ch` is a space. -/
def token (orig : List Char) (start : ℕ) (ch : Char) (s : Rest) : Except ParseError Token × Rest :=
  match ch with
  | '(' => (.ok .leftParen, s)
  | ')' => (.ok .rightParen, s)
  | ',' => (.ok .comma, s)
  | '=' => (.ok .equals, s)
  | '"' =>
    -- skip to the closing quote, which is dropped
    match s.dropWhile (fun e => e.2 ≠ '"') with
    | (stop, _) :: rest => (ofSlice .string (slice orig (start + 1) stop), rest)
    | [] => (.error .unterminatedString, [])
  | ch =>
    if isIdentStart ch then
      -- the character after the identifier is only peeked at
      match s.dropWhile (fun e => isIdentRest e.2) with
      | (stop, after) :: rest => (ofSlice .ident (slice orig start stop), (stop, after) :: rest)
      | [] => (ofSlice .ident (sliceFrom orig start), [])
    else (.error (.unexpectedCharacter ch), s)

/-- Read the next token. Spaces are skipped. -/
def next (orig : List Char) : Rest → Item × Rest
  | [] => (none, [])
  | (start, ch) :: s =>
    if ch = ' ' then next orig s
    else
      let (item, rest) := token orig start ch s
      (some item, rest)

end Tokenizer

namespace Parser

/-- Eat `token` if it is the next one. -/
def try' (orig : List Char) (token : Token) (t : Rest) : Bool × Rest :=
  match Tokenizer.next orig t with
  | (some (.ok found), t') => if token = found then (true, t') else (false, t)
  | _ => (false, t)

/-- Eat `token`, which has to be the next one. -/
def eat (orig : List Char) (token : Token) (t : Rest) : Except ParseError Rest :=
  match Tokenizer.next orig t with
  | (some (.ok found), t') =>
    if token = found then .ok t' else .error (.expectedToken token found)
  | (some (.error e), _) => .error e
  | (none, _) => .error (.exprEnded token)

/-- A name, or a key with its value. -/
def cfg (orig : List Char) (t : Rest) : Except ParseError (Cfg × Rest) :=
  match Tokenizer.next orig t with
  | (some (.ok (.ident name)), t) =>
    match try' orig .equals t with
    | (true, t) =>
      match Tokenizer.next orig t with
      | (some (.ok (.string val)), t) => .ok (.keyPair name val, t)
      | (some (.ok found), _) => .error (.expectedString found)
      | (some (.error e), _) => .error e
      | (none, _) => .error (.expectedString none)
    | (false, t) => .ok (.name name, t)
  | (some (.ok found), _) => .error (.expectedIdentifier found)
  | (some (.error e), _) => .error e
  | (none, _) => .error (.expectedIdentifier none)

mutual

/-- An expression. The first argument bounds the depth of the recursion. -/
def expr (orig : List Char) : ℕ → Rest → Except ParseError (CfgExpr × Rest)
  | 0, _ => .error .depth
  | fuel + 1, t =>
    match Tokenizer.next orig t with
    | (some (.ok (.ident op)), t') =>
      if op = "all" ∨ op = "any" then do
        let t ← eat orig .leftParen t'
        let (es, t) ← exprs orig fuel t
        .ok (if op = "all" then .all es else .any es, t)
      else if op = "not" then do
        let t ← eat orig .leftParen t'
        let (e, t) ← expr orig fuel t
        let t ← eat orig .rightParen t
        .ok (.not e, t)
      else do
        let (c, t) ← cfg orig t
        .ok (.value c, t)
    -- anything else is left to `cfg`, which reports it
    | (some (.ok _), _) => do
      let (c, t) ← cfg orig t
      .ok (.value c, t)
    | (some (.error e), _) => .error e
    | (none, _) => .error .expectedStart

/-- The loop over the expressions of a list, up to and with its right parenthesis. -/
def exprs (orig : List Char) : ℕ → Rest → Except ParseError (List CfgExpr × Rest)
  | 0, _ => .error .depth
  | fuel + 1, t =>
    match try' orig .rightParen t with
    | (true, t) => .ok ([], t)
    | (false, t) => do
      let (e, t) ← expr orig fuel t
      match try' orig .comma t with
      | (true, t) =>
        let (es, t) ← exprs orig fuel t
        .ok (e :: es, t)
      | (false, t) =>
        let t ← eat orig .rightParen t
        .ok ([e], t)

end

/-- The bound on the depth that is always enough. -/
def fuel (t : Rest) : ℕ := 2 * t.length + 1

end Parser

/-- `CfgExpr::from_str` -/
def fromStr (s : String) : Except ParseError CfgExpr := do
  let orig := s.toList
  let t := charIndices 0 orig
  let (e, t) ← Parser.expr orig (Parser.fuel t) t
  match (Tokenizer.next orig t).1 with
  | some _ => .error .secondExpr
  | none => .ok e

end CfgExpr

/-- The text of a name or a key with its value. -/
def Cfg.toStr : Cfg → String
  | name s => s
  | keyPair k v => k ++ " = \"" ++ v ++ "\""

namespace CfgExpr

mutual

/-- The text of an expression. -/
def toStr : CfgExpr → String
  | not e => "not(" ++ toStr e ++ ")"
  | all es => "all(" ++ commaSep es ++ ")"
  | any es => "any(" ++ commaSep es ++ ")"
  | value c => c.toStr

/-- The texts of a list of expressions. -/
def commaSep : List CfgExpr → String
  | [] => ""
  | e :: es => toStr e ++ commaRest es

/-- The texts of the expressions after the first, each after a comma. -/
def commaRest : List CfgExpr → String
  | [] => ""
  | e :: es => ", " ++ toStr e ++ commaRest es

end

end CfgExpr

end Cargo.Util
