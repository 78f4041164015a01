import Cargo.Math.Iteration
import Cargo.Util.Config
import Mathlib.Algebra.Ring.Int.Defs

/-!
# Reading the configuration by keys

A value of the configuration is asked for by a key of several parts, which is put together to one
dotted text and taken apart again at its dots where the value is looked up. A value of no fixed
type is read as whatever is found; for a table, its keys are collected first, and each of its
values is asked for by the key of the table and one part more.

## Main definitions

* `ConfigKey`, `Config.getCv` — keys, and what is found for one
* `ConfigValue.look` — what a value has at a path of keys, leaving out where it is defined
* `Read`, `Config.deserializeAny`, `Config.deserializeMap` — values as they are read
-/

set_option autoImplicit false

namespace Cargo.Util

open Cargo.Math

/-! ### Keys -/

/-- A segment of a key. Segments are separated by dots in keys, and by underscores in the names
of environment variables. -/
inductive ConfigKeyPart
  /-- Case-insensitive part (checks uppercase in environment keys). -/
  | part (s : String)
  /-- Case-sensitive part (environment keys must match exactly). -/
  | casePart (s : String)
  deriving DecidableEq, Repr

/-- `key.split('.')` -/
def dotPieces (key : String) : List String := (key.toList.splitOn '.').map String.ofList

/-- `to_config` for one part. -/
def ConfigKeyPart.toConfig : ConfigKeyPart → String
  | part s | casePart s => s

/-- The key of a value. -/
abbrev ConfigKey := List ConfigKeyPart

/-- `ConfigKey::from_str` -/
def ConfigKey.fromStr (key : String) : ConfigKey := (dotPieces key).map .part

/-- `ConfigKey::join` -/
def ConfigKey.join (key : ConfigKey) (next : ConfigKeyPart) : ConfigKey := key ++ [next]

/-- `ConfigKey::to_config` -/
def ConfigKey.toConfig (key : ConfigKey) : String :=
  ".".intercalate (key.map ConfigKeyPart.toConfig)

/-! ### Values -/

/-- What a value is, apart from the values in it and the files that it is from. -/
inductive Content
  | integer (i : ℤ)
  | string (s : String)
  | boolean (b : Bool)
  | list (l : List String)
  | table
  deriving DecidableEq, Repr

namespace ConfigValue

def Node.content : Node → Content
  | .integer i _ => .integer i
  | .string s _ => .string s
  | .boolean b _ => .boolean b
  | .list l _ => .list (l.map Prod.fst)
  | .table _ => .table

/-- What there is at a path of keys. -/
def look (v : ConfigValue) (keys : List String) : Option Content :=
  (v.view keys).map Node.content

mutual

/-- How deep the tables are nested in a value. -/
def height : ConfigValue → ℕ
  | table entries _ => heightEntries entries + 1
  | _ => 0

def heightEntries : List (String × ConfigValue) → ℕ
  | [] => 0
  | (_, v) :: entries => max (height v) (heightEntries entries)

end

end ConfigValue

/-- A value as it is read. The entries of a table are in the order in which they were met. -/
inductive Read
  | integer (i : ℤ)
  | string (s : String)
  | boolean (b : Bool)
  | list (l : List String)
  | map (entries : List (String × Read))

/-- What a value is apart from the values in it. -/
def Read.content : Read → Content
  | integer i => .integer i
  | string s => .string s
  | boolean b => .boolean b
  | list l => .list l
  | map _ => .table

/-- What there is at a path of keys. -/
def Read.look : Read → List String → Option Content
  | x, [] => some x.content
  | map entries, key :: keys => (entries.lookup key).bind fun x => x.look keys
  | _, _ :: _ => none

/-! ### Errors -/

inductive ConfigError
  /-- "missing config key". -/
  | missing (key : String)
  /-- "expected table for configuration key, but found". -/
  | expectedTable (keySoFar found path : String)
  /-- "invalid configuration for key". -/
  | invalid (key expected found path : String)
  /-- The variable is not a list, or not of strings. -/
  | environment (message name : String)
  /-- "could not load config key". -/
  | context (key definition : String) (cause : ConfigError)
  /-- The values were nested deeper than the configuration. -/
  | depth
  deriving DecidableEq, Repr

/-! ### The configuration -/

/-- What the process knows of its configuration: the merged values of all files, and the
environment. -/
structure Config where
  values : List (String × ConfigValue)
  env : List (String × String)
  /-- `-Z advanced-env` -/
  advancedEnv : Bool
  /-- `str::to_uppercase` -/
  toUppercase : String → String
  /-- What the TOML parser makes of a key and the text of a list. -/
  tomlList : String → String → Except String (List String)

namespace Config

variable (c : Config)

/-- `to_env` for one part. -/
def partToEnv : ConfigKeyPart → String
  | .part s => c.toUppercase (String.ofList (s.toList.map fun ch => if ch = '-' then '_' else ch))
  | .casePart s => s

/-- `ConfigKey::to_env` -/
def toEnv (key : ConfigKey) : String := "CARGO_" ++ "_".intercalate (key.map c.partToEnv)

/-- The loop of `get_cv`; `past` are the parts of the key before. -/
def getPart (val : ConfigValue) (past : List String) :
    List String → Except ConfigError (Option ConfigValue)
  | [] => .ok (some val)
  | part :: parts =>
    match val with
    | .table map _ =>
      match map.lookup part with
      | some val => getPart val (past ++ [part]) parts
      | none => .ok none
    | val => .error (.expectedTable (".".intercalate past) val.desc val.definitionPath)

/-- `get_cv` -/
def getCv (key : String) : Except ConfigError (Option ConfigValue) :=
  match dotPieces key with
  | [] => .ok none
  | part :: parts =>
    match c.values.lookup part with
    | some val => getPart val [part] parts
    | none => .ok none

/-- `get_table` -/
def getTable (key : String) : Except ConfigError (Option (List (String × ConfigValue))) := do
  match ← c.getCv key with
  | some (.table entries _) => .ok (some entries)
  | some val => .error (.invalid key "table" val.desc val.definitionPath)
  | none => .ok none

/-- `get_list` -/
def getList (key : String) : Except ConfigError (Option (List (String × String))) := do
  match ← c.getCv key with
  | some (.list l _) => .ok (some l)
  | some val => .error (.invalid key "list" val.desc val.definitionPath)
  | none => .ok none

/-- Whether a text is that of a list. -/
def isListText (v : String) : Bool := v.toList.head? = some '[' && v.toList.getLast? = some ']'

/-- `ConfigSeqAccess::new`: the elements of a list, then those of the environment. -/
def seqAccess (key : ConfigKey) : Except ConfigError (List String) := do
  let l ← c.getList key.toConfig
  let own := (l.getD []).map Prod.fst
  if c.advancedEnv then
    match c.env.lookup (c.toEnv key) with
    | some v =>
      -- a list in the environment adds to the one of the files
      if isListText v then
        match c.tomlList ((key.getLast?.map c.partToEnv).getD "") v with
        | .ok more => .ok (own ++ more)
        | .error e => .error (.environment e (c.toEnv key))
      else .error (.environment "should have TOML list syntax" (c.toEnv key))
    | none => .ok own
  else .ok own

/-- The names of the variables that are about values below a key. -/
def envPattern (key : ConfigKey) : String := c.toEnv key ++ "_"

/-- `ConfigMapAccess::new_map`: the keys of a table, and those named in the environment. -/
def mapKeys (key : ConfigKey) : Except ConfigError (Finset String) := do
  let v ← c.getTable key.toConfig
  let own := ((v.getD []).map Prod.fst).toFinset
  if c.advancedEnv then
    let pattern := (c.envPattern key).toList
    let named := (c.env.map Prod.fst).filter fun name => pattern.isPrefixOf name.toList
    .ok (own ∪ (named.map fun name =>
      String.ofList ((name.toList.drop pattern.length).takeWhile (· ≠ '_'))).toFinset)
  else .ok own

/-- `visit_map`, for a map that takes any keys: each of the keys, with what is read for it. -/
def visitMap (ho : ConfigKey → SetOrder String) (read : ConfigKey → Except ConfigError Read)
    (key : ConfigKey) (keys : Finset String) : Except ConfigError (List (String × Read)) :=
  ((ho key).enum keys).mapM fun k => (read (key.join (.casePart k))).map fun x => (k, x)

/-- `str::parse::<i64>` -/
def parseI64 (v : String) : Option ℤ :=
  let digits (t : List Char) : Option ℕ :=
    if t ≠ [] ∧ t.all (fun ch => decide ('0' ≤ ch ∧ ch ≤ '9')) then
      some (t.foldl (fun n ch => 10 * n + (ch.toNat - '0'.toNat)) 0)
    else none
  let value : Option ℤ :=
    match v.toList with
    | '-' :: t => (digits t).map fun n => -(n : ℤ)
    | '+' :: t => (digits t).map fun n => (n : ℤ)
    | t => (digits t).map fun n => (n : ℤ)
  value.filter fun i => decide (-2 ^ 63 ≤ i ∧ i < 2 ^ 63)

/-- A value that the environment gives. -/
def visitEnv (key : ConfigKey) (v : String) : Except ConfigError Read :=
  if v = "true" ∨ v = "false" then .ok (.boolean (v = "true"))
  else
    match parseI64 v with
    | some i => .ok (.integer i)
    | none =>
      if c.advancedEnv ∧ isListText v then (c.seqAccess key).map .list
      else .ok (.string v)

/-- `deserialize_any`, for a type that takes any value. The first number bounds how deep values
are nested. -/
def deserializeAny (ho : ConfigKey → SetOrder String) : ℕ → ConfigKey → Except ConfigError Read
  | 0, _ => .error .depth
  | fuel + 1, key =>
    -- the environment goes first, whatever the files have
    match c.env.lookup (c.toEnv key) with
    | some v => c.visitEnv key v
    | none =>
      match c.getCv key.toConfig with
      | .error e => .error e
      | .ok none => .error (.missing key.toConfig)
      | .ok (some (.integer i _)) => .ok (.integer i)
      | .ok (some (.string s _)) => .ok (.string s)
      | .ok (some (.boolean b _)) => .ok (.boolean b)
      | .ok (some (.list _ _)) => (c.seqAccess key).map .list
      | .ok (some (.table _ path)) => do
        let keys ← c.mapKeys key
        ((visitMap ho (deserializeAny ho fuel) key keys).mapError
          (.context key.toConfig path)).map .map

/-- The bound that is always enough. -/
def fuel : ℕ := ConfigValue.heightEntries c.values + 1

/-- `deserialize_map`, for a map that takes any keys and values. -/
def deserializeMap (ho : ConfigKey → SetOrder String) (key : ConfigKey) :
    Except ConfigError (List (String × Read)) := do
  let keys ← c.mapKeys key
  visitMap ho (c.deserializeAny ho c.fuel) key keys

end Config

end Cargo.Util
