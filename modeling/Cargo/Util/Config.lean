import Cargo.Math.Assoc
import Mathlib.Data.Int.Notation

/-!
# Configuration values

Configuration is read from several files. Each gives a tree of tables, whose values are merged
into those of the files before. A table is a hash map: its entries are listed in the order in
which iterating over it meets them, and no key is listed twice.

## Main definitions

* `ConfigValue`, `ConfigValue.merge`
* `ConfigValue.Wf` — no key is listed twice in a table
* `walkTree`, `mergeAll`, `loadValuesFrom`
* `ConfigValue.view` — what a value has at a path of keys
-/

set_option autoImplicit false

namespace Cargo.Util

open Cargo.Math

/-- A value of the configuration, with the file where it is defined. -/
inductive ConfigValue
  | integer (i : ℤ) (path : String)
  | string (s : String) (path : String)
  | boolean (b : Bool) (path : String)
  | list (l : List (String × String)) (path : String)
  | table (entries : List (String × ConfigValue)) (path : String)

namespace ConfigValue

/-- Why two values cannot be merged. -/
inductive MergeError
  | expected (expected found : String)
  /-- The values of a key in two files cannot be merged. -/
  | key (key file1 file2 : String) (cause : MergeError)

/-- What kind of value it is. -/
def desc : ConfigValue → String
  | table _ _ => "table"
  | list _ _ => "array"
  | string _ _ => "string"
  | boolean _ _ => "boolean"
  | integer _ _ => "integer"

/-- The file where the value is defined. -/
def definitionPath : ConfigValue → String
  | boolean _ path | integer _ path | string _ path | list _ path | table _ path => path

mutual

/-- Merge a value into one that takes precedence. Types may be switched, except for tables or
arrays. -/
def merge : ConfigValue → ConfigValue → Except MergeError ConfigValue
  | list old path, list new _ => .ok (list (old ++ new) path)
  | table old path, table new _ => (mergeEntries old new).map fun entries => table entries path
  | list old path, found => .error (.expected (list old path).desc found.desc)
  | table old path, found => .error (.expected (table old path).desc found.desc)
  | expected, list new path => .error (.expected expected.desc (list new path).desc)
  | expected, table new path => .error (.expected expected.desc (table new path).desc)
  | old, _ => .ok old

/-- Merge the entries of a table, one after the other. -/
def mergeEntries (old : List (String × ConfigValue)) :
    List (String × ConfigValue) → Except MergeError (List (String × ConfigValue))
  | [] => .ok old
  | (key, value) :: new =>
    match old.lookup key with
    | some entry =>
      match merge entry value with
      | .ok merged => mergeEntries (Assoc.set old key merged) new
      | .error e => .error (.key key entry.definitionPath value.definitionPath e)
    | none => mergeEntries (old ++ [(key, value)]) new

end

/-- No key is listed twice in a table. -/
inductive Wf : ConfigValue → Prop
  | integer (i : ℤ) (path : String) : Wf (.integer i path)
  | string (s path : String) : Wf (.string s path)
  | boolean (b : Bool) (path : String) : Wf (.boolean b path)
  | list (l : List (String × String)) (path : String) : Wf (.list l path)
  | table {entries : List (String × ConfigValue)} (path : String)
    (hkeys : Assoc.Keys entries) (hvalues : ∀ e ∈ entries, Wf e.2) :
    Wf (.table entries path)

/-- What a value is apart from the values in it. -/
inductive Node
  | integer (i : ℤ) (path : String)
  | string (s : String) (path : String)
  | boolean (b : Bool) (path : String)
  | list (l : List (String × String)) (path : String)
  | table (path : String)
  deriving DecidableEq

/-- Table, list or scalar. -/
inductive Shape
  | scalar
  | list
  | table
  deriving DecidableEq

/-- The shape of a value. -/
def Node.shape : Node → Shape
  | .table _ => .table
  | .list _ _ => .list
  | _ => .scalar

/-- The value itself. -/
def node : ConfigValue → Node
  | integer i path => .integer i path
  | string s path => .string s path
  | boolean b path => .boolean b path
  | list l path => .list l path
  | table _ path => .table path

/-- What there is at a path of keys. -/
def view : ConfigValue → List String → Option Node
  | v, [] => some v.node
  | table entries _, key :: keys => (entries.lookup key).bind fun v => view v keys
  | _, _ :: _ => none

end ConfigValue

/-- The configuration of a file: no key is listed twice. -/
abbrev FileConfig := {v : ConfigValue // v.Wf}

/-- The configuration files for a directory: those of the directories above it, nearest first,
and the one in the home directory unless it was met before. -/
def walkTree (ancestors : List String) (home : String) (isFile : String → Bool) : List String :=
  let stash := (ancestors.map fun current => current ++ "/.cargo/config").filter isFile
  let config := home ++ "/config"
  if config ∉ stash ∧ isFile config then stash ++ [config] else stash

/-- Merge the values of several files, one after the other. -/
def mergeAll (value : ConfigValue) (files : List FileConfig) :
    Except ConfigValue.MergeError ConfigValue :=
  files.foldlM (fun cfg file => cfg.merge file.1) value

/-- Load the configuration from files, the nearest first. -/
def loadValuesFrom (files : List FileConfig) : Except ConfigValue.MergeError ConfigValue :=
  mergeAll (.table [] ".") files

end Cargo.Util
