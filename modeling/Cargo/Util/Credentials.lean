import Cargo.Util.Config.Merge

/-!
# Credentials

The tokens of the registries stand in a file of their own, which `load_credentials` merges with
the configuration and `save_credentials` rewrites at each login. The token of the default registry
used to be a top-level key; both functions know about that layout.

## Main definitions

* `Toml`, `ConfigValue.fromToml`
* `saveCredentials`, `loadCredentials`
* `Undisturbed` — the new token is seen, and nothing else has changed
* `SavesCleanly` — the tables that are replaced hold nothing else

## Main results

* `undisturbed_iff` — one login, and any number of them
-/

set_option autoImplicit false

namespace Cargo.Util

open Cargo.Math

/-- A value of a TOML file. A float is given by its bits and a date by its text. -/
inductive Toml
  | string (s : String)
  | integer (i : ℤ)
  | float (bits : UInt64)
  | boolean (b : Bool)
  | datetime (text : String)
  | array (val : List Toml)
  | table (val : List (String × Toml))

namespace Toml

/-- What kind of value it is. -/
def typeStr : Toml → String
  | string _ => "string"
  | integer _ => "integer"
  | float _ => "float"
  | boolean _ => "boolean"
  | datetime _ => "datetime"
  | array _ => "array"
  | table _ => "table"

/-- The value itself, apart from what a table has in it. -/
def node : Toml → Toml
  | table _ => table []
  | v => v

/-- What there is at a path of keys. -/
def view : Toml → List String → Option Toml
  | v, [] => some v.node
  | table val, key :: keys => (val.lookup key).bind fun v => view v keys
  | _, _ :: _ => none

end Toml

namespace ConfigValue

/-- Why a file cannot be used as configuration. -/
inductive FromTomlError
  /-- expected string but found this type in list -/
  | expectedString (typeStr : String)
  /-- found TOML configuration value of unknown type -/
  | unknownType (typeStr : String)
  /-- failed to parse key -/
  | key (key : String) (cause : FromTomlError)

/-- An element of a list has to be a string. -/
def listItem (path : String) : Toml → Except FromTomlError (String × String)
  | .string val => .ok (val, path)
  | v => .error (.expectedString v.typeStr)

mutual

/-- The value as configuration that is defined in a file. -/
def fromToml (path : String) : Toml → Except FromTomlError ConfigValue
  | .string val => .ok (.string val path)
  | .boolean b => .ok (.boolean b path)
  | .integer i => .ok (.integer i path)
  | .array val => (val.mapM (listItem path)).map fun l => .list l path
  | .table val => (fromEntries path val).map fun entries => .table entries path
  | v => .error (.unknownType v.typeStr)

/-- The entries of a table. -/
def fromEntries (path : String) :
    List (String × Toml) → Except FromTomlError (List (String × ConfigValue))
  | [] => .ok []
  | (key, value) :: rest =>
    match fromToml path value with
    | .ok v => (fromEntries path rest).map fun entries => (key, v) :: entries
    | .error e => .error (.key key e)

end

mutual

/-- The value as TOML. -/
def intoToml : ConfigValue → Toml
  | boolean b _ => .boolean b
  | string s _ => .string s
  | integer i _ => .integer i
  | list l _ => .array (l.map fun item => .string item.1)
  | table entries _ => .table (intoEntries entries)

/-- The entries of a table. -/
def intoEntries : List (String × ConfigValue) → List (String × Toml)
  | [] => []
  | (key, value) :: rest => (key, intoToml value) :: intoEntries rest

end

end ConfigValue

/-- What the credentials file has in it: the entries of its table, no key listed twice. -/
structure Credentials where
  entries : List (String × Toml)
  keys : Assoc.Keys entries

namespace Credentials

/-- The path of the credentials file. -/
def path : String := "credentials"

/-- The whole file as a table. -/
def toml (file : Credentials) : Toml :=
  .table file.entries

/-- A value for a key, whether it is there or not. -/
def insert (file : Credentials) (key : String) (value : Toml) : Credentials :=
  ⟨Assoc.insert file.entries key value, Assoc.keys_insert file.keys key value⟩

/-- Without a key. -/
def remove (file : Credentials) (key : String) : Credentials :=
  ⟨Assoc.erase file.entries key, Assoc.keys_erase file.keys key⟩

end Credentials

/-- The key and the value that a login writes. -/
def newEntry (token : String) (registry : Option String) : String × ConfigValue :=
  let table := ConfigValue.table [("token", .string token Credentials.path)] Credentials.path
  match registry with
  | some registry => ("registries", .table [(registry, table)] Credentials.path)
  | none => ("registry", table)

/-- Move the old token location to the new one. -/
def migrateOldToken (file : Credentials) : Credentials :=
  match file.entries.lookup "token" with
  | some token => (file.remove "token").insert "registry" (.table [("token", token)])
  | none => file

/-- What a login makes of the credentials file. -/
def saveCredentials (file : Credentials) (token : String) (registry : Option String) :
    Credentials :=
  let (key, value) := newEntry token registry
  (migrateOldToken file).insert key value.intoToml

/-- Why the credentials cannot be loaded. -/
inductive LoadError
  | fromToml (e : ConfigValue.FromTomlError)
  | merge (e : ConfigValue.MergeError)

/-- Backwards compatibility for the old layout of the credentials. -/
def readOldToken (value : List (String × ConfigValue)) : List (String × ConfigValue) :=
  match value.lookup "token" with
  | some token =>
    let value := Assoc.erase value "token"
    match value.lookup "registry" with
    | some _ => value
    | none => Assoc.insert value "registry" (.table [("token", token)] ".")
  | none => value

/-- The configuration with the credentials, which take precedence. -/
def loadCredentials (cfg : FileConfig) (file : Credentials) : Except LoadError ConfigValue :=
  match ConfigValue.fromEntries Credentials.path file.entries with
  | .error e => .error (.fromToml e)
  | .ok value =>
    match (ConfigValue.table (readOldToken value) Credentials.path).merge cfg.1 with
    | .error e => .error (.merge e)
    | .ok cfg => .ok cfg

/-! ### What a login should do -/

/-- Where the token of a registry stands. -/
def tokenKey : Option String → List String
  | some registry => ["registries", registry, "token"]
  | none => ["registry", "token"]

/-- The path of keys leads to a key or into its value. -/
def OnWay (p key : List String) : Prop :=
  p <+: key ∨ key <+: p

instance (p key : List String) : Decidable (OnWay p key) :=
  inferInstanceAs (Decidable (_ ∨ _))

/-- A path of keys that has nothing to do with the token of a registry, nor with the old token if
there is one to be moved. -/
def OtherKey (file : Credentials) (registry : Option String) (p : List String) : Prop :=
  ¬OnWay p (tokenKey registry) ∧
    (file.entries.lookup "token" ≠ none → ¬OnWay p ["token"] ∧ ¬OnWay p (tokenKey none))

/-- After a login the new token is seen, the tokens seen for the other registries are the same as
before, and so is every other key of the file. -/
def Undisturbed (cfg : FileConfig) (file : Credentials) (token : String)
    (registry : Option String) : Prop :=
  ∃ before after, loadCredentials cfg file = .ok before ∧
    loadCredentials cfg (saveCredentials file token registry) = .ok after ∧
    after.view (tokenKey registry) = some (.string token Credentials.path) ∧
    (∀ other, other ≠ registry → after.view (tokenKey other) = before.view (tokenKey other)) ∧
    ∀ p, OtherKey file registry p →
      (saveCredentials file token registry).toml.view p = file.toml.view p

/-- A value has the shapes that the configuration has below a key. -/
def FitsAt (cfg : FileConfig) (key : String) (v : ConfigValue) : Prop :=
  ∀ q n m, v.view q = some n → cfg.1.view (key :: q) = some m → n.shape = m.shape

/-- What the credentials file has at a path of keys, as configuration. -/
def Credentials.nodeAt (file : Credentials) (p : List String) : Option ConfigValue.Node :=
  (file.toml.view p).bind fun t =>
    (ConfigValue.fromToml Credentials.path t).toOption.map ConfigValue.node

/-- The file has the token of the default registry in the old place, and a table `registry` that
says the same about the token and nothing else. -/
structure OldAgrees (cfg : FileConfig) (file : Credentials) (token : Toml) : Prop where
  fits : ∀ v, ConfigValue.fromToml Credentials.path token = .ok v →
    FitsAt cfg "registry" (.table [("token", v)] Credentials.path)
  alone : ∀ q, file.toml.view ("registry" :: q) ≠ none → OnWay ("registry" :: q) (tokenKey none)
  token : ConfigValue.joinViews (file.nodeAt ["registry", "token"]) (cfg.1.view (tokenKey none)) =
    ConfigValue.joinViews (file.nodeAt ["token"]) (cfg.1.view (tokenKey none))

/-- The table that a login replaces has nothing in it except for the token of the registry, and
what is written has the shapes of the configuration. If the old token of the default registry is
moved for a login to another one, then a `registry` table agrees with it. -/
structure SavesCleanly (cfg : FileConfig) (file : Credentials) (token : String)
    (registry : Option String) : Prop where
  fits : FitsAt cfg (newEntry token registry).1 (newEntry token registry).2
  alone : ∀ q, file.toml.view ((newEntry token registry).1 :: q) ≠ none →
    OnWay ((newEntry token registry).1 :: q) (tokenKey registry)
  old : registry ≠ none → file.entries.lookup "registry" ≠ none →
    ∀ token, file.entries.lookup "token" = some token → OldAgrees cfg file token

/-! ### Reading a file -/

namespace ConfigValue

theorem lookup_fromEntries {path : String} {val : List (String × Toml)}
    {entries : List (String × ConfigValue)} (h : fromEntries path val = .ok entries) (k : String) :
    (∀ t, val.lookup k = some t → ∃ v, fromToml path t = .ok v) ∧
      entries.lookup k = (val.lookup k).bind fun t => (fromToml path t).toOption := by
  induction val generalizing entries with
  | nil =>
    rw [fromEntries, Except.ok.injEq] at h
    subst h
    simp
  | cons e val ih =>
    rw [fromEntries] at h
    cases hv : fromToml path e.2 with
    | error err => simp [hv] at h
    | ok v =>
      cases hrest : fromEntries path val with
      | error err => simp [hv, hrest, Except.map] at h
      | ok rest =>
        simp only [hv, hrest, Except.map, Except.ok.injEq] at h
        subst h
        rw [Assoc.lookup_cons, Assoc.lookup_cons]
        by_cases hk : k = e.1
        · simp [hk, hv, Except.toOption]
        · simpa [hk] using ih hrest

theorem lookup_fromEntries_some {path : String} {val : List (String × Toml)}
    {entries : List (String × ConfigValue)} (h : fromEntries path val = .ok entries) {k : String}
    {t : Toml} (ht : val.lookup k = some t) :
    ∃ v, fromToml path t = .ok v ∧ entries.lookup k = some v := by
  obtain ⟨v, hv⟩ := (lookup_fromEntries h k).1 t ht
  refine ⟨v, hv, ?_⟩
  rw [(lookup_fromEntries h k).2, ht]
  simp [hv, Except.toOption]

theorem lookup_fromEntries_none {path : String} {val : List (String × Toml)}
    {entries : List (String × ConfigValue)} (h : fromEntries path val = .ok entries) {k : String}
    (ht : val.lookup k = none) : entries.lookup k = none := by
  rw [(lookup_fromEntries h k).2, ht]
  rfl

theorem exists_fromEntries {path : String} {val : List (String × Toml)}
    (h : ∀ e ∈ val, ∃ v, fromToml path e.2 = .ok v) :
    ∃ entries, fromEntries path val = .ok entries := by
  induction val with
  | nil => exact ⟨[], by rw [fromEntries]⟩
  | cons e val ih =>
    obtain ⟨v, hv⟩ := h e List.mem_cons_self
    obtain ⟨rest, hrest⟩ := ih fun e' he' => h e' (List.mem_cons_of_mem e he')
    refine ⟨(e.1, v) :: rest, ?_⟩
    rw [fromEntries, hv, hrest]
    rfl

theorem fromToml_table {path : String} {val : List (String × Toml)} {v : ConfigValue}
    (h : fromToml path (.table val) = .ok v) :
    ∃ entries, fromEntries path val = .ok entries ∧ v = .table entries path := by
  rw [fromToml] at h
  cases hval : fromEntries path val with
  | error e => simp [hval, Except.map] at h
  | ok entries =>
    simp only [hval, Except.map, Except.ok.injEq] at h
    exact ⟨entries, rfl, h.symm⟩

/-- Only tables become tables. -/
theorem shape_fromToml {path : String} {t : Toml} {v : ConfigValue} (h : fromToml path t = .ok v)
    (ht : ∀ val, t ≠ .table val) : v.node.shape ≠ .table ∧ fromToml path t.node = .ok v := by
  cases t with
  | table val => exact absurd rfl (ht val)
  | array val =>
    refine ⟨?_, h⟩
    rw [fromToml] at h
    cases hval : val.mapM (listItem path) with
    | error e => simp [hval, Except.map] at h
    | ok l =>
      simp only [hval, Except.map, Except.ok.injEq] at h
      subst h
      nofun
  | float bits => simp [fromToml] at h
  | datetime text => simp [fromToml] at h
  | _ =>
    refine ⟨?_, h⟩
    rw [fromToml, Except.ok.injEq] at h
    subst h
    nofun

/-- The configuration of a file has what the file has, at every path of keys. -/
theorem view_fromToml {path : String} {t : Toml} {v : ConfigValue} (h : fromToml path t = .ok v)
    (p : List String) :
    v.view p = (t.view p).bind fun n => (fromToml path n).toOption.map node := by
  induction p generalizing t v with
  | nil =>
    by_cases ht : ∃ val, t = .table val
    · obtain ⟨val, rfl⟩ := ht
      obtain ⟨entries, -, rfl⟩ := fromToml_table h
      simp [Toml.view, Toml.node, fromToml, fromEntries, Except.map, Except.toOption, view, node]
    · have hnode := (shape_fromToml h (not_exists.mp ht)).2
      simp [Toml.view, hnode, Except.toOption, view]
  | cons k p ih =>
    by_cases ht : ∃ val, t = .table val
    · obtain ⟨val, rfl⟩ := ht
      obtain ⟨entries, hentries, rfl⟩ := fromToml_table h
      obtain ⟨hexists, hlookup⟩ := lookup_fromEntries hentries k
      rw [view_table_cons, hlookup, Toml.view]
      cases hk : val.lookup k with
      | none => rfl
      | some t =>
        obtain ⟨v, hv⟩ := hexists t hk
        simpa [hv, Except.toOption] using ih hv
    · rw [view_cons_of_shape (shape_fromToml h (not_exists.mp ht)).1]
      cases t with
      | table val => exact absurd ⟨val, rfl⟩ ht
      | _ => rfl

end ConfigValue

/-! ### Where both functions find the token of the default registry -/

/-- A table that has a token and nothing else. -/
def tokenTable (path : String) (token : ConfigValue) : ConfigValue :=
  .table [("token", token)] path

theorem view_tokenTable (path : String) (token : ConfigValue) (q : List String) :
    (tokenTable path token).view ("token" :: q) = token.view q := by
  simp [tokenTable, ConfigValue.view]

/-- The reader prefers the new place. -/
theorem lookup_readOldToken (value : List (String × ConfigValue)) (k : String) :
    (readOldToken value).lookup k =
      if k = "token" then none
      else if k = "registry" then
        (value.lookup "registry").or ((value.lookup "token").map (tokenTable "."))
      else value.lookup k := by
  rw [readOldToken]
  cases htoken : value.lookup "token" with
  | none =>
    by_cases hk : k = "token"
    · simp [hk, htoken]
    · by_cases hr : k = "registry"
      · simp [hr]
      · simp [hk, hr]
  | some token =>
    have herase : (Assoc.erase value "token").lookup "registry" = value.lookup "registry" := by
      rw [Assoc.lookup_erase, if_neg (by decide)]
    simp only [herase]
    cases hregistry : value.lookup "registry" with
    | some table =>
      by_cases hr : k = "registry"
      · simp [hr, herase, hregistry]
      · simp [hr, Assoc.lookup_erase]
    | none =>
      rw [Assoc.lookup_insert, Assoc.lookup_erase]
      by_cases hr : k = "registry"
      · simp [hr, tokenTable]
      · simp [hr]

/-- The writer prefers the old place. -/
theorem lookup_migrateOldToken (file : Credentials) (k : String) :
    (migrateOldToken file).entries.lookup k =
      if k = "token" then none
      else if k = "registry" then
        ((file.entries.lookup "token").map fun token => Toml.table [("token", token)]).or
          (file.entries.lookup "registry")
      else file.entries.lookup k := by
  rw [migrateOldToken]
  cases htoken : file.entries.lookup "token" with
  | none =>
    by_cases hk : k = "token"
    · simp [hk, htoken]
    · by_cases hr : k = "registry"
      · simp [hr]
      · simp [hk, hr]
  | some token =>
    simp only [Credentials.insert, Credentials.remove]
    rw [Assoc.lookup_insert, Assoc.lookup_erase]
    by_cases hr : k = "registry"
    · simp [hr]
    · simp [hr]

theorem lookup_saveCredentials (file : Credentials) (token : String) (registry : Option String)
    (k : String) :
    (saveCredentials file token registry).entries.lookup k =
      if k = (newEntry token registry).1 then some (newEntry token registry).2.intoToml
      else (migrateOldToken file).entries.lookup k := by
  exact Assoc.lookup_insert (migrateOldToken file).entries _ k _

theorem newEntry_ne_token (token : String) (registry : Option String) :
    (newEntry token registry).1 ≠ "token" := by
  cases registry with
  | none =>
    change "registry" ≠ "token"
    decide
  | some registry =>
    change "registries" ≠ "token"
    decide

theorem newEntry_ne_registry_iff (token : String) {registry : Option String} :
    "registry" ≠ (newEntry token registry).1 ↔ registry ≠ none := by
  cases registry with
  | none => simp [newEntry]
  | some registry => simp [newEntry]

theorem fromToml_newEntry (token : String) (registry : Option String) :
    ConfigValue.fromToml Credentials.path (newEntry token registry).2.intoToml =
      .ok (newEntry token registry).2 := by
  cases registry with
  | none => rfl
  | some registry => rfl

theorem fromToml_tokenTable {token : Toml} {v : ConfigValue}
    (h : ConfigValue.fromToml Credentials.path token = .ok v) :
    ConfigValue.fromToml Credentials.path (.table [("token", token)]) =
      .ok (tokenTable Credentials.path v) := by
  rw [ConfigValue.fromToml, ConfigValue.fromEntries, h, ConfigValue.fromEntries]
  rfl

/-- What is read after a login, given what was read before. -/
def Rewritten (token : String) (registry : Option String)
    (value value' : List (String × ConfigValue)) : Prop :=
  ∀ k, value'.lookup k =
    if k = (newEntry token registry).1 then some (newEntry token registry).2
    else if k = "token" then none
    else if k = "registry" then
      ((value.lookup "token").map (tokenTable Credentials.path)).or (value.lookup "registry")
    else value.lookup k

/-- What a login has written can be read, and what it has not written is read as before. -/
theorem fromEntries_saveCredentials {file : Credentials} {value : List (String × ConfigValue)}
    (h : ConfigValue.fromEntries Credentials.path file.entries = .ok value) (token : String)
    (registry : Option String) :
    ∃ value', ConfigValue.fromEntries Credentials.path
        (saveCredentials file token registry).entries = .ok value' ∧
      Rewritten token registry value value' := by
  -- each entry that was not there before is one of the two that are written
  have hread : ∀ k, ∀ t, (saveCredentials file token registry).entries.lookup k = some t →
      ∃ v, ConfigValue.fromToml Credentials.path t = .ok v := by
    intro k t ht
    rw [lookup_saveCredentials, lookup_migrateOldToken] at ht
    split at ht
    · cases ht
      exact ⟨_, fromToml_newEntry token registry⟩
    · split at ht
      · cases ht
      · split at ht
        · cases htoken : file.entries.lookup "token" with
          | none =>
            rw [htoken] at ht
            exact (ConfigValue.lookup_fromEntries h "registry").1 t ht
          | some old =>
            rw [htoken] at ht
            cases ht
            obtain ⟨v, hv⟩ := (ConfigValue.lookup_fromEntries h "token").1 old htoken
            exact ⟨_, fromToml_tokenTable hv⟩
        · exact (ConfigValue.lookup_fromEntries h k).1 t ht
  obtain ⟨value', hvalue'⟩ := ConfigValue.exists_fromEntries fun e he => hread e.1 e.2
    ((Assoc.lookup_eq_some_iff (saveCredentials file token registry).keys).mpr he)
  refine ⟨value', hvalue', fun k => ?_⟩
  rw [(ConfigValue.lookup_fromEntries hvalue' k).2, lookup_saveCredentials, lookup_migrateOldToken]
  have hlookup := fun k => (ConfigValue.lookup_fromEntries h k).2
  split
  · simp [fromToml_newEntry, Except.toOption]
  · split
    · rfl
    · split
      · rw [hlookup, hlookup]
        cases htoken : file.entries.lookup "token" with
        | none => simp
        | some old =>
          obtain ⟨v, hv⟩ := (ConfigValue.lookup_fromEntries h "token").1 old htoken
          simp [hv, fromToml_tokenTable hv, Except.toOption]
      · exact (hlookup k).symm

/-! ### Loading -/

theorem loadCredentials_eq_ok {cfg : FileConfig} {file : Credentials} {r : ConfigValue} :
    loadCredentials cfg file = .ok r ↔
      ∃ value, ConfigValue.fromEntries Credentials.path file.entries = .ok value ∧
        (ConfigValue.table (readOldToken value) Credentials.path).merge cfg.1 = .ok r := by
  rw [loadCredentials]
  cases hvalue : ConfigValue.fromEntries Credentials.path file.entries with
  | error e => simp
  | ok value =>
    cases hmerge : (ConfigValue.table (readOldToken value) Credentials.path).merge cfg.1 with
    | error e => simp [hmerge]
    | ok m => simp [hmerge]

/-- A table has the shapes of the configuration if each of its entries does. -/
theorem compatible_table_iff {cfg : FileConfig} {entries : List (String × ConfigValue)}
    {path : String} :
    ConfigValue.Compatible (.table entries path) cfg.1 ↔
      cfg.1.node.shape = .table ∧ ∀ k v, entries.lookup k = some v → FitsAt cfg k v := by
  constructor
  · intro h
    refine ⟨(h [] (.table path) cfg.1.node rfl rfl).symm, fun k v hk q n m hn hm => ?_⟩
    apply h (k :: q) n m _ hm
    rw [ConfigValue.view_table_cons, hk]
    exact hn
  · rintro ⟨hshape, h⟩ p n m hn hm
    cases p with
    | nil =>
      cases hn
      cases hm
      exact hshape.symm
    | cons k q =>
      rw [ConfigValue.view_table_cons] at hn
      obtain ⟨v, hk, hv⟩ := Option.bind_eq_some_iff.mp hn
      exact h k v hk q n m hv hm

/-- What is seen below a key, given the credentials that were read. -/
theorem view_loadCredentials {cfg : FileConfig} {value : List (String × ConfigValue)}
    {r : ConfigValue}
    (h : (ConfigValue.table (readOldToken value) Credentials.path).merge cfg.1 = .ok r)
    (k : String) (q : List String) :
    r.view (k :: q) = ConfigValue.joinViews
      (((readOldToken value).lookup k).bind (·.view q)) (cfg.1.view (k :: q)) := by
  rw [ConfigValue.view_merge cfg.2 h, ConfigValue.view_table_cons]

/-- The value of the old token, where both functions look for it. -/
theorem nodeAt_cons {file : Credentials} {value : List (String × ConfigValue)}
    (h : ConfigValue.fromEntries Credentials.path file.entries = .ok value) (k : String)
    (q : List String) : file.nodeAt (k :: q) = (value.lookup k).bind (·.view q) := by
  have htable : ConfigValue.fromToml Credentials.path file.toml =
      .ok (.table value Credentials.path) := by
    rw [Credentials.toml, ConfigValue.fromToml, h]
    rfl
  rw [Credentials.nodeAt, ← ConfigValue.view_fromToml htable, ConfigValue.view_table_cons]

/-! ### The tables that are written -/

theorem view_toml_cons (file : Credentials) (k : String) (q : List String) :
    file.toml.view (k :: q) = (file.entries.lookup k).bind (·.view q) := rfl

/-- A table with one key has nothing off the way to its value. -/
theorem view_single_ne_none {k : String} {t : Toml} {q : List String}
    (h : (Toml.table [(k, t)]).view q ≠ none) : q = [] ∨ ∃ q', q = k :: q' ∧ t.view q' ≠ none := by
  cases q with
  | nil => exact .inl rfl
  | cons k' q' =>
    rw [Toml.view, Assoc.lookup_cons] at h
    by_cases hk : k' = k
    · subst hk
      exact .inr ⟨q', rfl, by simpa using h⟩
    · simp [hk] at h

theorem onWay_of_tokenTable {token : Toml} {q : List String}
    (h : (Toml.table [("token", token)]).view q ≠ none) :
    OnWay ("registry" :: q) (tokenKey none) := by
  rcases view_single_ne_none h with rfl | ⟨q', rfl, -⟩
  · exact .inl (by simp [tokenKey])
  · exact .inr (by simp [tokenKey])

theorem onWay_of_newEntry {token : String} {registry : Option String} {q : List String}
    (h : (newEntry token registry).2.intoToml.view q ≠ none) :
    OnWay ((newEntry token registry).1 :: q) (tokenKey registry) := by
  cases registry with
  | none => exact onWay_of_tokenTable h
  | some registry =>
    rcases view_single_ne_none h with rfl | ⟨q', rfl, htable⟩
    · exact .inl (by simp [newEntry, tokenKey])
    · rcases view_single_ne_none htable with rfl | ⟨q'', rfl, -⟩
      · exact .inl (by simp [newEntry, tokenKey])
      · exact .inr (by simp [newEntry, tokenKey])

/-- A path of keys is on the way to a key only if it starts as the key does. -/
theorem OnWay.head_eq {k k' : String} {q q' : List String} (h : OnWay (k :: q) (k' :: q')) :
    k = k' := by
  rcases h with h | h
  · exact (List.cons_prefix_cons.mp h).1
  · exact (List.cons_prefix_cons.mp h).1.symm

/-! ### One login -/

theorem eq_none_of_onWay {file : Credentials} {k : String} {q key : List String}
    (h : file.toml.view (k :: q) ≠ none → OnWay (k :: q) key) (hq : ¬OnWay (k :: q) key) :
    file.toml.view (k :: q) = none := by
  by_contra hne
  exact hq (h hne)

/-- A path of keys that is off the way to the new token but starts as it does is another key. -/
theorem otherKey_of_newEntry (file : Credentials) {token : String} {registry : Option String}
    {q : List String} (h : ¬OnWay ((newEntry token registry).1 :: q) (tokenKey registry)) :
    OtherKey file registry ((newEntry token registry).1 :: q) := by
  refine ⟨h, fun _ => ⟨fun hway => newEntry_ne_token token registry hway.head_eq, fun hway => ?_⟩⟩
  cases registry with
  | none => exact h hway
  | some registry => exact absurd (OnWay.head_eq hway) (by simp [newEntry])

theorem otherKey_of_registry (file : Credentials) {registry : Option String} {q : List String}
    (hregistry : registry ≠ none) (h : ¬OnWay ("registry" :: q) (tokenKey none)) :
    OtherKey file registry ("registry" :: q) := by
  refine ⟨fun hway => ?_, fun _ => ⟨fun hway => absurd (OnWay.head_eq hway) (by decide), h⟩⟩
  cases registry with
  | none => exact hregistry rfl
  | some registry => exact absurd (OnWay.head_eq hway) (by decide)

section

variable {cfg : FileConfig} {file : Credentials} {value : List (String × ConfigValue)}
  {before : ConfigValue}

/-- What is read after a login has no token in the old place. -/
theorem readOldToken_of_none {value : List (String × ConfigValue)}
    (h : value.lookup "token" = none) : readOldToken value = value := by
  rw [readOldToken, h]

theorem FitsAt.tokenTable {k path : String} {t : ConfigValue} (h : FitsAt cfg k (tokenTable path t))
    (path' : String) : FitsAt cfg k (tokenTable path' t) := by
  intro q n m hn hm
  cases q with
  | nil =>
    cases hn
    exact h [] (.table path) m rfl hm
  | cons k' q => exact h (k' :: q) n m hn hm

/-- A login that leaves everything else undisturbed has replaced nothing else. -/
theorem SavesCleanly.of_undisturbed {token : String} {registry : Option String}
    (h : Undisturbed cfg file token registry) : SavesCleanly cfg file token registry := by
  obtain ⟨before, after, hbefore, hafter, -, hothers, hkeys⟩ := h
  obtain ⟨value, hvalue, hmerge⟩ := loadCredentials_eq_ok.mp hbefore
  obtain ⟨value', hvalue', hmerge'⟩ := loadCredentials_eq_ok.mp hafter
  obtain ⟨value'', hvalue'', hlookup⟩ := fromEntries_saveCredentials hvalue token registry
  cases hvalue'.symm.trans hvalue''
  -- the file that was written has no token of the old kind
  have hold : readOldToken value' = value' := by
    apply readOldToken_of_none
    rw [hlookup, if_neg (newEntry_ne_token token registry).symm, if_pos rfl]
  rw [hold] at hmerge'
  have hfits := (compatible_table_iff.mp ((ConfigValue.exists_merge_iff cfg.2).mp ⟨_, hmerge'⟩)).2
  refine ⟨hfits _ _ (by rw [hlookup, if_pos rfl]), fun q hq => ?_, ?_⟩
  · by_contra hway
    have hsame := hkeys _ (otherKey_of_newEntry file hway)
    rw [view_toml_cons, lookup_saveCredentials, if_pos rfl, Option.bind_some] at hsame
    exact hway (onWay_of_newEntry (hsame ▸ hq))
  · intro hregistry htable old htoken
    have hne := (newEntry_ne_registry_iff token).mpr hregistry
    obtain ⟨v, hv, htoken'⟩ := ConfigValue.lookup_fromEntries_some hvalue htoken
    -- the old token is now in `[registry]`, and nothing else is
    have hwritten : value'.lookup "registry" = some (tokenTable Credentials.path v) := by
      rw [hlookup, if_neg hne, if_neg (by decide), if_pos rfl, htoken']
      rfl
    refine ⟨fun w hw => ?_, fun q hq => ?_, ?_⟩
    · cases hv.symm.trans hw
      exact hfits _ _ hwritten
    · by_contra hway
      have hsame := hkeys _ (otherKey_of_registry file hregistry hway)
      rw [view_toml_cons, lookup_saveCredentials, if_neg hne, lookup_migrateOldToken,
        if_neg (by decide), if_pos rfl, htoken] at hsame
      exact hway (onWay_of_tokenTable (hsame ▸ hq))
    · have hseen := hothers none (Ne.symm hregistry)
      obtain ⟨t, ht⟩ := Option.ne_none_iff_exists'.mp htable
      obtain ⟨w, -, hregistry'⟩ := ConfigValue.lookup_fromEntries_some hvalue ht
      rw [tokenKey, ConfigValue.view_merge cfg.2 hmerge', ConfigValue.view_table_cons, hwritten,
        view_loadCredentials hmerge, lookup_readOldToken, if_neg (by decide), if_pos rfl,
        hregistry', Option.some_or] at hseen
      rw [nodeAt_cons hvalue, nodeAt_cons hvalue, hregistry', htoken']
      rw [Option.bind_some, view_tokenTable] at hseen
      exact hseen.symm

/-- What is written has the shapes of the configuration. -/
theorem SavesCleanly.fitsAt {token : String} {registry : Option String}
    {value' : List (String × ConfigValue)} (h : SavesCleanly cfg file token registry)
    (hvalue : ConfigValue.fromEntries Credentials.path file.entries = .ok value)
    (hfits : ∀ k v, (readOldToken value).lookup k = some v → FitsAt cfg k v)
    (hlookup : Rewritten token registry value value')
    (k : String) (v : ConfigValue) (hk : value'.lookup k = some v) : FitsAt cfg k v := by
  rw [hlookup] at hk
  split at hk
  · rename_i hkey
    cases hk
    exact hkey ▸ h.fits
  rename_i hkey
  split at hk
  · cases hk
  rename_i htoken
  -- any other key has what it had, but for the old token that moves
  have hbefore := hfits k
  rw [lookup_readOldToken, if_neg htoken] at hbefore
  split at hk
  · rename_i hregistry
    subst hregistry
    rw [if_pos rfl] at hbefore
    cases hold : file.entries.lookup "token" with
    | none =>
      rw [ConfigValue.lookup_fromEntries_none hvalue hold] at hk hbefore
      exact hbefore v (by simpa using hk)
    | some old =>
      obtain ⟨t, ht, hold'⟩ := ConfigValue.lookup_fromEntries_some hvalue hold
      rw [hold'] at hk hbefore
      cases hk
      cases htable : file.entries.lookup "registry" with
      | none =>
        rw [ConfigValue.lookup_fromEntries_none hvalue htable] at hbefore
        exact (hbefore (tokenTable "." t) rfl).tokenTable Credentials.path
      | some table =>
        have hne := (newEntry_ne_registry_iff token).mp hkey
        exact (h.old hne (htable ▸ Option.some_ne_none table) old hold).fits t ht
  · rename_i hregistry
    rw [if_neg hregistry] at hbefore
    exact hbefore v hk

/-- The tokens of the other registries are seen as before. -/
theorem SavesCleanly.view_other {token : String} {registry : Option String}
    {value' : List (String × ConfigValue)} (h : SavesCleanly cfg file token registry)
    (hvalue : ConfigValue.fromEntries Credentials.path file.entries = .ok value)
    (hlookup : Rewritten token registry value value')
    {other : Option String} (hother : other ≠ registry) :
    ConfigValue.joinViews ((ConfigValue.table value' Credentials.path).view (tokenKey other))
        (cfg.1.view (tokenKey other)) =
      ConfigValue.joinViews
        ((ConfigValue.table (readOldToken value) Credentials.path).view (tokenKey other))
        (cfg.1.view (tokenKey other)) := by
  cases other with
  | some other =>
    rw [tokenKey, ConfigValue.view_table_cons, ConfigValue.view_table_cons, lookup_readOldToken,
      if_neg (by decide), if_neg (by decide), hlookup]
    cases registry with
    | none =>
      rw [if_neg (by simp [newEntry]), if_neg (by decide), if_neg (by decide)]
    | some registry =>
      -- the whole table of registries is replaced
      have hne : other ≠ registry := fun heq => hother (heq ▸ rfl)
      have hway : ¬OnWay ["registries", other, "token"] (tokenKey (some registry)) := by
        simp [OnWay, tokenKey, hne, hne.symm]
      have hnone := eq_none_of_onWay (h.alone [other, "token"]) hway
      have hold : (value.lookup "registries").bind (·.view [other, "token"]) = none := by
        rw [← nodeAt_cons hvalue, Credentials.nodeAt]
        exact Option.bind_eq_none_iff.mpr fun t ht => absurd (hnone.symm.trans ht) nofun
      have hkey : "registries" = (newEntry token (some registry)).1 := rfl
      rw [if_pos hkey, hold]
      have hnew : (newEntry token (some registry)).2.view [other, "token"] = none := by
        simp [newEntry, ConfigValue.view, Assoc.lookup_cons, hne]
      rw [Option.bind_some, hnew]
  | none =>
    have hne := (newEntry_ne_registry_iff token).mpr hother.symm
    rw [tokenKey, ConfigValue.view_table_cons, ConfigValue.view_table_cons, lookup_readOldToken,
      if_neg (by decide), if_pos rfl, hlookup, if_neg hne, if_neg (by decide), if_pos rfl]
    cases hold : file.entries.lookup "token" with
    | none =>
      rw [ConfigValue.lookup_fromEntries_none hvalue hold]
      simp
    | some old =>
      obtain ⟨t, ht, hold'⟩ := ConfigValue.lookup_fromEntries_some hvalue hold
      rw [hold']
      cases htable : file.entries.lookup "registry" with
      | none =>
        rw [ConfigValue.lookup_fromEntries_none hvalue htable]
        rfl
      | some table =>
        have hagrees := (h.old hother.symm (htable ▸ Option.some_ne_none table) old hold).token
        rw [nodeAt_cons hvalue, nodeAt_cons hvalue, hold'] at hagrees
        obtain ⟨w, -, htable'⟩ := ConfigValue.lookup_fromEntries_some hvalue htable
        rw [htable'] at hagrees ⊢
        exact hagrees.symm

/-- The other keys of the file are as before. -/
theorem SavesCleanly.view_otherKey {token : String} {registry : Option String}
    (h : SavesCleanly cfg file token registry) {p : List String}
    (hp : OtherKey file registry p) :
    (saveCredentials file token registry).toml.view p = file.toml.view p := by
  cases p with
  | nil => exact absurd (.inl List.nil_prefix) hp.1
  | cons k q =>
    rw [view_toml_cons, lookup_saveCredentials]
    split
    · rename_i hkey
      subst hkey
      -- the entry of the new token has nothing but the way to it
      rw [eq_none_of_onWay (h.alone q) hp.1]
      by_contra hne
      exact hp.1 (onWay_of_newEntry hne)
    · rename_i hkey
      rw [lookup_migrateOldToken]
      cases hold : file.entries.lookup "token" with
      | none =>
        by_cases htoken : k = "token"
        · subst htoken
          rw [view_toml_cons, hold]
          rfl
        · by_cases hregistry : k = "registry"
          · subst hregistry
            rw [view_toml_cons]
            simp
          · rw [if_neg htoken, if_neg hregistry, view_toml_cons]
      | some old =>
        obtain ⟨htoken, hregistry⟩ := hp.2 (hold ▸ Option.some_ne_none old)
        have hk : k ≠ "token" := fun hk => htoken (.inr (by simp [hk]))
        rw [if_neg hk]
        by_cases hr : k = "registry"
        · subst hr
          rw [if_pos rfl]
          -- the old token moves to `[registry]`, which has nothing else
          have hne := (newEntry_ne_registry_iff token).mp hkey
          have hnone : file.toml.view ("registry" :: q) = none := by
            cases htable : file.entries.lookup "registry" with
            | none =>
              rw [view_toml_cons, htable]
              rfl
            | some table =>
              exact eq_none_of_onWay
                ((h.old hne (htable ▸ Option.some_ne_none table) old hold).alone q) hregistry
          rw [hnone]
          by_contra hview
          exact hregistry (onWay_of_tokenTable hview)
        · rw [if_neg hr, view_toml_cons]

/-- A login that replaces nothing else leaves everything else undisturbed. -/
theorem SavesCleanly.undisturbed {token : String} {registry : Option String}
    (hbefore : loadCredentials cfg file = .ok before) (h : SavesCleanly cfg file token registry) :
    Undisturbed cfg file token registry := by
  obtain ⟨value, hvalue, hmerge⟩ := loadCredentials_eq_ok.mp hbefore
  obtain ⟨value', hvalue', hlookup⟩ := fromEntries_saveCredentials hvalue token registry
  have hold : readOldToken value' = value' := by
    apply readOldToken_of_none
    rw [hlookup, if_neg (newEntry_ne_token token registry).symm, if_pos rfl]
  obtain ⟨hshape, hfits⟩ :=
    compatible_table_iff.mp ((ConfigValue.exists_merge_iff cfg.2).mp ⟨_, hmerge⟩)
  obtain ⟨after, hafter⟩ := (ConfigValue.exists_merge_iff cfg.2).mpr
    (compatible_table_iff.mpr ⟨hshape, h.fitsAt hvalue hfits hlookup⟩)
  refine ⟨before, after, hbefore, loadCredentials_eq_ok.mpr ⟨value', hvalue', hold.symm ▸ hafter⟩,
    ?_, fun other hother => ?_, fun p hp => h.view_otherKey hp⟩
  · have hnew : (ConfigValue.table value' Credentials.path).view (tokenKey registry) =
        some (.string token Credentials.path) := by
      cases registry with
      | none =>
        rw [tokenKey, ConfigValue.view_table_cons, hlookup, if_pos rfl]
        rfl
      | some registry =>
        have hkey : "registries" = (newEntry token (some registry)).1 := rfl
        rw [tokenKey, ConfigValue.view_table_cons, hlookup, if_pos hkey]
        simp [newEntry, ConfigValue.view, ConfigValue.node]
    rw [ConfigValue.view_merge cfg.2 hafter, hnew]
    cases cfg.1.view (tokenKey registry) with
    | none => rfl
    | some m => rfl
  · rw [ConfigValue.view_merge cfg.2 hafter, ConfigValue.view_merge cfg.2 hmerge]
    exact h.view_other hvalue hlookup hother

end

/-- A login replaces nothing else if the table that it replaces has only an older token of the
registry, there is no token in the old place and the configuration has nothing of another shape. -/
theorem SavesCleanly.of_entry {cfg : FileConfig} {file : Credentials} {token : String}
    {registry : Option String} (old : String)
    (hfits : ∃ r, (ConfigValue.table [newEntry token registry] ".").merge cfg.1 = .ok r)
    (hentry : file.entries.lookup (newEntry token registry).1 =
      some (newEntry old registry).2.intoToml)
    (hold : file.entries.lookup "token" = none) : SavesCleanly cfg file token registry where
  fits := by
    intro q n m hn hm
    have hcompatible := (ConfigValue.exists_merge_iff cfg.2).mp hfits
    refine hcompatible ((newEntry token registry).1 :: q) n m ?_ hm
    rw [ConfigValue.view_table_cons, Assoc.lookup_cons, if_pos rfl]
    exact hn
  alone := by
    intro q hq
    have hkey : (newEntry token registry).1 = (newEntry old registry).1 := by cases registry <;> rfl
    rw [view_toml_cons, hentry] at hq
    rw [hkey]
    exact onWay_of_newEntry hq
  old := fun _ _ _ htoken => nomatch hold.symm.trans htoken

/-! ### Any number of logins -/

/-- A number of logins, one after the other. -/
def logins (file : Credentials) (ls : List (String × Option String)) : Credentials :=
  ls.foldl (fun file l => saveCredentials file l.1 l.2) file

/-- Each login replaces nothing else. -/
def CleanRun (cfg : FileConfig) : Credentials → List (String × Option String) → Prop
  | _, [] => True
  | file, (token, registry) :: ls =>
    SavesCleanly cfg file token registry ∧ CleanRun cfg (saveCredentials file token registry) ls

/-- The token of the last login to a registry. -/
def lastToken (registry : Option String) : List (String × Option String) → Option String
  | [] => none
  | (token, registry') :: ls =>
    (lastToken registry ls).or (if registry = registry' then some token else none)

/-- After a number of logins each registry has the token of its last login, and the others have the
tokens that they had before. -/
theorem CleanRun.lastToken {cfg : FileConfig} {file : Credentials} {before : ConfigValue}
    {ls : List (String × Option String)} (hbefore : loadCredentials cfg file = .ok before)
    (h : CleanRun cfg file ls) :
    ∃ after, loadCredentials cfg (logins file ls) = .ok after ∧
      ∀ registry, after.view (tokenKey registry) =
        ((Util.lastToken registry ls).map fun token =>
          ConfigValue.Node.string token Credentials.path).or (before.view (tokenKey registry)) := by
  induction ls generalizing file before with
  | nil => exact ⟨before, hbefore, fun registry => rfl⟩
  | cons l ls ih =>
    obtain ⟨before', mid, hbefore', hmid, hnew, hothers, -⟩ := h.1.undisturbed hbefore
    cases hbefore.symm.trans hbefore'
    obtain ⟨after, hafter, hview⟩ := ih hmid h.2
    refine ⟨after, hafter, fun registry => ?_⟩
    rw [hview, Util.lastToken]
    cases Util.lastToken registry ls with
    | some token => rfl
    | none =>
      by_cases hregistry : registry = l.2
      · simp [hregistry, hnew]
      · simp [hregistry, hothers registry hregistry]

/-- Exactly a login that replaces nothing else than the token of its registry leaves everything
else undisturbed. If all logins are of that kind then each registry has the token of its last
login. -/
theorem undisturbed_iff (cfg : FileConfig) (file : Credentials) (before : ConfigValue)
    (h : loadCredentials cfg file = .ok before) :
    (∀ token registry,
      Undisturbed cfg file token registry ↔ SavesCleanly cfg file token registry) ∧
    ∀ ls, CleanRun cfg file ls → ∃ after, loadCredentials cfg (logins file ls) = .ok after ∧
      ∀ registry, after.view (tokenKey registry) =
        ((lastToken registry ls).map fun token =>
          ConfigValue.Node.string token Credentials.path).or (before.view (tokenKey registry)) :=
  ⟨fun _ _ => ⟨SavesCleanly.of_undisturbed, SavesCleanly.undisturbed h⟩,
    fun _ hrun => hrun.lastToken h⟩

/-- A file that has the tokens of two registries and another key. -/
def tokensFile : Credentials where
  entries := [("http", .table [("proxy", .string "localhost")]),
    ("registries", .table [("mine", .table [("token", .string "old")])]),
    ("registry", .table [("token", .string "default")])]
  keys := by decide

/-- Configuration that says where a registry is. -/
def indexConfig : FileConfig where
  val :=
    .table [("registries", .table [("mine", .table [("index", .string "url" ".")] ".")] ".")] "."
  property := by
    have hmine : (ConfigValue.table [("index", .string "url" ".")] ".").Wf :=
      .table "." (List.nodup_singleton _) fun e he => List.mem_singleton.mp he ▸ .string _ _
    have hregistries : (ConfigValue.table [("mine", _)] ".").Wf :=
      .table "." (List.nodup_singleton _) fun e he => List.mem_singleton.mp he ▸ hmine
    exact .table "." (List.nodup_singleton _) fun e he => List.mem_singleton.mp he ▸ hregistries

/-- A second login to one registry and then one to another each replace an older token. -/
theorem undisturbed_second_login :
    Undisturbed indexConfig tokensFile "new" (some "mine") ∧
      ∃ after, loadCredentials indexConfig
          (logins tokensFile [("new", some "mine"), ("newer", none)]) = .ok after ∧
        after.view (tokenKey (some "mine")) = some (.string "new" Credentials.path) ∧
        after.view (tokenKey none) = some (.string "newer" Credentials.path) := by
  have hfirst : SavesCleanly indexConfig tokensFile "new" (some "mine") :=
    .of_entry "old" ⟨_, rfl⟩ rfl rfl
  have hsecond : SavesCleanly indexConfig (saveCredentials tokensFile "new" (some "mine")) "newer"
      none :=
    .of_entry "default" ⟨_, rfl⟩ rfl rfl
  have hlogins := undisturbed_iff indexConfig tokensFile _ rfl
  obtain ⟨after, hafter, htokens⟩ := hlogins.2 [("new", some "mine"), ("newer", none)]
    ⟨hfirst, hsecond, trivial⟩
  exact ⟨(hlogins.1 "new" (some "mine")).mpr hfirst, after, hafter, htokens (some "mine"),
    htokens none⟩

/-- A file that has the token of one registry. -/
def tokenFile (registry token : String) : Credentials where
  entries := [("registries", .table [(registry, .table [("token", .string token)])])]
  keys := List.nodup_singleton _

/-- No configuration files. -/
def noConfig : FileConfig :=
  ⟨.table [] ".", .table "." List.nodup_nil nofun⟩

/-- A login to another registry loses the token. -/
theorem login_loses_token :
    ∃ before after, loadCredentials noConfig (tokenFile "mine" "old") = .ok before ∧
      loadCredentials noConfig (saveCredentials (tokenFile "mine" "old") "new" (some "other")) =
        .ok after ∧
      before.view (tokenKey (some "mine")) = some (.string "old" Credentials.path) ∧
      after.view (tokenKey (some "mine")) = none :=
  ⟨_, _, rfl, rfl, rfl, rfl⟩

end Cargo.Util
