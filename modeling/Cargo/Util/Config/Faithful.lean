import Mathlib.Data.String.Basic
import Cargo.Util.Config.Deserialize

/-!
# Tables are read as they are

A key of a table may hold dots of its own. When its value is asked for, these dots are taken for
those between parts, and what is found is what the pieces of the key lead to. So a table is read
as it is exactly if the pieces of every key in it lead to the value that the key has.

## Main definitions

* `ConfigValue.descend` — the value at a path of keys
* `DotsAgree` — the pieces of a key lead to what the key has
* `Config.NoOverrides` — the environment has nothing to say about a key

## Main results

* `deserializeAny_iff` — reading a value of any kind
* `deserializeMap_iff` — reading a table as a map
-/

set_option autoImplicit false

namespace Cargo.Util

open Cargo.Math

/-! ### Pieces of keys -/

theorem dotPieces_of_not_mem {key : String} (h : '.' ∉ key.toList) : dotPieces key = [key] := by
  rw [dotPieces, List.splitOn_eq_singleton h]
  simp

theorem dotPieces_append (a b : String) :
    dotPieces (a ++ "." ++ b) = dotPieces a ++ dotPieces b := by
  have hdot : (a ++ "." ++ b).toList = a.toList ++ '.' :: b.toList := by simp
  rw [dotPieces, hdot, List.splitOn_append_cons_self, List.map_append]
  rfl

theorem dotPieces_ne_nil (key : String) : dotPieces key ≠ [] := by
  rw [dotPieces, ne_eq, List.map_eq_nil_iff]
  exact List.splitOn_ne_nil _ _

/-- The first piece of a key has no dots. -/
theorem exists_dotPieces_eq (key : String) :
    ∃ first rest, dotPieces key = first :: rest ∧ '.' ∉ first.toList := by
  by_cases hdot : '.' ∈ key.toList
  · obtain ⟨front, back, heq, hfront⟩ := List.eq_append_cons_of_mem hdot
    refine ⟨String.ofList front, dotPieces (String.ofList back), ?_, by simpa using hfront⟩
    have hkey : key = String.ofList front ++ "." ++ String.ofList back := by
      rw [← String.toList_inj]
      simpa using heq
    rw [hkey, dotPieces_append, dotPieces_of_not_mem (by simpa using hfront)]
    rfl
  · exact ⟨key, [], dotPieces_of_not_mem hdot, hdot⟩

theorem ConfigKey.toConfig_join {key : ConfigKey} (h : key ≠ []) (next : ConfigKeyPart) :
    (key.join next).toConfig = key.toConfig ++ "." ++ next.toConfig := by
  rw [toConfig, join, List.map_append, List.map_singleton,
    String.intercalate_append_of_ne_nil (by simpa using h) (by simp), String.intercalate_singleton]
  rfl

theorem ConfigKey.toConfig_fromStr (key : String) : (fromStr key).toConfig = key := by
  have hparts : (fromStr key).map ConfigKeyPart.toConfig =
      (key.toList.splitOn '.').map String.ofList := by
    rw [fromStr, List.map_map]
    exact List.map_id _
  rw [toConfig, hparts, ← String.toList_inj, String.toList_intercalate, List.map_map]
  have hid : String.toList ∘ String.ofList = id := by
    funext t
    simp
  rw [hid, List.map_id]
  exact List.intercalate_splitOn '.'

theorem ConfigKey.fromStr_ne_nil (key : String) : fromStr key ≠ [] := by
  rw [fromStr, ne_eq, List.map_eq_nil_iff]
  exact dotPieces_ne_nil key

/-! ### Values at paths -/

namespace ConfigValue

/-- The value at a path of keys. -/
def descend : ConfigValue → List String → Option ConfigValue
  | v, [] => some v
  | table entries _, key :: keys => (entries.lookup key).bind fun v => descend v keys
  | _, _ :: _ => none

theorem descend_table_cons (entries : List (String × ConfigValue)) (path key : String)
    (keys : List String) : (table entries path).descend (key :: keys) =
      (entries.lookup key).bind fun v => v.descend keys := by
  rw [descend]

theorem look_table_cons (entries : List (String × ConfigValue)) (path key : String)
    (keys : List String) : (table entries path).look (key :: keys) =
      (entries.lookup key).bind fun v => v.look keys := by
  rw [look, view]
  cases entries.lookup key <;> rfl

theorem look_nil (v : ConfigValue) : v.look [] = some v.node.content := by
  cases v <;> rfl

theorem look_append (v : ConfigValue) (keys rest : List String) :
    v.look (keys ++ rest) = (v.descend keys).bind fun w => w.look rest := by
  induction keys generalizing v with
  | nil => cases v <;> rfl
  | cons key keys ih =>
    cases v with
    | table entries path =>
      rw [List.cons_append, look_table_cons, descend_table_cons]
      cases entries.lookup key with
      | none => rfl
      | some u => exact ih u
    | _ => rfl

theorem descend_append (v : ConfigValue) (keys rest : List String) :
    v.descend (keys ++ rest) = (v.descend keys).bind fun w => w.descend rest := by
  induction keys generalizing v with
  | nil => cases v <;> rfl
  | cons key keys ih =>
    cases v with
    | table entries path =>
      rw [List.cons_append, descend_table_cons, descend_table_cons]
      cases entries.lookup key with
      | none => rfl
      | some u => exact ih u
    | _ => rfl

theorem height_le_of_lookup {entries : List (String × ConfigValue)} {key : String}
    {v : ConfigValue} (h : entries.lookup key = some v) : v.height ≤ heightEntries entries := by
  induction entries with
  | nil => cases h
  | cons e entries ih =>
    rw [Assoc.lookup_cons] at h
    rw [heightEntries]
    split at h
    · cases h
      exact le_max_left _ _
    · exact (ih h).trans (le_max_right _ _)

theorem height_descend_table_le {entries : List (String × ConfigValue)} {path : String}
    {w : ConfigValue} {keys : List String} (hkeys : keys ≠ [])
    (h : (table entries path).descend keys = some w) : w.height ≤ heightEntries entries := by
  induction keys generalizing entries path with
  | nil => exact absurd rfl hkeys
  | cons key keys ih =>
    rw [descend_table_cons] at h
    obtain ⟨u, hu, hw⟩ := Option.bind_eq_some_iff.mp h
    have hentry := height_le_of_lookup hu
    cases keys with
    | nil =>
      have heq : u = w := by cases u <;> exact Option.some.inj hw
      rw [← heq]
      exact hentry
    | cons key' keys =>
      cases u with
      | table entries' path' =>
        have hle := ih (List.cons_ne_nil _ _) hw
        rw [height] at hentry
        omega
      | _ => cases hw

end ConfigValue

theorem Read.look_map_cons (entries : List (String × Read)) (key : String) (keys : List String) :
    (map entries).look (key :: keys) = (entries.lookup key).bind fun x => x.look keys := by
  rw [look]

theorem Read.look_nil (x : Read) : x.look [] = some x.content := by
  cases x <;> rfl

/-- A map that was read has the entries of a table, and no others. -/
def SameEntries (m : List (String × Read)) (entries : List (String × ConfigValue)) : Prop :=
  ∀ k, (m.lookup k).map Read.look = (entries.lookup k).map ConfigValue.look

theorem look_map_eq_iff {m : List (String × Read)} {entries : List (String × ConfigValue)}
    {path : String} :
    (Read.map m).look = (ConfigValue.table entries path).look ↔ SameEntries m entries := by
  constructor
  · intro h k
    have hk (keys : List String) : ((m.lookup k).bind fun x => x.look keys) =
        (entries.lookup k).bind fun v => v.look keys := by
      rw [← Read.look_map_cons, ← ConfigValue.look_table_cons entries path, h]
    cases hm : m.lookup k with
    | none =>
      cases hv : entries.lookup k with
      | none => rfl
      | some v => simpa [hm, hv, ConfigValue.look_nil] using hk []
    | some x =>
      cases hv : entries.lookup k with
      | none => simpa [hm, hv, Read.look_nil] using hk []
      | some v =>
        refine congrArg some ?_
        funext keys
        simpa [hm, hv] using hk keys
  · intro h
    funext keys
    cases keys with
    | nil => rfl
    | cons k keys =>
      rw [Read.look_map_cons, ConfigValue.look_table_cons]
      have hk := h k
      cases hm : m.lookup k with
      | none =>
        cases hv : entries.lookup k with
        | none => rfl
        | some v => simp [hm, hv] at hk
      | some x =>
        cases hv : entries.lookup k with
        | none => simp [hm, hv] at hk
        | some v =>
          rw [hm, hv] at hk
          exact congrFun (Option.some.inj hk) keys

/-! ### Where the dots lead -/

/-- Wherever a value has an entry, the pieces of its key lead to what the key has. -/
def DotsAgree (look : List String → Option Content) : Prop :=
  ∀ keys k rest, look (keys ++ [k]) ≠ none →
    look (keys ++ dotPieces k ++ rest) = look (keys ++ k :: rest)

/-- What is no table has no keys. -/
theorem DotsAgree.of_no_keys {look : List String → Option Content}
    (hnone : ∀ key keys, look (key :: keys) = none) : DotsAgree look := by
  intro keys k rest hk
  cases keys with
  | nil => exact absurd (hnone k []) hk
  | cons key keys => exact absurd (hnone key (keys ++ [k])) hk

theorem DotsAgree.descend {v w : ConfigValue} {keys : List String} (h : DotsAgree v.look)
    (hw : v.descend keys = some w) : DotsAgree w.look := by
  have hlook (rest : List String) : w.look rest = v.look (keys ++ rest) := by
    rw [ConfigValue.look_append, hw]
    rfl
  intro keys' k rest hk
  rw [hlook] at hk
  have hv := h (keys ++ keys') k rest (by rw [List.append_assoc]; exact hk)
  rw [hlook, hlook, ← List.append_assoc, ← List.append_assoc, ← List.append_assoc]
  exact hv

/-- The dots agree in a table if they do for its own keys and in its values. -/
theorem dotsAgree_table_iff {entries : List (String × ConfigValue)} {path : String} :
    DotsAgree (ConfigValue.table entries path).look ↔
      ∀ k v, entries.lookup k = some v → DotsAgree v.look ∧
        ∃ w, (ConfigValue.table entries path).descend (dotPieces k) = some w ∧
          w.look = v.look := by
  constructor
  · intro h k v hv
    -- the key at the top is read with its dots as one key, and along its pieces as a path
    have hdescend : (ConfigValue.table entries path).descend [k] = some v := by
      rw [ConfigValue.descend_table_cons, hv]
      cases v <;> rfl
    refine ⟨h.descend hdescend, ?_⟩
    have hlook (rest : List String) :
        (((ConfigValue.table entries path).descend (dotPieces k)).bind fun w => w.look rest) =
          v.look rest := by
      have hk : (ConfigValue.table entries path).look ([] ++ [k]) ≠ none := by
        rw [List.nil_append, ConfigValue.look_table_cons, hv]
        simp [ConfigValue.look_nil]
      have hagree := h [] k rest hk
      rw [List.nil_append, List.nil_append, ConfigValue.look_append,
        ConfigValue.look_table_cons, hv] at hagree
      exact hagree
    cases hw : (ConfigValue.table entries path).descend (dotPieces k) with
    | none =>
      have hnil := hlook []
      rw [hw, ConfigValue.look_nil] at hnil
      cases hnil
    | some w =>
      refine ⟨w, rfl, ?_⟩
      funext rest
      have hrest := hlook rest
      rw [hw] at hrest
      exact hrest
  · intro h keys k rest hk
    cases keys with
    | nil =>
      rw [List.nil_append, ConfigValue.look_table_cons] at hk
      -- a key at the top, or one further down, which is in a value of the table
      obtain ⟨v, hv⟩ : ∃ v, entries.lookup k = some v := by
        cases hv : entries.lookup k with
        | none => simp [hv] at hk
        | some v => exact ⟨v, rfl⟩
      obtain ⟨-, w, hw, hlook⟩ := h k v hv
      rw [List.nil_append, List.nil_append, ConfigValue.look_append, hw,
        ConfigValue.look_table_cons, hv]
      exact congrFun hlook rest
    | cons key keys =>
      rw [List.cons_append, ConfigValue.look_table_cons] at hk
      obtain ⟨v, hv⟩ : ∃ v, entries.lookup key = some v := by
        cases hv : entries.lookup key with
        | none => simp [hv] at hk
        | some v => exact ⟨v, rfl⟩
      rw [hv] at hk
      rw [List.cons_append, List.cons_append, List.cons_append, ConfigValue.look_table_cons,
        ConfigValue.look_table_cons, hv]
      exact (h key v hv).1 keys k rest hk

/-! ### What is found for a key -/

theorem getPart_eq_ok {v w : ConfigValue} {past parts : List String} :
    Config.getPart v past parts = .ok (some w) ↔ v.descend parts = some w := by
  induction parts generalizing v past with
  | nil => cases v <;> simp [Config.getPart, ConfigValue.descend]
  | cons part parts ih =>
    cases v with
    | table entries path =>
      rw [Config.getPart, ConfigValue.descend_table_cons]
      cases entries.lookup part with
      | none => simp
      | some u => exact ih
    | _ => simp [Config.getPart, ConfigValue.descend]

namespace Config

variable (c : Config)

/-- All values as one table. -/
def root : ConfigValue := .table c.values "."

variable {c}

theorem getCv_eq_ok {key : String} {v : ConfigValue} :
    c.getCv key = .ok (some v) ↔ c.root.descend (dotPieces key) = some v := by
  rw [getCv]
  cases hpieces : dotPieces key with
  | nil => exact absurd hpieces (dotPieces_ne_nil key)
  | cons part parts =>
    rw [root, ConfigValue.descend_table_cons]
    dsimp only
    cases c.values.lookup part with
    | none => simp
    | some u => exact getPart_eq_ok

/-- What is found for a longer key is what is found from there. -/
theorem getCv_join {key : ConfigKey} (hkey : key ≠ []) {v : ConfigValue}
    (hv : c.getCv key.toConfig = .ok (some v)) (k : String) (w : ConfigValue) :
    c.getCv (key.join (.casePart k)).toConfig = .ok (some w) ↔
      v.descend (dotPieces k) = some w := by
  have hk : (ConfigKeyPart.casePart k).toConfig = k := rfl
  rw [getCv_eq_ok] at hv
  rw [getCv_eq_ok, ConfigKey.toConfig_join hkey, dotPieces_append, ConfigValue.descend_append, hv,
    hk, Option.bind_some]

/-- No environment variable is about the value of a key or the values below it. -/
def NoOverrides (c : Config) (key : ConfigKey) : Prop :=
  ∀ e ∈ c.env, e.1 ≠ c.toEnv key ∧ ¬(c.envPattern key).toList <+: e.1.toList

theorem NoOverrides.lookup {key : ConfigKey} (h : c.NoOverrides key) :
    c.env.lookup (c.toEnv key) = none := by
  rw [Assoc.lookup_eq_none_iff]
  intro hmem
  obtain ⟨e, he, hname⟩ := List.mem_map.mp hmem
  exact (h e he).1 hname

theorem NoOverrides.join {key : ConfigKey} (hkey : key ≠ []) (h : c.NoOverrides key)
    (next : ConfigKeyPart) : c.NoOverrides (key.join next) := by
  have henv : c.toEnv (key.join next) = c.envPattern key ++ c.partToEnv next := by
    rw [envPattern, toEnv, toEnv, ConfigKey.join, List.map_append, List.map_singleton,
      String.intercalate_append_of_ne_nil (by simpa using hkey) (by simp),
      String.intercalate_singleton]
    simp only [String.append_assoc]
  intro e he
  refine ⟨?_, ?_⟩
  · intro heq
    refine (h e he).2 ⟨(c.partToEnv next).toList, ?_⟩
    rw [heq, henv, String.toList_append]
  · rintro ⟨rest, hrest⟩
    refine (h e he).2 ⟨(c.partToEnv next ++ "_").toList ++ rest, ?_⟩
    have hpattern : c.envPattern (key.join next) =
        c.envPattern key ++ (c.partToEnv next ++ "_") := by
      rw [envPattern, henv, String.append_assoc]
    rw [← hrest, hpattern]
    simp only [String.toList_append, List.append_assoc]

/-! ### Reading -/

theorem getTable_eq {key : String} {entries : List (String × ConfigValue)} {path : String}
    (h : c.getCv key = .ok (some (.table entries path))) : c.getTable key = .ok (some entries) := by
  rw [getTable, h]
  rfl

theorem mapKeys_eq {key : ConfigKey} {entries : List (String × ConfigValue)} {path : String}
    (h : c.getCv key.toConfig = .ok (some (.table entries path))) (hno : c.NoOverrides key) :
    c.mapKeys key = .ok (entries.map Prod.fst).toFinset := by
  have hnamed : (c.env.map Prod.fst).filter
      (fun name => (c.envPattern key).toList.isPrefixOf name.toList) = [] := by
    rw [List.filter_eq_nil_iff]
    intro name hname hpre
    obtain ⟨e, he, rfl⟩ := List.mem_map.mp hname
    exact (hno e he).2 (List.isPrefixOf_iff_prefix.mp hpre)
  rw [mapKeys, getTable_eq h]
  simp only [bind, Except.bind]
  split
  · rw [hnamed]
    simp
  · rfl

theorem seqAccess_eq {key : ConfigKey} {l : List (String × String)} {path : String}
    (h : c.getCv key.toConfig = .ok (some (.list l path))) (hno : c.NoOverrides key) :
    c.seqAccess key = .ok (l.map Prod.fst) := by
  have hlist : c.getList key.toConfig = .ok (some l) := by
    rw [getList, h]
    rfl
  rw [seqAccess, hlist, hno.lookup]
  simp only [bind, Except.bind]
  split <;> rfl

/-- What a map that was read has for a key. -/
theorem lookup_of_visit {read : String → Except ConfigError Read} {keys : List String}
    {m : List (String × Read)}
    (h : keys.mapM (fun k => (read k).map fun x => (k, x)) = .ok m) (k : String) :
    m.lookup k = if k ∈ keys then (read k).toOption else none := by
  induction mapM_eq_ok.mp h with
  | nil => rfl
  | @cons key e keys m hread htail ih =>
    have hstep := ih (mapM_eq_ok.mpr htail)
    cases hx : read key with
    | error err =>
      rw [hx] at hread
      cases hread
    | ok x =>
      rw [hx] at hread
      cases hread
      rw [Assoc.lookup_cons, hstep]
      by_cases hk : k = key
      · subst hk
        simp [hx, Except.toOption]
      · simp [hk]

/-- A table is read as it is, if and only if each key is read as what it has. -/
theorem visitMap_sameEntries_iff {ho : ConfigKey → SetOrder String}
    {read : ConfigKey → Except ConfigError Read} {key : ConfigKey}
    {entries : List (String × ConfigValue)} :
    (∃ m, visitMap ho read key (entries.map Prod.fst).toFinset = .ok m ∧
      SameEntries m entries) ↔
    ∀ k v, entries.lookup k = some v →
      ∃ x, read (key.join (.casePart k)) = .ok x ∧ x.look = v.look := by
  have hkeys (k : String) : k ∈ (ho key).enum (entries.map Prod.fst).toFinset ↔
      ∃ v, entries.lookup k = some v := by
    rw [SetOrder.mem_enum, List.mem_toFinset, ← Option.ne_none_iff_exists', ne_eq,
      Assoc.lookup_eq_none_iff, not_not]
  constructor
  · rintro ⟨m, hm, hsame⟩ k v hv
    have hmem := (hkeys k).mpr ⟨v, hv⟩
    have hlookup := lookup_of_visit hm k
    rw [if_pos hmem] at hlookup
    have hk := hsame k
    rw [hlookup, hv] at hk
    cases hx : read (key.join (.casePart k)) with
    | error e =>
      rw [hx] at hk
      cases hk
    | ok x =>
      rw [hx] at hk
      exact ⟨x, rfl, Option.some.inj hk⟩
  · intro hentry
    obtain ⟨m, hm⟩ : ∃ m, visitMap ho read key (entries.map Prod.fst).toFinset = .ok m := by
      refine exists_mapM_ok fun k hk => ?_
      obtain ⟨v, hv⟩ := (hkeys k).mp hk
      obtain ⟨x, hx, -⟩ := hentry k v hv
      exact ⟨(k, x), by rw [hx]; rfl⟩
    refine ⟨m, hm, fun k => ?_⟩
    rw [lookup_of_visit hm k]
    cases hv : entries.lookup k with
    | none =>
      rw [if_neg]
      · rfl
      · rintro hmem
        obtain ⟨v, hv'⟩ := (hkeys k).mp hmem
        rw [hv] at hv'
        cases hv'
    | some v =>
      obtain ⟨x, hx, hlook⟩ := hentry k v hv
      rw [if_pos ((hkeys k).mpr ⟨v, hv⟩), hx]
      exact congrArg some hlook

/-- A table is read as it is, if and only if the dots of its keys agree, given that this is so
for all that its keys may lead to. -/
theorem visitMap_iff {ho : ConfigKey → SetOrder String} {read : ConfigKey → Except ConfigError Read}
    {key : ConfigKey} {entries : List (String × ConfigValue)} {path : String}
    (hread : ∀ k w, (ConfigValue.table entries path).descend (dotPieces k) = some w →
      ((∃ x, read (key.join (.casePart k)) = .ok x ∧ x.look = w.look) ↔ DotsAgree w.look))
    (hfound : ∀ k x, read (key.join (.casePart k)) = .ok x →
      ∃ w, (ConfigValue.table entries path).descend (dotPieces k) = some w) :
    (∃ m, visitMap ho read key (entries.map Prod.fst).toFinset = .ok m ∧
      SameEntries m entries) ↔ DotsAgree (ConfigValue.table entries path).look := by
  rw [visitMap_sameEntries_iff, dotsAgree_table_iff]
  constructor
  · intro hentry k v hv
    obtain ⟨x, hx, hlook⟩ := hentry k v hv
    obtain ⟨w, hw⟩ := hfound k x hx
    -- the first piece is a key without dots, and its value is read as it is
    have hagree : DotsAgree w.look := by
      obtain ⟨first, rest, hpieces, hdot⟩ := exists_dotPieces_eq k
      rw [hpieces, ConfigValue.descend_table_cons] at hw
      obtain ⟨u, hu, hw⟩ := Option.bind_eq_some_iff.mp hw
      have hfirst : (ConfigValue.table entries path).descend (dotPieces first) = some u := by
        rw [dotPieces_of_not_mem hdot, ConfigValue.descend_table_cons, hu]
        cases u <;> rfl
      exact ((hread first u hfirst).mp (hentry first u hu)).descend hw
    obtain ⟨x', hx', hlook'⟩ := (hread k w hw).mpr hagree
    cases hx.symm.trans hx'
    have hwv : w.look = v.look := hlook'.symm.trans hlook
    exact ⟨hwv ▸ hagree, w, hw, hwv⟩
  · intro h k v hv
    obtain ⟨hagree, w, hw, hwv⟩ := h k v hv
    rw [← hwv] at hagree ⊢
    exact (hread k w hw).mpr hagree

/-- What is read below a value is found there. -/
theorem found_of_deserializeAny {ho : ConfigKey → SetOrder String} {fuel : ℕ} {key : ConfigKey}
    {v : ConfigValue} (hkey : key ≠ []) (hno : c.NoOverrides key)
    (hv : c.getCv key.toConfig = .ok (some v)) {k : String} {x : Read}
    (h : c.deserializeAny ho fuel (key.join (.casePart k)) = .ok x) :
    ∃ w, v.descend (dotPieces k) = some w := by
  cases fuel with
  | zero => cases h
  | succ fuel =>
    rw [deserializeAny, (hno.join hkey _).lookup] at h
    dsimp only at h
    cases hget : c.getCv (key.join (.casePart k)).toConfig with
    | error e =>
      rw [hget] at h
      cases h
    | ok found =>
      cases found with
      | none =>
        rw [hget] at h
        cases h
      | some w => exact ⟨w, (getCv_join hkey hv k w).mp hget⟩

/-- Reading a value of any kind. -/
theorem deserializeAny_iff {ho : ConfigKey → SetOrder String} {fuel : ℕ} {key : ConfigKey}
    {v : ConfigValue} (hkey : key ≠ []) (hno : c.NoOverrides key)
    (hv : c.getCv key.toConfig = .ok (some v)) (hfuel : v.height < fuel) :
    (∃ x, c.deserializeAny ho fuel key = .ok x ∧ x.look = v.look) ↔ DotsAgree v.look := by
  induction fuel generalizing key v with
  | zero => omega
  | succ fuel ih =>
    rw [deserializeAny, hno.lookup, hv]
    dsimp only
    -- all but tables have nothing below them
    have hleaf : ∀ x : Read, x.look [] = v.look [] → (∀ key keys, x.look (key :: keys) = none) →
        (∀ key keys, v.look (key :: keys) = none) → x.look = v.look := by
      intro x hnil hx hnone
      funext keys
      cases keys with
      | nil => exact hnil
      | cons key keys => rw [hx, hnone]
    cases v with
    | integer i path =>
      exact iff_of_true ⟨_, rfl, hleaf _ rfl (fun _ _ => rfl) fun _ _ => rfl⟩
        (DotsAgree.of_no_keys fun _ _ => rfl)
    | string s path =>
      exact iff_of_true ⟨_, rfl, hleaf _ rfl (fun _ _ => rfl) fun _ _ => rfl⟩
        (DotsAgree.of_no_keys fun _ _ => rfl)
    | boolean b path =>
      exact iff_of_true ⟨_, rfl, hleaf _ rfl (fun _ _ => rfl) fun _ _ => rfl⟩
        (DotsAgree.of_no_keys fun _ _ => rfl)
    | list l path =>
      rw [seqAccess_eq hv hno]
      exact iff_of_true ⟨_, rfl, hleaf _ rfl (fun _ _ => rfl) fun _ _ => rfl⟩
        (DotsAgree.of_no_keys fun _ _ => rfl)
    | table entries path =>
      have hentries : ConfigValue.heightEntries entries < fuel := by
        rw [ConfigValue.height] at hfuel
        omega
      have hvisit : (∃ m, visitMap ho (c.deserializeAny ho fuel) key
          (entries.map Prod.fst).toFinset = .ok m ∧ SameEntries m entries) ↔
          DotsAgree (ConfigValue.table entries path).look := by
        refine visitMap_iff (fun k w hw => ?_) fun k x hx => ?_
        · exact ih (by simp [ConfigKey.join]) (hno.join hkey _) ((getCv_join hkey hv k w).mpr hw)
            ((ConfigValue.height_descend_table_le (dotPieces_ne_nil k) hw).trans_lt hentries)
        · exact found_of_deserializeAny hkey hno hv hx
      rw [mapKeys_eq hv hno, ← hvisit]
      simp only [bind, Except.bind]
      cases visitMap ho (c.deserializeAny ho fuel) key (entries.map Prod.fst).toFinset with
      | error e => simp [Except.mapError, Except.map]
      | ok m => simp [Except.mapError, Except.map, look_map_eq_iff]

/-- A table that the environment says nothing about is read as a map with its entries and no
others, if and only if the dots of its keys agree. -/
theorem deserializeMap_iff (c : Config) (ho : ConfigKey → SetOrder String) (key : String)
    (entries : List (String × ConfigValue)) (path : String)
    (htable : c.getCv key = .ok (some (.table entries path)))
    (hno : c.NoOverrides (.fromStr key)) :
    (∃ m, c.deserializeMap ho (.fromStr key) = .ok m ∧ SameEntries m entries) ↔
      DotsAgree (ConfigValue.table entries path).look := by
  have hkey := ConfigKey.fromStr_ne_nil key
  have hv : c.getCv (ConfigKey.fromStr key).toConfig = .ok (some (.table entries path)) := by
    rw [ConfigKey.toConfig_fromStr]
    exact htable
  have hheight : ConfigValue.heightEntries entries + 1 ≤ ConfigValue.heightEntries c.values := by
    have hle := ConfigValue.height_descend_table_le (dotPieces_ne_nil _) (getCv_eq_ok.mp htable)
    rw [ConfigValue.height] at hle
    exact hle
  rw [deserializeMap, mapKeys_eq hv hno]
  refine visitMap_iff ?_ ?_
  · intro k w hw
    have hle := ConfigValue.height_descend_table_le (dotPieces_ne_nil k) hw
    refine deserializeAny_iff (by simp [ConfigKey.join]) (hno.join hkey _)
      ((getCv_join hkey hv k w).mpr hw) ?_
    rw [fuel]
    omega
  · intro k x hx
    exact found_of_deserializeAny hkey hno hv hx

/-! ### A key with a dot -/

/-- The configuration with one table, and nothing in the environment. -/
def withTable (entries : List (String × ConfigValue)) : Config where
  values := [("alias", .table entries ".cargo/config")]
  env := []
  advancedEnv := false
  toUppercase := id
  tomlList := fun _ _ => .ok []

theorem getCv_withTable (entries : List (String × ConfigValue)) :
    (withTable entries).getCv "alias" = .ok (some (.table entries ".cargo/config")) := by
  rw [getCv_eq_ok, dotPieces_of_not_mem (by decide)]
  rfl

/-- An alias in several files: plain, with a dot, and in a table of its own, where the key with the
dot finds the same value. -/
def aliases : List (String × ConfigValue) :=
  [("b", .string "build" ".cargo/config"), ("t.r", .string "test --release" "/home/.cargo/config"),
    ("t", .table [("r", .string "test --release" ".cargo/config")] ".cargo/config")]

/-- Plain keys are read, and so are a nested table and a key with a dot whose pieces lead to the
same value there. -/
theorem plain_alias_read :
    ∃ m, (withTable aliases).deserializeMap (fun _ => .ascending String) (.fromStr "alias") =
        .ok m ∧ SameEntries m aliases := by
  refine (deserializeMap_iff _ _ "alias" _ ".cargo/config" (getCv_withTable _) nofun).mpr ?_
  have hscalar (s path : String) : DotsAgree (ConfigValue.string s path).look :=
    .of_no_keys fun _ _ => rfl
  have hplain (k : String) (v : ConfigValue) (entries : List (String × ConfigValue)) (path : String)
      (hk : '.' ∉ k.toList) (hv : entries.lookup k = some v) :
      (ConfigValue.table entries path).descend (dotPieces k) = some v := by
    rw [dotPieces_of_not_mem hk, ConfigValue.descend_table_cons, hv]
    cases v <;> rfl
  rw [dotsAgree_table_iff]
  intro k v hv
  have hmem : (k, v) ∈ aliases := Assoc.mem_of_lookup hv
  simp only [aliases, List.mem_cons, List.not_mem_nil, or_false, Prod.mk.injEq] at hmem
  rcases hmem with ⟨rfl, rfl⟩ | ⟨rfl, rfl⟩ | ⟨rfl, rfl⟩
  · exact ⟨hscalar _ _, _, hplain _ _ _ _ (by decide) rfl, rfl⟩
  · have hpieces : dotPieces "t.r" = ["t", "r"] := by decide
    rw [hpieces]
    refine ⟨hscalar _ _, _, rfl, ?_⟩
    funext keys
    cases keys <;> rfl
  · refine ⟨?_, _, hplain _ _ _ _ (by decide) rfl, rfl⟩
    rw [dotsAgree_table_iff]
    intro k v hv
    have hmem := Assoc.mem_of_lookup hv
    rw [List.mem_singleton, Prod.mk.injEq] at hmem
    obtain ⟨rfl, rfl⟩ := hmem
    exact ⟨hscalar _ _, _, hplain _ _ _ _ (by decide) rfl, rfl⟩

/-- A key with a dot is looked for in another table, and its value is not found. -/
theorem dotted_alias_missed :
    (withTable [("b.r", .string "build" ".cargo/config")]).getCv "alias" =
        .ok (some (.table [("b.r", .string "build" ".cargo/config")] ".cargo/config")) ∧
      (withTable [("b.r", .string "build" ".cargo/config")]).NoOverrides (.fromStr "alias") ∧
      ¬∃ m, (withTable [("b.r", .string "build" ".cargo/config")]).deserializeMap
          (fun _ => .ascending String) (.fromStr "alias") = .ok m ∧
        SameEntries m [("b.r", .string "build" ".cargo/config")] := by
  refine ⟨getCv_withTable _, nofun, ?_⟩
  rw [deserializeMap_iff _ _ "alias" _ ".cargo/config" (getCv_withTable _) nofun,
    dotsAgree_table_iff]
  intro h
  obtain ⟨-, w, hw, -⟩ := h "b.r" _ rfl
  have hpieces : dotPieces "b.r" = ["b", "r"] := by decide
  rw [hpieces] at hw
  cases hw

end Config

end Cargo.Util
