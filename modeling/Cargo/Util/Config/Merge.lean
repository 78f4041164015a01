import Cargo.Util.Config
import Mathlib.Data.List.Lookmap
import Mathlib.Tactic.Common

/-!
# Merging configuration

Values can be merged if they have the same shape at every path of keys that both have. Then the
result has at each path what the first of them has, except for lists, which are joined.

## Main definitions

* `Compatible` — no path of keys has different shapes
* `joined` — what several files make of a path of keys
* `Same` — the same up to the order in which tables are iterated over

## Main results

* `view_merge`, `exists_merge_iff` — one merge
* `exists_mergeAll_iff`, `view_mergeAll` — any number of files
* `mem_walkTree`, `loadValuesFrom_eq_joined` — the files of a directory
* `merge_assoc`, `merge_same`
-/

set_option autoImplicit false

namespace Cargo.Util.ConfigValue

open Cargo.Math

/-- Induction from the values of a table to the table. -/
theorem induction {P : ConfigValue → Prop} (hinteger : ∀ i path, P (.integer i path))
    (hstring : ∀ s path, P (.string s path)) (hboolean : ∀ b path, P (.boolean b path))
    (hlist : ∀ l path, P (.list l path))
    (htable : ∀ entries path, (∀ e ∈ entries, P e.2) → P (.table entries path))
    (v : ConfigValue) : P v := by
  apply @ConfigValue.rec P (fun entries => ∀ e ∈ entries, P e.2) (fun e => P e.2)
  · exact hinteger
  · exact hstring
  · exact hboolean
  · exact hlist
  · exact fun entries path h => htable entries path h
  · exact fun e he => absurd he List.not_mem_nil
  · intro e entries he hentries e' he'
    rcases List.mem_cons.mp he' with rfl | he'
    · exact he
    · exact hentries e' he'
  · exact fun _ _ h => h

/-! ### The entries of a table -/

/-- What comes of a key: its value in one of the tables, or both of them merged. -/
inductive Merged : Option ConfigValue → Option ConfigValue → Option ConfigValue → Prop
  | old (v : Option ConfigValue) : Merged v none v
  | new (v : Option ConfigValue) : Merged none v v
  | both {v w r : ConfigValue} (h : merge v w = .ok r) : Merged (some v) (some w) (some r)

theorem Merged.eq_of_none {v r : Option ConfigValue} (h : Merged v none r) : r = v := by
  cases h with
  | old => rfl
  | new => rfl

/-- Each key of merged tables has its value in one of them, or both of them merged. -/
theorem merged_of_mergeEntries {new : List (String × ConfigValue)} (hnew : Assoc.Keys new)
    {old r : List (String × ConfigValue)} (h : mergeEntries old new = .ok r) (k : String) :
    Merged (old.lookup k) (new.lookup k) (r.lookup k) := by
  induction new generalizing old with
  | nil =>
    rw [mergeEntries, Except.ok.injEq] at h
    rw [h]
    exact .old _
  | cons e new ih =>
    obtain ⟨key, value⟩ := e
    rw [Assoc.Keys, List.map_cons, List.nodup_cons] at hnew
    have hkey : new.lookup key = none := Assoc.lookup_eq_none_iff.mpr hnew.1
    rw [Assoc.lookup_cons]
    rw [mergeEntries] at h
    cases hlookup : old.lookup key with
    | none =>
      simp only [hlookup] at h
      have hrest := ih hnew.2 h
      rw [Assoc.lookup_concat] at hrest
      by_cases hk : k = key
      · subst hk
        -- the rest does not have this key, so that its value stays
        rw [hkey, hlookup, Option.none_or, if_pos rfl] at hrest
        rw [hlookup, hrest.eq_of_none, if_pos rfl]
        exact .new _
      · simpa [hk] using hrest
    | some entry =>
      simp only [hlookup] at h
      cases hmerge : merge entry value with
      | error e =>
        simp only [hmerge] at h
        cases h
      | ok merged =>
        simp only [hmerge] at h
        have hrest := ih hnew.2 h
        rw [Assoc.lookup_set] at hrest
        by_cases hk : k = key
        · subst hk
          rw [hkey, hlookup, if_pos rfl, Option.map_some] at hrest
          rw [hlookup, hrest.eq_of_none, if_pos rfl]
          exact .both hmerge
        · simpa [hk] using hrest

/-- Tables can be merged if the values of the keys they share can. -/
theorem exists_mergeEntries {new : List (String × ConfigValue)} (hnew : Assoc.Keys new)
    {old : List (String × ConfigValue)}
    (h : ∀ k v w, old.lookup k = some v → new.lookup k = some w → ∃ r, merge v w = .ok r) :
    ∃ r, mergeEntries old new = .ok r := by
  induction new generalizing old with
  | nil => exact ⟨old, by rw [mergeEntries]⟩
  | cons e new ih =>
    obtain ⟨key, value⟩ := e
    rw [Assoc.Keys, List.map_cons, List.nodup_cons] at hnew
    have hkey : new.lookup key = none := Assoc.lookup_eq_none_iff.mpr hnew.1
    have hrest : ∀ k v w, k ≠ key → old.lookup k = some v → new.lookup k = some w →
        ∃ r, merge v w = .ok r := by
      intro k v w hk hv hw
      exact h k v w hv (by rw [Assoc.lookup_cons, if_neg hk, hw])
    rw [mergeEntries]
    cases hlookup : old.lookup key with
    | none =>
      apply ih hnew.2
      intro k v w hv hw
      by_cases hk : k = key
      · rw [hk, hkey] at hw
        cases hw
      · rw [Assoc.lookup_concat, if_neg hk, Option.or_none] at hv
        exact hrest k v w hk hv hw
    | some entry =>
      obtain ⟨merged, hmerge⟩ := h key entry value hlookup (by rw [Assoc.lookup_cons, if_pos rfl])
      simp only [hmerge]
      apply ih hnew.2
      intro k v w hv hw
      by_cases hk : k = key
      · rw [hk, hkey] at hw
        cases hw
      · rw [Assoc.lookup_set, if_neg hk] at hv
        exact hrest k v w hk hv hw

theorem keys_mergeEntries {new old r : List (String × ConfigValue)} (hold : Assoc.Keys old)
    (h : mergeEntries old new = .ok r) : Assoc.Keys r := by
  induction new generalizing old with
  | nil =>
    rw [mergeEntries, Except.ok.injEq] at h
    exact h ▸ hold
  | cons e new ih =>
    obtain ⟨key, value⟩ := e
    rw [mergeEntries] at h
    cases hlookup : old.lookup key with
    | none =>
      simp only [hlookup] at h
      exact ih (Assoc.keys_concat hold hlookup) h
    | some entry =>
      simp only [hlookup] at h
      cases hmerge : merge entry value with
      | error e =>
        simp only [hmerge] at h
        cases h
      | ok merged =>
        simp only [hmerge] at h
        refine ih ?_ h
        rw [Assoc.Keys, Assoc.keys_set]
        exact hold

/-- What merging comes to: the first of two scalars, two lists joined, or the tables merged. -/
theorem merge_cases {a b r : ConfigValue} (h : merge a b = .ok r) :
    (a.node.shape = .scalar ∧ b.node.shape = .scalar ∧ r = a) ∨
      (∃ old new path path', a = .list old path ∧ b = .list new path' ∧
        r = .list (old ++ new) path) ∨
      ∃ old new path path' entries, a = .table old path ∧ b = .table new path' ∧
        mergeEntries old new = .ok entries ∧ r = .table entries path := by
  cases a with
  | list old path =>
    cases b with
    | list new path' =>
      rw [merge, Except.ok.injEq] at h
      exact .inr (.inl ⟨old, new, path, path', rfl, rfl, h.symm⟩)
    | _ => cases h
  | table old path =>
    cases b with
    | table new path' =>
      rw [merge] at h
      cases hentries : mergeEntries old new with
      | error e =>
        rw [hentries] at h
        cases h
      | ok entries =>
        rw [hentries] at h
        exact .inr (.inr ⟨old, new, path, path', entries, rfl, rfl, hentries,
          (Except.ok.inj h).symm⟩)
    | _ => cases h
  | integer i path | string s path | boolean s path =>
    cases b with
    | list new path' | table new path' => cases h
    | _ => exact .inl ⟨rfl, rfl, (Except.ok.inj h).symm⟩

theorem merge_of_scalar {a b : ConfigValue} (ha : a.node.shape = .scalar)
    (hb : b.node.shape = .scalar) : merge a b = .ok a := by
  cases a with
  | list old path | table old path => cases ha
  | integer i path | string s path | boolean s path =>
    cases b with
    | list new path' | table new path' => cases hb
    | _ => rfl

/-! ### Paths of keys -/

/-- At no path of keys do the values have different shapes. -/
def Compatible (a b : ConfigValue) : Prop :=
  ∀ p n m, a.view p = some n → b.view p = some m → n.shape = m.shape

/-- Two nodes of the same shape: lists are joined, else the first counts. -/
def Node.join : Node → Node → Node
  | .list old path, .list new _ => .list (old ++ new) path
  | old, _ => old

/-- What two values make of a path of keys. -/
def joinViews : Option Node → Option Node → Option Node
  | none, m => m
  | n, none => n
  | some n, some m => some (n.join m)

theorem view_table_cons (entries : List (String × ConfigValue)) (path k : String)
    (p : List String) :
    (ConfigValue.table entries path).view (k :: p) = (entries.lookup k).bind (view · p) := rfl

/-- Only tables have something below. -/
theorem view_cons_of_shape {v : ConfigValue} (h : v.node.shape ≠ .table) (k : String)
    (p : List String) : v.view (k :: p) = none := by
  cases v with
  | table entries path => exact absurd rfl h
  | _ => rfl

theorem Node.join_of_scalar {n m : Node} (h : n.shape = .scalar) : n.join m = n := by
  cases n with
  | list l path => cases h
  | table path => cases h
  | _ => rfl

theorem Wf.of_table {entries : List (String × ConfigValue)} {path : String}
    (h : (ConfigValue.table entries path).Wf) :
    Assoc.Keys entries ∧ ∀ e ∈ entries, e.2.Wf := by
  cases h with
  | table path hkeys hvalues => exact ⟨hkeys, hvalues⟩

/-- A merged value has at each path of keys what the two values make of it. -/
theorem view_merge {a b r : ConfigValue} (hb : b.Wf) (h : merge a b = .ok r) (p : List String) :
    r.view p = joinViews (a.view p) (b.view p) := by
  induction p generalizing a b r with
  | nil =>
    change some r.node = some (a.node.join b.node)
    rcases merge_cases h with ⟨hshape, -, rfl⟩ | ⟨_, _, _, _, rfl, rfl, rfl⟩ |
      ⟨_, _, _, _, _, rfl, rfl, -, rfl⟩
    · rw [Node.join_of_scalar hshape]
    · rfl
    · rfl
  | cons k p ih =>
    rcases merge_cases h with ⟨hshape, hshape', rfl⟩ | ⟨_, _, _, _, rfl, rfl, rfl⟩ |
      ⟨old, new, path, path', entries, rfl, rfl, hentries, rfl⟩
    · rw [view_cons_of_shape (by simp [hshape]), view_cons_of_shape (by simp [hshape'])]
      rfl
    · rfl
    · obtain ⟨hkeys, hvalues⟩ := hb.of_table
      rw [view_table_cons, view_table_cons, view_table_cons]
      have hmerged := merged_of_mergeEntries hkeys hentries k
      generalize hold : old.lookup k = v at hmerged ⊢
      generalize hnew : new.lookup k = w at hmerged ⊢
      generalize entries.lookup k = x at hmerged ⊢
      cases hmerged with
      | old =>
        rw [Option.bind_none]
        cases v.bind (view · p) <;> rfl
      | new => rfl
      | both hmerge =>
        rw [Option.bind_some, Option.bind_some, Option.bind_some]
        exact ih (hvalues _ (Assoc.mem_of_lookup hnew)) hmerge

/-- Values can be merged exactly if they are compatible. -/
theorem exists_merge_iff {a b : ConfigValue} (hb : b.Wf) :
    (∃ r, merge a b = .ok r) ↔ Compatible a b := by
  constructor
  · rintro ⟨r, h⟩ p
    -- along the path: what was merged above has both sides below
    induction p generalizing a b r with
    | nil =>
      intro n m hn hm
      cases hn
      cases hm
      rcases merge_cases h with ⟨hshape, hshape', -⟩ | ⟨_, _, _, _, rfl, rfl, -⟩ |
        ⟨_, _, _, _, _, rfl, rfl, -, -⟩
      · rw [hshape, hshape']
      · rfl
      · rfl
    | cons k p ih =>
      intro n m hn hm
      rcases merge_cases h with ⟨hshape, -, -⟩ | ⟨_, _, _, _, rfl, rfl, -⟩ |
        ⟨old, new, path, path', entries, rfl, rfl, hentries, rfl⟩
      · rw [view_cons_of_shape (by simp [hshape])] at hn
        cases hn
      · cases hn
      · obtain ⟨hkeys, hvalues⟩ := hb.of_table
        rw [view_table_cons, Option.bind_eq_some_iff] at hn hm
        obtain ⟨v, hv, hn⟩ := hn
        obtain ⟨w, hw, hm⟩ := hm
        have hmerged := merged_of_mergeEntries hkeys hentries k
        rw [hv, hw] at hmerged
        generalize entries.lookup k = x at hmerged
        cases hmerged with
        | both hmerge => exact ih (hvalues _ (Assoc.mem_of_lookup hw)) _ hmerge n m hn hm
  · intro h
    -- along the value that is merged in
    induction b using induction generalizing a with
    | htable new path' ih =>
      have hshape : a.node.shape = .table := h [] _ _ rfl rfl
      cases a with
      | table old path =>
        obtain ⟨hkeys, hvalues⟩ := hb.of_table
        obtain ⟨entries, hentries⟩ : ∃ entries, mergeEntries old new = .ok entries := by
          apply exists_mergeEntries hkeys
          intro k v w hv hw
          have hmem := Assoc.mem_of_lookup hw
          apply ih (k, w) hmem (hvalues _ hmem)
          intro p n m hn hm
          apply h (k :: p)
          · rw [view_table_cons, hv]
            exact hn
          · rw [view_table_cons, hw]
            exact hm
        exact ⟨.table entries path, by rw [merge, hentries]; rfl⟩
      | _ => cases hshape
    | hlist new path' =>
      have hshape : a.node.shape = .list := h [] _ _ rfl rfl
      cases a with
      | list old path => exact ⟨_, rfl⟩
      | _ => cases hshape
    | hinteger i path' | hstring s path' | hboolean b path' =>
      have hshape : a.node.shape = .scalar := h [] _ _ rfl rfl
      exact ⟨a, merge_of_scalar hshape rfl⟩

/-- Merging lists no key twice. -/
theorem Wf.merge {a b r : ConfigValue} (ha : a.Wf) (hb : b.Wf) (h : merge a b = .ok r) : r.Wf := by
  induction b using induction generalizing a r with
  | htable new path' ih =>
    rcases merge_cases h with ⟨-, -, rfl⟩ | ⟨_, _, _, _, rfl, -, rfl⟩ |
      ⟨old, _, path, _, entries, rfl, heq, hentries, rfl⟩
    · exact ha
    · exact .list _ _
    · cases heq
      obtain ⟨hkeys, hvalues⟩ := hb.of_table
      obtain ⟨hkeys', hvalues'⟩ := ha.of_table
      have hentriesKeys := keys_mergeEntries hkeys' hentries
      refine .table path hentriesKeys ?_
      rintro ⟨k, x⟩ hx
      have hlookup := (Assoc.lookup_eq_some_iff hentriesKeys).mpr hx
      have hmerged := merged_of_mergeEntries hkeys hentries k
      rw [hlookup] at hmerged
      generalize hold : old.lookup k = v at hmerged
      generalize hnew : new.lookup k = w at hmerged
      cases hmerged with
      | old => exact hvalues' _ (Assoc.mem_of_lookup hold)
      | new => exact hvalues _ (Assoc.mem_of_lookup hnew)
      | @both v w _ hmerge =>
        exact ih (k, w) (Assoc.mem_of_lookup hnew) (hvalues' _ (Assoc.mem_of_lookup hold))
          (hvalues _ (Assoc.mem_of_lookup hnew)) hmerge
  | hlist new path' | hinteger i path' | hstring s path' | hboolean b path' =>
    rcases merge_cases h with ⟨-, -, rfl⟩ | ⟨_, _, _, _, rfl, -, rfl⟩ |
      ⟨_, _, _, _, _, rfl, heq, -, -⟩
    · exact ha
    · exact .list _ _
    · cases heq

/-! ### Any number of files -/

theorem Node.shape_join (n m : Node) : (n.join m).shape = n.shape := by
  cases n <;> cases m <;> rfl

/-- A merged value is compatible with what both are compatible with. -/
theorem compatible_merge_left {a b r c : ConfigValue} (hb : b.Wf) (h : merge a b = .ok r) :
    Compatible r c ↔ Compatible a c ∧ Compatible b c := by
  have hab := (exists_merge_iff hb).mp ⟨r, h⟩
  constructor
  · intro hrc
    constructor
    · intro p n k hn hk
      cases hm : b.view p with
      | none => exact hrc p n k (by rw [view_merge hb h, hn, hm]; rfl) hk
      | some m =>
        rw [← Node.shape_join n m]
        exact hrc p _ k (by rw [view_merge hb h, hn, hm]; rfl) hk
    · intro p m k hm hk
      cases hn : a.view p with
      | none => exact hrc p m k (by rw [view_merge hb h, hn, hm]; rfl) hk
      | some n =>
        rw [← hab p n m hn hm, ← Node.shape_join n m]
        exact hrc p _ k (by rw [view_merge hb h, hn, hm]; rfl) hk
  · rintro ⟨hac, hbc⟩ p x k hx hk
    rw [view_merge hb h] at hx
    cases hn : a.view p with
    | none =>
      rw [hn] at hx
      exact hbc p x k hx hk
    | some n =>
      cases hm : b.view p with
      | none =>
        rw [hn, hm] at hx
        rw [← Option.some.inj hx]
        exact hac p n k hn hk
      | some m =>
        rw [hn, hm] at hx
        rw [← Option.some.inj hx, Node.shape_join]
        exact hac p n k hn hk

theorem Compatible.symm {a b : ConfigValue} (h : Compatible a b) : Compatible b a :=
  fun p n m hn hm => (h p m n hm hn).symm

/-- Files can be merged exactly if no two of them give a path of keys different shapes. -/
theorem exists_mergeAll_iff (v : ConfigValue) (vs : List FileConfig) :
    (∃ r, mergeAll v vs = .ok r) ↔ (v :: vs.map Subtype.val).Pairwise Compatible := by
  induction vs generalizing v with
  | nil => exact ⟨fun _ => List.pairwise_singleton _ _, fun _ => ⟨v, rfl⟩⟩
  | cons w vs ih =>
    have hstep : (∃ r, mergeAll v (w :: vs) = .ok r) ↔
        ∃ m, merge v w.1 = .ok m ∧ ∃ r, mergeAll m vs = .ok r := by
      rw [mergeAll, List.foldlM_cons]
      cases merge v w.1 with
      | error e => simp [bind, Except.bind]
      | ok m => simp [bind, Except.bind, mergeAll]
    rw [hstep, List.map_cons, List.pairwise_cons, List.pairwise_cons, List.forall_mem_cons]
    constructor
    · rintro ⟨m, hm, hr⟩
      have hpairs := (ih m).mp hr
      rw [List.pairwise_cons] at hpairs
      have hboth : ∀ x ∈ vs.map Subtype.val, Compatible v x ∧ Compatible w.1 x :=
        fun x hx => (compatible_merge_left w.2 hm).mp (hpairs.1 x hx)
      exact ⟨⟨(exists_merge_iff w.2).mp ⟨m, hm⟩, fun x hx => (hboth x hx).1⟩,
        fun x hx => (hboth x hx).2, hpairs.2⟩
    · rintro ⟨⟨hvw, hv⟩, hw, hvs⟩
      obtain ⟨m, hm⟩ := (exists_merge_iff w.2).mpr hvw
      refine ⟨m, hm, (ih m).mpr ?_⟩
      rw [List.pairwise_cons]
      exact ⟨fun x hx => (compatible_merge_left w.2 hm).mpr ⟨hv x hx, hw x hx⟩, hvs⟩

/-- The items of a list. -/
def Node.items : Node → List (String × String)
  | .list l _ => l
  | _ => []

/-- What several files make of a path of keys, given what each of them has there: lists are
joined, in the order of the files, and else the first counts. -/
def joined : List Node → Option Node
  | [] => none
  | .list l path :: ns => some (.list (l ++ ns.flatMap Node.items) path)
  | n :: _ => some n

theorem joined_cons_join (n m : Node) (ns : List Node) :
    joined (n.join m :: ns) = joined (n :: m :: ns) := by
  cases n with
  | list l path =>
    cases m with
    | list l' path' => simp [Node.join, joined, Node.items]
    | _ => simp [Node.join, joined, Node.items]
  | _ => rfl

theorem joined_joinViews (x y : Option Node) (ns : List Node) :
    joined ((joinViews x y).toList ++ ns) = joined (x.toList ++ (y.toList ++ ns)) := by
  cases x with
  | none => rfl
  | some n =>
    cases y with
    | none => rfl
    | some m => exact joined_cons_join n m ns

/-- Merged files have at each path of keys what they make of it. -/
theorem view_mergeAll {v r : ConfigValue} {vs : List FileConfig} (h : mergeAll v vs = .ok r)
    (p : List String) :
    r.view p = joined ((v :: vs.map Subtype.val).filterMap (view · p)) := by
  have hcons : ∀ (v : ConfigValue) (vs : List ConfigValue),
      (v :: vs).filterMap (view · p) = (v.view p).toList ++ vs.filterMap (view · p) := by
    intro v vs
    rw [List.filterMap_cons]
    cases v.view p <;> rfl
  induction vs generalizing v with
  | nil =>
    cases h
    rw [List.map_nil, hcons, List.filterMap_nil, List.append_nil]
    cases hv : r.view p with
    | none => rfl
    | some n => cases n <;> simp [joined]
  | cons w vs ih =>
    rw [mergeAll, List.foldlM_cons] at h
    cases hm : merge v w.1 with
    | error e =>
      rw [hm] at h
      cases h
    | ok m =>
      rw [hm] at h
      rw [ih h, hcons, view_merge w.2 hm, joined_joinViews, List.map_cons, hcons, hcons]

/-! ### Loading -/

section

variable {ancestors : List String} {home : String} {isFile : String → Bool}

/-- The files are those of the directories above and the one in the home directory. -/
theorem mem_walkTree {file : String} :
    file ∈ walkTree ancestors home isFile ↔ isFile file = true ∧
      (file = home ++ "/config" ∨ ∃ current ∈ ancestors, file = current ++ "/.cargo/config") := by
  have hstash : file ∈ (ancestors.map fun current => current ++ "/.cargo/config").filter isFile ↔
      isFile file = true ∧ ∃ current ∈ ancestors, file = current ++ "/.cargo/config" := by
    rw [List.mem_filter, List.mem_map, and_comm]
    exact and_congr_right' (exists_congr fun _ => and_congr_right' eq_comm)
  rw [walkTree]
  split
  · rename_i hconfig
    rw [List.mem_append, hstash, List.mem_singleton]
    constructor
    · rintro (⟨hfile, habove⟩ | rfl)
      · exact ⟨hfile, .inr habove⟩
      · exact ⟨hconfig.2, .inl rfl⟩
    · rintro ⟨hfile, rfl | habove⟩
      · exact .inr rfl
      · exact .inl ⟨hfile, habove⟩
  · rename_i hconfig
    constructor
    · exact fun h => (hstash.mp h).imp_right .inr
    · rintro ⟨hfile, rfl | habove⟩
      · by_contra hnot
        exact hconfig ⟨hnot, hfile⟩
      · exact hstash.mpr ⟨hfile, habove⟩

/-- No file is merged twice, so no item of a list is doubled. -/
theorem nodup_walkTree (h : ancestors.Nodup) : (walkTree ancestors home isFile).Nodup := by
  have hstash : ((ancestors.map fun current => current ++ "/.cargo/config").filter isFile).Nodup :=
    (h.map fun _ _ heq => (String.append_left_inj _).mp heq).filter _
  rw [walkTree]
  split
  · rename_i hconfig
    refine hstash.append (List.nodup_singleton _) fun file hfile hhome => hconfig.1 ?_
    exact List.mem_singleton.mp hhome ▸ hfile
  · exact hstash

end

/-- Files, each of which is a table, can be loaded unless two of them give a path of keys different
shapes. A key of the configuration is what the files make of it, the nearest first. -/
theorem loadValuesFrom_eq_joined {files : List FileConfig}
    (htable : ∀ file ∈ files, file.1.node.shape = .table) :
    ((∃ r, loadValuesFrom files = .ok r) ↔ files.Pairwise fun a b => Compatible a.1 b.1) ∧
      ∀ r, loadValuesFrom files = .ok r → ∀ k q,
        r.view (k :: q) = joined (files.filterMap fun file => file.1.view (k :: q)) := by
  constructor
  · rw [loadValuesFrom, exists_mergeAll_iff, List.pairwise_cons, List.pairwise_map, and_iff_right]
    intro v hv q n m hn hm
    obtain ⟨file, hfile, rfl⟩ := List.mem_map.mp hv
    cases q with
    | nil =>
      cases hn
      cases hm
      exact (htable file hfile).symm
    | cons k q => cases hn
  · intro r hr k q
    rw [view_mergeAll hr, List.filterMap_cons, List.filterMap_map]
    rfl

/-! ### Laws -/

/-- The same value, whatever the order in which tables are iterated over. -/
def Same (a b : ConfigValue) : Prop :=
  ∀ p, a.view p = b.view p

/-- Both fail, or both give the same value. -/
def SameOutcome (x y : Except MergeError ConfigValue) : Prop :=
  ((∃ r, x = .ok r) ↔ ∃ r, y = .ok r) ∧ ∀ a b, x = .ok a → y = .ok b → Same a b

theorem Same.compatible {a a' b b' : ConfigValue} (ha : Same a a') (hb : Same b b')
    (h : Compatible a b) : Compatible a' b' :=
  fun p n m hn hm => h p n m ((ha p).trans hn) ((hb p).trans hm)

theorem Same.symm {a b : ConfigValue} (h : Same a b) : Same b a := fun p => (h p).symm

/-- Merging does not depend on the order in which tables are iterated over. -/
theorem merge_same {a a' b b' : ConfigValue} (hb : b.Wf) (hb' : b'.Wf) (ha : Same a a')
    (hsame : Same b b') : SameOutcome (merge a b) (merge a' b') := by
  constructor
  · rw [exists_merge_iff hb, exists_merge_iff hb']
    exact ⟨ha.compatible hsame, ha.symm.compatible hsame.symm⟩
  · intro r r' hr hr' p
    rw [view_merge hb hr, view_merge hb' hr', ha p, hsame p]

theorem joinViews_assoc {x y z : Option Node}
    (hxy : ∀ n m, x = some n → y = some m → n.shape = m.shape)
    (hyz : ∀ m k, y = some m → z = some k → m.shape = k.shape) :
    joinViews (joinViews x y) z = joinViews x (joinViews y z) := by
  cases x with
  | none => rfl
  | some n =>
    cases y with
    | none => cases z <;> rfl
    | some m =>
      cases z with
      | none => rfl
      | some k =>
        have hn := hxy n m rfl rfl
        have hm := hyz m k rfl rfl
        change some ((n.join m).join k) = some (n.join (m.join k))
        cases n with
        | list l path =>
          cases m with
          | list l' path' =>
            cases k with
            | list l'' path'' => simp [Node.join]
            | _ => cases hm
          | _ => cases hn
        | _ => rfl

/-- Merging is associative, errors included. -/
theorem merge_assoc {a b c : ConfigValue} (hb : b.Wf) (hc : c.Wf) :
    SameOutcome (merge a b >>= fun ab => merge ab c) (merge b c >>= fun bc => merge a bc) := by
  have hleft : ∀ r, (merge a b >>= fun ab => merge ab c) = .ok r ↔
      ∃ ab, merge a b = .ok ab ∧ merge ab c = .ok r := by
    intro r
    cases merge a b with
    | error e => simp [bind, Except.bind]
    | ok ab => simp [bind, Except.bind]
  have hright : ∀ r, (merge b c >>= fun bc => merge a bc) = .ok r ↔
      ∃ bc, merge b c = .ok bc ∧ merge a bc = .ok r := by
    intro r
    cases merge b c with
    | error e => simp [bind, Except.bind]
    | ok bc => simp [bind, Except.bind]
  constructor
  · constructor
    · rintro ⟨r, hr⟩
      obtain ⟨ab, hab, habc⟩ := (hleft r).mp hr
      -- either way merging succeeds if the three have pairwise compatible shapes
      obtain ⟨hac, hbc⟩ := (compatible_merge_left hb hab).mp ((exists_merge_iff hc).mp ⟨r, habc⟩)
      obtain ⟨bc, hbc'⟩ := (exists_merge_iff hc).mpr hbc
      have hcompatible : Compatible a bc := by
        apply Compatible.symm
        rw [compatible_merge_left hc hbc']
        exact ⟨((exists_merge_iff hb).mp ⟨ab, hab⟩).symm, hac.symm⟩
      obtain ⟨r', hr'⟩ := (exists_merge_iff (hb.merge hc hbc')).mpr hcompatible
      exact ⟨r', (hright r').mpr ⟨bc, hbc', hr'⟩⟩
    · rintro ⟨r, hr⟩
      obtain ⟨bc, hbc, habc⟩ := (hright r).mp hr
      have hcompatible := ((exists_merge_iff (hb.merge hc hbc)).mp ⟨r, habc⟩).symm
      obtain ⟨hba, hca⟩ := (compatible_merge_left hc hbc).mp hcompatible
      obtain ⟨ab, hab⟩ := (exists_merge_iff hb).mpr hba.symm
      have habc' : Compatible ab c := (compatible_merge_left hb hab).mpr
        ⟨hca.symm, (exists_merge_iff hc).mp ⟨bc, hbc⟩⟩
      obtain ⟨r', hr'⟩ := (exists_merge_iff hc).mpr habc'
      exact ⟨r', (hleft r').mpr ⟨ab, hab, hr'⟩⟩
  · intro r r' hr hr' p
    obtain ⟨ab, hab, habc⟩ := (hleft r).mp hr
    obtain ⟨bc, hbc, habc'⟩ := (hright r').mp hr'
    rw [view_merge hc habc, view_merge hb hab, view_merge (hb.merge hc hbc) habc',
      view_merge hc hbc]
    apply joinViews_assoc
    · exact (exists_merge_iff hb).mp ⟨ab, hab⟩ p
    · exact (exists_merge_iff hc).mp ⟨bc, hbc⟩ p

/-- The law of merging. Any number of files can be merged unless two of them give a path of keys
different shapes; the result has the first value of a scalar, the lists of all files one after
the other, and the keys of all tables. So merging is associative, and the order in which tables
are iterated over does not matter. -/
theorem merge_law :
    (∀ (v : FileConfig) (vs : List FileConfig),
      ((∃ r, mergeAll v.1 vs = .ok r) ↔ (v :: vs).Pairwise fun a b => Compatible a.1 b.1) ∧
      ∀ r, mergeAll v.1 vs = .ok r →
        ∀ p, r.view p = joined ((v :: vs).filterMap fun file => file.1.view p)) ∧
    (∀ a b c : FileConfig, SameOutcome (merge a.1 b.1 >>= fun ab => merge ab c.1)
      (merge b.1 c.1 >>= fun bc => merge a.1 bc)) ∧
    ∀ a a' b b' : FileConfig, Same a.1 a'.1 → Same b.1 b'.1 →
      SameOutcome (merge a.1 b.1) (merge a'.1 b'.1) := by
  refine ⟨fun v vs => ⟨?_, fun r hr p => ?_⟩, fun a b c => merge_assoc b.2 c.2,
    fun a a' b b' => merge_same b.2 b'.2⟩
  · rw [exists_mergeAll_iff, ← List.map_cons, List.pairwise_map]
  · rw [view_mergeAll hr, ← List.map_cons, List.filterMap_map]
    rfl

/-- The configuration of a project. -/
def projectFile : FileConfig where
  val := .table [("jobs", .integer 4 "a"), ("rustflags", .list [("-g", "a")] "a")] "a"
  property := by
    refine .table "a" (by decide) fun e he => ?_
    rcases List.mem_cons.mp he with rfl | he
    · exact .integer 4 "a"
    · rw [List.mem_singleton.mp he]
      exact .list _ _

/-- The configuration of a user. -/
def userFile : FileConfig where
  val := .table [("rustflags", .list [("-O", "b")] "b"), ("jobs", .string "8" "b")] "b"
  property := by
    refine .table "b" (by decide) fun e he => ?_
    rcases List.mem_cons.mp he with rfl | he
    · exact .list _ _
    · rw [List.mem_singleton.mp he]
      exact .string "8" "b"

/-- The flags of both files are joined, and the number of jobs is that of the project. -/
theorem merge_law_project :
    ∃ r, mergeAll projectFile.1 [userFile] = .ok r ∧
      r.view ["rustflags"] = some (.list [("-g", "a"), ("-O", "b")] "a") ∧
      r.view ["jobs"] = some (.integer 4 "a") := by
  have hlaw := (merge_law.1 projectFile [userFile]).2 _ rfl
  exact ⟨_, rfl, (hlaw ["rustflags"]).trans (by decide), (hlaw ["jobs"]).trans (by decide)⟩

end Cargo.Util.ConfigValue
