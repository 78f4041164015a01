import Cargo.Resolver.Encode

/-!
# Reading a lock file that was written

A resolve is read back from its lock file if its path packages are found in the workspace by their
names and if the texts of its other sources are read back. It has the same packages, edges and
replacements then, and the same checksums of all packages that are not from paths; and the lock
file that is written for it is the one that it was read from.

## Main definitions

* `Found`, `Encodable` — what a resolve has to be like
* `SameLock` — a resolve as it was before it was written

## Main results

* `fromStr_display` — package ids are read back
* `read_write` — the lock file of a resolve is read back, and written again
-/

set_option autoImplicit false

namespace Cargo.Resolver.Encode

open Cargo.Core Cargo.Math Cargo.Util

variable {S R : Type}

/-- A package that is found again: its version is read as it was printed, and its source is in the
workspace if it is a path, and read from its texts otherwise. -/
structure Found (env : LockEnv S) (pathDeps : Finmap fun _ : String => S) (id : PackageId S) :
    Prop where
  name : ' ' ∉ id.name.toList
  version : ' ' ∉ (env.showVersion id.version).toList
  parse_version : env.parseVersion (env.showVersion id.version) = .ok id.version
  path : env.isPath id.sourceId = true → pathDeps.lookup id.name = some id.sourceId
  source : env.isPath id.sourceId = false → env.fromUrl (env.toUrl id.sourceId) = .ok id.sourceId
  imprecise : env.isPath id.sourceId = false →
    env.fromUrl (env.toUrlImprecise id.sourceId) = .ok id.sourceId

section Resolves

variable [DecidableEq S]

/-- A resolve that can be written so that it is read back. -/
structure Encodable (env : LockEnv S) (pathDeps : Finmap fun _ : String => S)
    (r : Resolve S R) : Prop where
  nodes : ∀ id ∈ r.graph.nodes, Found env pathDeps id
  unused : ∀ id ∈ r.unusedPatches, Found env pathDeps id
  edges : ∀ id ∈ r.graph.nodes, ∀ dep ∈ r.depsNotReplaced id, dep ∈ r.graph.nodes
  replaced : ∀ id replace, r.replacement id = some replace →
    id ∈ r.graph.nodes ∧ replace ∈ r.graph.nodes ∧ r.depsNotReplaced id = ∅
  checksums : ∀ id ∈ r.graph.nodes, env.isPath id.sourceId = false →
    ∃ c, r.checksums.lookup id = some c ∧ c ≠ some "<none>"
  metadata : ∀ k ∈ r.metadata, isChecksumKey k = false

/-- A resolve as it was before it was written. What its edges stand for is lost, and so are the
checksums of path packages. -/
structure SameLock (env : LockEnv S) (r r' : Resolve S R) : Prop where
  nodes : r'.graph.nodes.keys = r.graph.nodes.keys
  deps : ∀ id, r'.depsNotReplaced id = r.depsNotReplaced id
  replacements : r'.replacements = r.replacements
  checksums : ∀ id, r'.checksums.lookup id =
    if id ∈ r.graph.nodes ∧ env.isPath id.sourceId = false then r.checksums.lookup id else none
  metadata : r'.metadata = r.metadata
  unusedPatches : r'.unusedPatches = r.unusedPatches

end Resolves

variable {env : LockEnv S} {pathDeps : Finmap fun _ : String => S}

/-! ### Package ids -/

theorem splitSpace_append {t : Text} (h : ' ' ∉ t) (rest : Text) :
    EncodablePackageId.splitSpace (t ++ ' ' :: rest) = (t, some rest) := by
  have htake := takeWhile_append_marked h (some rest)
  have hdrop := dropWhile_append_marked h (some rest)
  rw [marked] at htake hdrop
  rw [EncodablePackageId.splitSpace, htake, hdrop]
  rfl

theorem splitSpace_of_notMem {t : Text} (h : ' ' ∉ t) :
    EncodablePackageId.splitSpace t = (t, none) := by
  have htake := takeWhile_append_marked h none
  have hdrop := dropWhile_append_marked h none
  rw [marked, List.append_nil] at htake hdrop
  rw [EncodablePackageId.splitSpace, htake, hdrop]
  rfl

/-- A package id is read back from its text. -/
theorem fromStr_display {id : PackageId S}
    (h : Found env pathDeps id) :
    EncodablePackageId.fromStr env ((encodablePackageId env id).display env) =
      .ok (encodablePackageId env id) := by
  have hversion := h.version
  unfold EncodablePackageId.display EncodablePackageId.fromStr encodablePackageId encodeSource
  cases hpath : env.isPath id.sourceId with
  | true =>
    simp only [if_true, List.append_nil, splitSpace_append h.name, splitSpace_of_notMem hversion,
      String.ofList_toList]
  | false =>
    have hsplit : id.name.toList ++ ' ' :: (env.showVersion id.version).toList ++
        (" (".toList ++ env.toUrlImprecise id.sourceId ++ ")".toList) = id.name.toList ++ ' ' ::
          ((env.showVersion id.version).toList ++ ' ' :: ('(' ::
            (env.toUrlImprecise id.sourceId ++ [')']))) := by
      simp
    simp only [Bool.false_eq_true, if_false, hsplit, splitSpace_append h.name,
      splitSpace_append hversion, String.ofList_toList]
    rw [if_pos ⟨rfl, by simp [List.getLast?_cons]⟩, List.tail_cons, List.dropLast_concat,
      h.imprecise hpath]
    rfl

theorem readId_display {id : PackageId S}
    (h : Found env pathDeps id) :
    readId env ((encodablePackageId env id).display env) = .ok (encodablePackageId env id) := by
  rw [readId, fromStr_display h]
  rfl

/-- A package that is called what `id` is called is `id`. -/
theorem packageId_eq {id : PackageId S} (h : Found env pathDeps id)
    {pkg : EncodableDependency S} (hpkg : pkg.encId = encodablePackageId env id) :
    packageId env pathDeps pkg = .ok (some id) := by
  obtain ⟨name, version, source, deps, replace⟩ := pkg
  simp only [EncodableDependency.encId, encodablePackageId, EncodablePackageId.mk.injEq] at hpkg
  obtain ⟨rfl, rfl, rfl⟩ := hpkg
  have hsource :
      (encodeSource env id.sourceId).or (pathDeps.lookup id.name) = some id.sourceId := by
    unfold encodeSource
    cases hpath : env.isPath id.sourceId with
    | true => exact h.path hpath
    | false => rfl
  simp only [packageId, hsource, h.parse_version]
  rfl

/-- The lock file tells packages apart. -/
theorem encodablePackageId_inj {a b : PackageId S}
    (ha : Found env pathDeps a) (hb : Found env pathDeps b)
    (h : encodablePackageId env a = encodablePackageId env b) : a = b := by
  have hpkg : ∀ id : PackageId S, (encodableUnused env id).encId = encodablePackageId env id :=
    fun _ => rfl
  have heq := (packageId_eq ha (hpkg a)).symm.trans (packageId_eq hb ((hpkg a).trans h))
  exact Option.some.inj (Except.ok.inj heq)

/-- The patches that were not used are read back. -/
theorem unused_read {ids : List (PackageId S)}
    (h : ∀ id ∈ ids, Found env pathDeps id) :
    (ids.map (encodableUnused env)).foldlM (addUnused env pathDeps) [] = .ok ids := by
  rw [List.foldlM_map]
  suffices hloop : ∃ ret, ids.foldlM (fun ret id => addUnused env pathDeps ret
      (encodableUnused env id)) [] = .ok ret ∧ ret = ids by
    obtain ⟨ret, hret, rfl⟩ := hloop
    exact hret
  refine exists_foldlM_ok (P := fun pre ret => ret = pre) rfl ?_
  intro pre id post ret hsplit hret
  refine ⟨ret ++ [id], ?_, by rw [hret]⟩
  have hid : packageId env pathDeps (encodableUnused env id) = .ok (some id) :=
    packageId_eq (h id (by simp [hsplit])) rfl
  simp only [addUnused, hid]
  rfl

/-! ### Keys of checksums -/

theorem isChecksumKey_checksumKey (id : PackageId S) :
    isChecksumKey (checksumKey env id) = true := by
  unfold isChecksumKey checksumKey
  rw [String.toList_ofList]
  exact List.isPrefixOf_iff_prefix.mpr (List.prefix_append _ _)

theorem fromStr_checksumKey {id : PackageId S}
    (h : Found env pathDeps id) :
    EncodablePackageId.fromStr env ((checksumKey env id).toList.drop checksumPrefix.length) =
      .ok (encodablePackageId env id) := by
  rw [checksumKey, String.toList_ofList, List.drop_left]
  exact fromStr_display h

theorem checksumKey_inj {a b : PackageId S}
    (ha : Found env pathDeps a) (hb : Found env pathDeps b)
    (h : checksumKey env a = checksumKey env b) : a = b := by
  have heq := fromStr_checksumKey ha
  rw [h, fromStr_checksumKey hb] at heq
  exact (encodablePackageId_inj hb ha (Except.ok.inj heq)).symm

/-! ### Texts -/

/-- The package as it is read from the text. -/
def EncodableDependency.trimmed (pkg : EncodableDependency S) : EncodableDependency S :=
  { pkg with dependencies := pkg.dependencies.filter fun deps => !deps.isEmpty }

/-- A package is read back from its texts. -/
theorem parse_emitPackage {pkg : EncodableDependency S}
    (hsource : ∀ s ∈ pkg.source, env.fromUrl (env.toUrl s) = .ok s)
    (hdeps : ∀ deps ∈ pkg.dependencies, ∀ dep ∈ deps, readId env (dep.display env) = .ok dep)
    (hreplace : ∀ dep ∈ pkg.replace, readId env (dep.display env) = .ok dep) :
    (emitPackage env pkg).parse env = .ok pkg.trimmed := by
  have hsource' : readOption (S := S) (fun t => (env.fromUrl t).mapError .invalid)
      (pkg.source.map env.toUrl) = .ok pkg.source := by
    cases hs : pkg.source with
    | none => rfl
    | some s =>
      simp only [Option.map_some, readOption, hsource s hs]
      rfl
  -- an empty list of dependencies is not written
  have hdeps' : readOption (S := S) (fun deps => deps.mapM (readId env))
      ((pkg.dependencies.filter fun deps => !deps.isEmpty).map fun deps =>
        deps.map (EncodablePackageId.display env)) =
      .ok (pkg.dependencies.filter fun deps => !deps.isEmpty) := by
    cases hd : pkg.dependencies.filter fun deps => !deps.isEmpty with
    | none => rfl
    | some deps =>
      have hmapM : (deps.map (EncodablePackageId.display env)).mapM (readId env) = .ok deps := by
        have hdep := hdeps deps (Option.mem_filter_iff.mp hd).1
        exact mapM_eq_ok.mpr (List.forall₂_map_left_iff.mpr (List.forall₂_same.mpr hdep))
      simp only [Option.map_some, readOption, hmapM]
      rfl
  have hreplace' : readOption (S := S) (readId env)
      (pkg.replace.map (EncodablePackageId.display env)) = .ok pkg.replace := by
    cases hr : pkg.replace with
    | none => rfl
    | some dep =>
      simp only [Option.map_some, readOption, hreplace dep hr]
      rfl
  simp only [LockPackage.parse, emitPackage, hsource', hdeps', hreplace']
  rfl

/-- A resolve lists its packages in some order. -/
theorem mem_sorted {r : Resolve S R} {sorted : HashOrder (PackageId S)} {id : PackageId S} :
    id ∈ sorted.enum r.graph.nodes.keys ↔ id ∈ r.graph.nodes := by
  rw [SetOrder.mem_enum, Finmap.mem_keys]

/-- The packages whose checksums are written. -/
def hashed (env : LockEnv S) (sorted : HashOrder (PackageId S)) (r : Resolve S R) :
    List (PackageId S) :=
  (sorted.enum r.graph.nodes.keys).filter fun id => !env.isPath id.sourceId

theorem mem_hashed {r : Resolve S R} {sorted : HashOrder (PackageId S)} {id : PackageId S} :
    id ∈ hashed env sorted r ↔ id ∈ r.graph.nodes ∧ env.isPath id.sourceId = false := by
  rw [hashed, List.mem_filter, mem_sorted, Bool.not_eq_true']

variable [DecidableEq S]

/-! ### The packages that are there -/

section Live

variable {ids : List (PackageId S)} {f : PackageId S → EncodableDependency S}

/-- Entries for packages that are found. -/
structure Entries (env : LockEnv S) (pathDeps : Finmap fun _ : String => S)
    (ids : List (PackageId S)) (f : PackageId S → EncodableDependency S) : Prop where
  encId : ∀ id, (f id).encId = encodablePackageId env id
  found : ∀ id ∈ ids, Found env pathDeps id
  nodup : ids.Nodup

/-- The map from what packages are called to the packages with their entries. -/
def IsLive (env : LockEnv S) (ids : List (PackageId S)) (f : PackageId S → EncodableDependency S)
    (live : LivePkgs S) : Prop :=
  ∀ e v, live.lookup e = some v ↔ ∃ id ∈ ids, encodablePackageId env id = e ∧ v = (id, f id)

theorem addLive_entries (h : Entries env pathDeps ids f) :
    ∃ st, (ids.map f).foldlM (addLive env pathDeps) (∅, ∅) = .ok st ∧ IsLive env ids f st.1 := by
  rw [List.foldlM_map]
  suffices hloop : ∃ st, ids.foldlM (fun st id => addLive env pathDeps st (f id)) (∅, ∅) = .ok st ∧
      (∀ e, e ∈ st.2 ↔ ∃ id ∈ ids, encodablePackageId env id = e) ∧ IsLive env ids f st.1 by
    obtain ⟨st, hst, -, hlive⟩ := hloop
    exact ⟨st, hst, hlive⟩
  refine exists_foldlM_ok (P := fun pre (st : LivePkgs S × Finset (EncodablePackageId S)) =>
    (∀ e, e ∈ st.2 ↔ ∃ id ∈ pre, encodablePackageId env id = e) ∧ IsLive env pre f st.1)
    ⟨by simp, by simp [IsLive]⟩ ?_
  rintro pre id post ⟨live, all⟩ hsplit ⟨hall, hlive⟩
  have hid : id ∈ ids := by simp [hsplit]
  -- no entry before this one has its id, which the loop checks
  have hnew : ∀ other ∈ pre, encodablePackageId env other ≠ encodablePackageId env id := by
    intro other hother heq
    have hmem : other ∈ ids := by simp [hsplit, hother]
    obtain rfl := encodablePackageId_inj (h.found other hmem) (h.found id hid) heq
    have hnodup := h.nodup
    rw [hsplit, List.nodup_append] at hnodup
    exact hnodup.2.2 other hother other List.mem_cons_self rfl
  refine ⟨(live.insert (f id).encId (id, f id), insert (f id).encId all), ?_, ?_, ?_⟩
  · have hnot : (f id).encId ∉ all := by
      rw [h.encId, hall]
      rintro ⟨other, hother, heq⟩
      exact hnew other hother heq
    simp only [addLive, hnot, if_false, packageId_eq (h.found id hid) (h.encId id)]
    rfl
  · intro e
    rw [Finset.mem_insert, hall, h.encId]
    simp only [List.mem_append, List.mem_singleton, or_and_right, exists_or, exists_eq_left]
    rw [or_comm, eq_comm]
  · intro e v
    rw [h.encId]
    by_cases he : e = encodablePackageId env id
    · subst he
      rw [Finmap.lookup_insert, Option.some.injEq]
      constructor
      · rintro rfl
        exact ⟨id, by simp, rfl, rfl⟩
      · rintro ⟨other, hother, heq, rfl⟩
        rcases List.mem_append.mp hother with hother | hother
        · exact absurd heq (hnew other hother)
        · rw [List.mem_singleton.mp hother]
    · rw [Finmap.lookup_insert_of_ne _ he, hlive e v]
      simp only [List.mem_append, List.mem_singleton, or_and_right, exists_or, exists_eq_left]
      refine ⟨.inl, fun hor => hor.resolve_right ?_⟩
      rintro ⟨heq, -⟩
      exact he heq.symm

variable {live : LivePkgs S}

theorem IsLive.mem_values (h : IsLive env ids f live) (ho : HashOrder (EncodablePackageId S))
    {v : PackageId S × EncodableDependency S} :
    v ∈ live.values ho ↔ ∃ id ∈ ids, v = (id, f id) := by
  simp only [LivePkgs.values, List.mem_filterMap, SetOrder.mem_enum, Finmap.mem_keys]
  constructor
  · rintro ⟨e, -, he⟩
    obtain ⟨id, hid, -, rfl⟩ := (h e v).mp he
    exact ⟨id, hid, rfl⟩
  · rintro ⟨id, hid, rfl⟩
    have hlookup := (h _ _).mpr ⟨id, hid, rfl, rfl⟩
    exact ⟨_, Finmap.mem_of_lookup_eq_some hlookup, hlookup⟩

theorem IsLive.lookupId_eq_some (h : IsLive env ids f live) {e : EncodablePackageId S}
    {id : PackageId S} : lookupId live e = some id ↔ id ∈ ids ∧ encodablePackageId env id = e := by
  rw [lookupId, Option.map_eq_some_iff]
  constructor
  · rintro ⟨v, hv, rfl⟩
    obtain ⟨id, hid, he, rfl⟩ := (h e v).mp hv
    exact ⟨hid, he⟩
  · rintro ⟨hid, he⟩
    exact ⟨(id, f id), (h e _).mpr ⟨id, hid, he, rfl⟩, rfl⟩

end Live

/-! ### The graph -/

section Graph

variable {live : LivePkgs S}

/-- A dependency that is there. -/
def Linked (live : LivePkgs S) (entry : PackageId S × EncodableDependency S) (q : PackageId S) :
    Prop :=
  ∃ deps, entry.2.dependencies = some deps ∧ ∃ e ∈ deps, lookupId live e = some q

theorem mem_edges_linkDeps {g : PackageGraph S R} {entry : PackageId S × EncodableDependency S}
    {p q : PackageId S} : q ∈ (linkDeps live g entry).edges p ↔
      q ∈ g.edges p ∨ p = entry.1 ∧ Linked live entry q := by
  unfold linkDeps Linked
  cases entry.2.dependencies with
  | none => simp
  | some deps =>
    simp only [Option.some.injEq, exists_eq_left']
    rw [foldl_iff (P := fun g : PackageGraph S R => q ∈ g.edges p)
      (Q := fun e => p = entry.1 ∧ lookupId live e = some q)]
    · simp only [and_left_comm, exists_and_left]
    · intro g e
      cases hlookup : lookupId live e with
      | none => simp
      | some other =>
        by_cases hp : p = entry.1
        · subst hp
          simp only [Util.Graph.edges_link_self, Finmap.mem_insert, true_and, Option.some.injEq]
          rw [or_comm, eq_comm]
        · simp [Util.Graph.edges_link_of_ne hp, hp]

theorem mem_nodes_linkDeps {g : PackageGraph S R} {entry : PackageId S × EncodableDependency S}
    (hentry : entry.1 ∈ g.nodes) {p : PackageId S} :
    p ∈ (linkDeps live g entry).nodes ↔ p ∈ g.nodes := by
  unfold linkDeps
  cases entry.2.dependencies with
  | none => exact Iff.rfl
  | some deps =>
    simp only
    induction deps generalizing g with
    | nil => exact Iff.rfl
    | cons e deps ih =>
      rw [List.foldl_cons]
      cases lookupId live e with
      | none => exact ih hentry
      | some other =>
        rw [ih (Util.Graph.mem_link.mpr (.inr hentry)), Util.Graph.mem_link]
        refine ⟨fun h => h.elim (fun h => h ▸ hentry) id, .inr⟩

end Graph

/-! ### A resolve that is written -/

section Resolves

variable {r : Resolve S R} {edgeOrder : HashOrder (PackageId S)}

/-- The entry of a package as it is read from the text. -/
def nodeOf (env : LockEnv S) (edgeOrder : HashOrder (PackageId S)) (r : Resolve S R)
    (id : PackageId S) : EncodableDependency S :=
  (encodableResolveNode env edgeOrder r id).trimmed

theorem encId_nodeOf (id : PackageId S) :
    (nodeOf env edgeOrder r id).encId = encodablePackageId env id := rfl

theorem replace_nodeOf (id : PackageId S) :
    (nodeOf env edgeOrder r id).replace = (r.replacement id).map (encodablePackageId env) := by
  unfold nodeOf EncodableDependency.trimmed encodableResolveNode
  cases r.replacement id <;> rfl

theorem dependencies_nodeOf {id replace : PackageId S} (h : r.replacement id = some replace) :
    (nodeOf env edgeOrder r id).dependencies = none := by
  unfold nodeOf EncodableDependency.trimmed encodableResolveNode
  simp only [h]
  rfl

theorem mem_dependencies_nodeOf {id : PackageId S} {e : EncodablePackageId S} :
    (∃ deps, (nodeOf env edgeOrder r id).dependencies = some deps ∧ e ∈ deps) ↔
      r.replacement id = none ∧ ∃ dep ∈ r.depsNotReplaced id, encodablePackageId env dep = e := by
  cases h : r.replacement id with
  | some replace => simp [dependencies_nodeOf h]
  | none =>
    unfold nodeOf EncodableDependency.trimmed encodableResolveNode
    simp only [h, Option.filter_eq_some_iff, Option.some.injEq, true_and]
    constructor
    · rintro ⟨deps, ⟨rfl, -⟩, he⟩
      obtain ⟨dep, hdep, rfl⟩ := List.mem_map.mp he
      exact ⟨dep, (SetOrder.mem_enum _).mp hdep, rfl⟩
    · rintro ⟨dep, hdep, rfl⟩
      have hmem := List.mem_map_of_mem (f := encodablePackageId env)
        ((edgeOrder.of id).mem_enum.mpr hdep)
      refine ⟨_, ⟨rfl, ?_⟩, hmem⟩
      rw [Bool.not_eq_true', List.isEmpty_eq_false_iff]
      exact List.ne_nil_of_mem hmem

variable {sorted : HashOrder (PackageId S)}

variable (sorted edgeOrder) in
theorem Encodable.entries (h : Encodable env pathDeps r) :
    Entries env pathDeps (sorted.enum r.graph.nodes.keys) (nodeOf env edgeOrder r) where
  encId := encId_nodeOf
  found id hid := h.nodes id (Finmap.mem_keys.mp (sorted.mem_enum.mp hid))
  nodup := sorted.nodup_enum _

section Live

variable {live : LivePkgs S} {ho : HashOrder (EncodablePackageId S)}

theorem mem_of_mem_depsNotReplaced {p q : PackageId S} (h : q ∈ r.depsNotReplaced p) :
    p ∈ r.graph.nodes := by
  by_contra hnot
  rw [Resolve.depsNotReplaced, Graph.edges, Finmap.lookup_eq_none.mpr hnot] at h
  exact Finmap.notMem_empty (Finmap.mem_keys.mp h)

variable (hlive : IsLive env (sorted.enum r.graph.nodes.keys) (nodeOf env edgeOrder r) live)

include hlive

theorem lookupId_encodablePackageId {id : PackageId S} (hid : id ∈ r.graph.nodes) :
    lookupId live (encodablePackageId env id) = some id :=
  hlive.lookupId_eq_some.mpr ⟨mem_sorted.mpr hid, rfl⟩

/-- The dependencies of a package are there, and nothing else is linked. -/
theorem linked_iff (h : Encodable env pathDeps r) {p q : PackageId S} :
    Linked live (p, nodeOf env edgeOrder r p) q ↔ q ∈ r.depsNotReplaced p := by
  have hmem : Linked live (p, nodeOf env edgeOrder r p) q ↔
      ∃ e, (∃ deps, (nodeOf env edgeOrder r p).dependencies = some deps ∧ e ∈ deps) ∧
        lookupId live e = some q := by
    unfold Linked
    constructor
    · rintro ⟨deps, hdeps, e, he, hq⟩
      exact ⟨e, ⟨deps, hdeps, he⟩, hq⟩
    · rintro ⟨e, ⟨deps, hdeps, he⟩, hq⟩
      exact ⟨deps, hdeps, e, he, hq⟩
  rw [hmem]
  constructor
  · rintro ⟨e, he, hq⟩
    obtain ⟨-, dep, hdep, rfl⟩ := mem_dependencies_nodeOf.mp he
    obtain ⟨hqmem, heq⟩ := hlive.lookupId_eq_some.mp hq
    have hp := mem_of_mem_depsNotReplaced hdep
    rwa [encodablePackageId_inj (h.nodes q (mem_sorted.mp hqmem))
      (h.nodes dep (h.edges p hp dep hdep)) heq]
  · intro hq
    have hp := mem_of_mem_depsNotReplaced hq
    refine ⟨_, mem_dependencies_nodeOf.mpr ⟨?_, q, hq, rfl⟩,
      lookupId_encodablePackageId hlive (h.edges p hp q hq)⟩
    -- a package that is replaced has no dependencies
    cases hreplace : r.replacement p with
    | none => rfl
    | some replace =>
      rw [(h.replaced p replace hreplace).2.2] at hq
      simp at hq

variable (ho) in
/-- The graph that is read has the packages and the edges of the one that was written. -/
theorem graph_read (h : Encodable env pathDeps r)
    {g : PackageGraph S R} (hg : g = (live.values ho).foldl (linkDeps live)
      ((live.values ho).foldl (fun g entry => g.add entry.1) Graph.new)) :
    g.nodes.keys = r.graph.nodes.keys ∧ ∀ p, (g.edges p).keys = r.depsNotReplaced p := by
  have hvalues : ∀ v, v ∈ live.values ho ↔
      ∃ id ∈ sorted.enum r.graph.nodes.keys, v = (id, nodeOf env edgeOrder r id) :=
    fun v => hlive.mem_values ho
  set added : PackageGraph S R :=
    (live.values ho).foldl (fun g entry => g.add entry.1) Graph.new with hadded
  have hnodes : ∀ p, p ∈ added.nodes ↔ p ∈ r.graph.nodes := by
    intro p
    rw [hadded, foldl_iff (P := fun g : PackageGraph S R => p ∈ g.nodes)
      (Q := fun entry => p = entry.1) fun g entry => by rw [Graph.mem_add, or_comm]]
    constructor
    · rintro (hnew | ⟨v, hv, rfl⟩)
      · exact absurd hnew Finmap.notMem_empty
      · obtain ⟨id, hid, rfl⟩ := (hvalues v).mp hv
        exact mem_sorted.mp hid
    · exact fun hp => .inr ⟨_, (hvalues _).mpr ⟨p, mem_sorted.mpr hp, rfl⟩, rfl⟩
  have hedges : ∀ p q, q ∉ added.edges p := by
    intro p q
    rw [hadded, foldl_iff (P := fun g : PackageGraph S R => q ∈ g.edges p) (Q := fun _ => False)
      fun g entry => by rw [Graph.edges_add, or_false]]
    rintro (hnew | ⟨-, -, hfalse⟩)
    · exact absurd hnew Finmap.notMem_empty
    · exact hfalse
  constructor
  · ext p
    rw [Finmap.mem_keys, Finmap.mem_keys, ← hnodes, hg]
    -- whatever is linked has been added before
    have hall : ∀ v ∈ live.values ho, v.1 ∈ added.nodes := by
      intro v hv
      obtain ⟨id, hid, rfl⟩ := (hvalues v).mp hv
      exact (hnodes id).mpr (mem_sorted.mp hid)
    have hfold : ∀ (vs : List (PackageId S × EncodableDependency S)) (g : PackageGraph S R),
        (∀ v ∈ vs, v.1 ∈ g.nodes) → (p ∈ (vs.foldl (linkDeps live) g).nodes ↔ p ∈ g.nodes) := by
      intro vs
      induction vs with
      | nil => exact fun g _ => Iff.rfl
      | cons v vs ih =>
        intro g hvs
        have hv := hvs v List.mem_cons_self
        rw [List.foldl_cons, ih _ ?_, mem_nodes_linkDeps hv]
        intro w hw
        exact (mem_nodes_linkDeps hv).mpr (hvs w (List.mem_cons_of_mem v hw))
    exact hfold _ added hall
  · intro p
    ext q
    rw [Finmap.mem_keys, hg, foldl_iff (P := fun g : PackageGraph S R => q ∈ g.edges p)
      (Q := fun entry => p = entry.1 ∧ Linked live entry q) fun g entry => mem_edges_linkDeps]
    constructor
    · rintro (hadd | ⟨v, hv, hp, hlinked⟩)
      · exact absurd hadd (hedges p q)
      · obtain ⟨id, -, rfl⟩ := (hvalues v).mp hv
        subst hp
        exact (linked_iff hlive h).mp hlinked
    · intro hq
      have hp := mem_of_mem_depsNotReplaced hq
      exact .inr ⟨_, (hvalues _).mpr ⟨p, mem_sorted.mpr hp, rfl⟩, rfl,
        (linked_iff hlive h).mpr hq⟩

/-- The replacements are read back. -/
theorem replacements_read (h : Encodable env pathDeps r) :
    (live.values ho).foldlM (addReplacement live) ∅ = .ok r.replacements := by
  -- so far there are the replacements of the entries that were met
  have hloop : ∃ m, (live.values ho).foldlM (addReplacement live) ∅ = .ok m ∧
      ∀ p, m.lookup p =
        if p ∈ (live.values ho).map Prod.fst then r.replacement p else none := by
    refine exists_foldlM_ok (P := fun pre (m : Finmap fun _ : PackageId S => PackageId S) =>
      ∀ p, m.lookup p = if p ∈ pre.map Prod.fst then r.replacement p else none) (by simp) ?_
    rintro pre v post m hsplit hm
    obtain ⟨id, hid, rfl⟩ := (hlive.mem_values ho).mp (by simp [hsplit] : v ∈ live.values ho)
    have hreplace : (nodeOf env edgeOrder r id).replace =
        (r.replacement id).map (encodablePackageId env) := replace_nodeOf id
    have hmem : ∀ p, p ≠ id → (p ∈ (pre ++ [(id, nodeOf env edgeOrder r id)]).map Prod.fst ↔
        p ∈ pre.map Prod.fst) := by
      intro p hp
      rw [List.map_append, List.mem_append, List.map_singleton, List.mem_singleton]
      exact or_iff_left hp
    cases hr : r.replacement id with
    | none =>
      rw [hr] at hreplace
      refine ⟨m, by simp only [addReplacement, hreplace, Option.map_none], fun p => ?_⟩
      rw [hm]
      by_cases hp : p = id
      · rw [hp, hr, ite_self, ite_self]
      · exact if_congr (hmem p hp).symm rfl rfl
    | some replace =>
      rw [hr, Option.map_some] at hreplace
      have hlookup := lookupId_encodablePackageId hlive (h.replaced id replace hr).2.1
      refine ⟨m.insert id replace, ?_, fun p => ?_⟩
      · simp only [addReplacement, hreplace, dependencies_nodeOf hr, hlookup]
        rfl
      · by_cases hp : p = id
        · rw [hp, Finmap.lookup_insert, if_pos (by simp), hr]
        · rw [Finmap.lookup_insert_of_ne _ hp, hm]
          exact if_congr (hmem p hp).symm rfl rfl
  obtain ⟨m, hm, hlookup⟩ := hloop
  rw [hm]
  refine congrArg Except.ok (Finmap.ext_lookup fun p => ?_)
  rw [hlookup]
  split_ifs with hp
  · rfl
  · cases hr : r.replacement p with
    | none => exact hr.symm
    | some replace =>
      refine absurd (List.mem_map.mpr ⟨_, (hlive.mem_values ho).mpr ⟨p, ?_, rfl⟩, rfl⟩) hp
      exact mem_sorted.mpr (h.replaced p replace hr).1

end Live

/-! ### Checksums -/

/-- The metadata that is written: what was there before, and a checksum for each package. -/
structure Written (env : LockEnv S) (sorted : HashOrder (PackageId S)) (r : Resolve S R)
    (metadata : Metadata) : Prop where
  checksum : ∀ id ∈ hashed env sorted r, ∃ c, r.checksums.lookup id = some c ∧
    c ≠ some "<none>" ∧ metadata.lookup (checksumKey env id) = some (c.getD "<none>")
  other : ∀ k, (∀ id ∈ hashed env sorted r, k ≠ checksumKey env id) →
    metadata.lookup k = r.metadata.lookup k

variable (sorted) in
theorem addChecksum_written (h : Encodable env pathDeps r) :
    ∃ metadata, (hashed env sorted r).foldlM (addChecksum env r) r.metadata = .ok metadata ∧
      Written env sorted r metadata := by
  -- so far the checksums of the packages met are there, and what was there before
  have hloop : ∃ metadata, (hashed env sorted r).foldlM (addChecksum env r) r.metadata =
      .ok metadata ∧ (∀ id ∈ hashed env sorted r, ∃ c, r.checksums.lookup id = some c ∧
        c ≠ some "<none>" ∧ metadata.lookup (checksumKey env id) = some (c.getD "<none>")) ∧
      ∀ k, (∀ id ∈ hashed env sorted r, k ≠ checksumKey env id) →
        metadata.lookup k = r.metadata.lookup k := by
    refine exists_foldlM_ok (P := fun pre (metadata : Metadata) =>
      (∀ id ∈ pre, ∃ c, r.checksums.lookup id = some c ∧ c ≠ some "<none>" ∧
        metadata.lookup (checksumKey env id) = some (c.getD "<none>")) ∧
      ∀ k, (∀ id ∈ pre, k ≠ checksumKey env id) → metadata.lookup k = r.metadata.lookup k)
      ⟨by simp, by simp⟩ ?_
    rintro pre id post metadata hsplit ⟨hpre, hother⟩
    have hid : id ∈ hashed env sorted r := by simp [hsplit]
    obtain ⟨hmem, hpath⟩ := mem_hashed.mp hid
    obtain ⟨c, hc, hne⟩ := h.checksums id hmem hpath
    refine ⟨metadata.insert (checksumKey env id) (c.getD "<none>"), by simp only [addChecksum, hc],
      ?_, ?_⟩
    · intro a ha
      by_cases heq : a = id
      · subst heq
        exact ⟨c, hc, hne, Finmap.lookup_insert _⟩
      · have hapre : a ∈ pre := by simpa [heq] using ha
        have hahashed : a ∈ hashed env sorted r := by simp [hsplit, hapre]
        obtain ⟨c', hc', hne', hlookup⟩ := hpre a hapre
        refine ⟨c', hc', hne', ?_⟩
        rw [Finmap.lookup_insert_of_ne _ ?_, hlookup]
        intro hkey
        exact heq (checksumKey_inj (h.nodes a (mem_hashed.mp hahashed).1) (h.nodes id hmem) hkey)
    · intro k hk
      rw [Finmap.lookup_insert_of_ne _ (hk id (by simp))]
      exact hother k fun a ha => hk a (by simp [ha])
  obtain ⟨metadata, hmetadata, hchecksum, hother⟩ := hloop
  exact ⟨metadata, hmetadata, hchecksum, hother⟩

/-- The keys of checksums are those that have been written. -/
theorem Written.mem_iff {metadata : Metadata} (hw : Written env sorted r metadata)
    (h : Encodable env pathDeps r) {k : String} :
    k ∈ ((SetOrder.ascending String).enum metadata.keys).filter isChecksumKey ↔
      ∃ id ∈ hashed env sorted r, k = checksumKey env id := by
  rw [List.mem_filter, SetOrder.mem_enum, Finmap.mem_keys]
  constructor
  · rintro ⟨hk, hkey⟩
    by_contra hnone
    push Not at hnone
    have hlookup := hw.other k hnone
    have hmem : k ∈ r.metadata := by
      rw [← Finmap.lookup_isSome, ← hlookup, Finmap.lookup_isSome]
      exact hk
    rw [h.metadata k hmem] at hkey
    cases hkey
  · rintro ⟨id, hid, rfl⟩
    obtain ⟨c, -, -, hlookup⟩ := hw.checksum id hid
    exact ⟨Finmap.mem_of_lookup_eq_some hlookup, isChecksumKey_checksumKey id⟩

/-- The checksums are read back. -/
theorem checksums_read {live : LivePkgs S}
    (hlive : IsLive env (sorted.enum r.graph.nodes.keys) (nodeOf env edgeOrder r) live)
    (h : Encodable env pathDeps r) {metadata : Metadata}
    (hw : Written env sorted r metadata) {keys : List String}
    (hkeys : keys = ((SetOrder.ascending String).enum metadata.keys).filter isChecksumKey) :
    ∃ checksums, keys.foldlM (readChecksum env live metadata) ∅ = .ok checksums ∧
      ∀ id, checksums.lookup id =
        if id ∈ r.graph.nodes ∧ env.isPath id.sourceId = false then r.checksums.lookup id
        else none := by
  have hloop : ∃ checksums, keys.foldlM (readChecksum env live metadata) ∅ = .ok checksums ∧
      ∀ id, checksums.lookup id = if id ∈ hashed env sorted r ∧ checksumKey env id ∈ keys then
        r.checksums.lookup id else none := by
    refine exists_foldlM_ok
      (P := fun pre (checksums : Finmap fun _ : PackageId S => Option String) =>
        ∀ id, checksums.lookup id = if id ∈ hashed env sorted r ∧ checksumKey env id ∈ pre then
          r.checksums.lookup id else none) (by simp) ?_
    rintro pre k post checksums hsplit hpre
    obtain ⟨id, hid, rfl⟩ := (hw.mem_iff h).mp (by rw [← hkeys, hsplit]; simp :
      k ∈ ((SetOrder.ascending String).enum metadata.keys).filter isChecksumKey)
    have hmem := (mem_hashed.mp hid).1
    obtain ⟨c, hc, hne, hlookup⟩ := hw.checksum id hid
    -- `<none>` is written for no checksum, and no checksum is written so
    have hvalue : (if c.getD "<none>" = "<none>" then none else some (c.getD "<none>")) = c := by
      cases c with
      | none => rfl
      | some c => exact if_neg fun heq => hne (congrArg some heq)
    refine ⟨checksums.insert id c, ?_, ?_⟩
    · simp only [readChecksum, fromStr_checksumKey (h.nodes id hmem), Except.mapError, bind,
        Except.bind, lookupId_encodablePackageId hlive hmem, hlookup, Option.getD_some, hvalue]
    · intro a
      by_cases heq : a = id
      · subst heq
        rw [Finmap.lookup_insert, if_pos ⟨hid, by simp⟩, hc]
      · rw [Finmap.lookup_insert_of_ne _ heq, hpre]
        refine if_congr (and_congr_right fun ha => ?_) rfl rfl
        rw [List.mem_append, List.mem_singleton]
        refine (or_iff_left fun hkey => heq ?_).symm
        exact checksumKey_inj (h.nodes a (mem_hashed.mp ha).1) (h.nodes id hmem) hkey
  obtain ⟨checksums, hchecksums, hlookup⟩ := hloop
  refine ⟨checksums, hchecksums, fun id => ?_⟩
  rw [hlookup]
  refine if_congr ?_ rfl rfl
  rw [mem_hashed]
  refine and_iff_left_of_imp fun hid => ?_
  rw [hkeys]
  exact (hw.mem_iff h).mpr ⟨id, mem_hashed.mpr hid, rfl⟩

theorem lookup_foldl_erase (keys : List String) (metadata : Metadata) (k : String) :
    (keys.foldl (fun metadata k => metadata.erase k) metadata).lookup k =
      if k ∈ keys then none else metadata.lookup k := by
  induction keys generalizing metadata with
  | nil => simp
  | cons key keys ih =>
    rw [List.foldl_cons, ih]
    by_cases hk : k = key
    · subst hk
      simp [Finmap.lookup_erase]
    · simp [hk, Finmap.lookup_erase_ne]

/-- What is left of the metadata is what was there before. -/
theorem Written.metadata_eq {metadata : Metadata} (hw : Written env sorted r metadata)
    (h : Encodable env pathDeps r) :
    (((SetOrder.ascending String).enum metadata.keys).filter isChecksumKey).foldl
      (fun metadata k => metadata.erase k) metadata = r.metadata := by
  refine Finmap.ext_lookup fun k => ?_
  rw [lookup_foldl_erase]
  split_ifs with hk
  · obtain ⟨id, hid, rfl⟩ := (hw.mem_iff h).mp hk
    symm
    rw [Finmap.lookup_eq_none]
    intro hmem
    have hkey := h.metadata _ hmem
    rw [isChecksumKey_checksumKey] at hkey
    cases hkey
  · refine hw.other k fun id hid heq => hk ?_
    exact (hw.mem_iff h).mpr ⟨id, hid, heq⟩

/-! ### Round trips -/

variable (sorted edgeOrder) in
/-- The lock file of a resolve is written, and what is read from it is what was written. -/
theorem parse_emit (h : Encodable env pathDeps r) (metadata : Metadata) :
    ∃ file, file = (EncodableResolve.mk
      (some ((sorted.enum r.graph.nodes.keys).map (encodableResolveNode env edgeOrder r))) none
      (if metadata = ∅ then none else some metadata)
      (r.unusedPatches.map (encodableUnused env))).emit env ∧
    file.parse env = .ok ⟨some ((sorted.enum r.graph.nodes.keys).map (nodeOf env edgeOrder r)),
      none, if metadata = ∅ then none else some metadata,
      r.unusedPatches.map (encodableUnused env)⟩ := by
  have hsource : ∀ id, Found env pathDeps id →
      ∀ s ∈ encodeSource env id.sourceId, env.fromUrl (env.toUrl s) = .ok s := by
    intro id hid s hs
    unfold encodeSource at hs
    split_ifs at hs with hpath
    · cases hs
    · cases hs
      exact hid.source (by simpa using hpath)
  have hnodes : ((sorted.enum r.graph.nodes.keys).map fun id =>
      emitPackage env (encodableResolveNode env edgeOrder r id)).mapM (LockPackage.parse env) =
      .ok ((sorted.enum r.graph.nodes.keys).map (nodeOf env edgeOrder r)) := by
    refine mapM_eq_ok.mpr (List.forall₂_map_left_iff.mpr (List.forall₂_map_right_iff.mpr
      (List.forall₂_same.mpr fun id hid => ?_)))
    have hmem := mem_sorted.mp hid
    -- an entry has either dependencies or a replacement
    refine parse_emitPackage (hsource id (h.nodes id hmem)) ?_ ?_
    · intro deps hdeps dep hdep
      cases hreplace : r.replacement id with
      | some replace =>
        simp [encodableResolveNode, hreplace] at hdeps
      | none =>
        simp only [encodableResolveNode, hreplace, Option.mem_def, Option.some.injEq] at hdeps
        subst hdeps
        obtain ⟨q, hq, rfl⟩ := List.mem_map.mp hdep
        exact readId_display (h.nodes q (h.edges id hmem q ((SetOrder.mem_enum _).mp hq)))
    · intro dep hdep
      cases hreplace : r.replacement id with
      | none =>
        simp [encodableResolveNode, hreplace] at hdep
      | some replace =>
        simp only [encodableResolveNode, hreplace, Option.mem_def, Option.some.injEq] at hdep
        subst hdep
        exact readId_display (h.nodes replace (h.replaced id replace hreplace).2.1)
  have hunused : (r.unusedPatches.map fun id => emitPackage env (encodableUnused env id)).mapM
      (LockPackage.parse env) = .ok (r.unusedPatches.map (encodableUnused env)) := by
    refine mapM_eq_ok.mpr (List.forall₂_map_left_iff.mpr (List.forall₂_map_right_iff.mpr
      (List.forall₂_same.mpr fun id hid => ?_)))
    exact parse_emitPackage (hsource id (h.unused id hid)) (by simp [encodableUnused])
      (by simp [encodableUnused])
  refine ⟨_, rfl, ?_⟩
  simp only [LockFile.parse, EncodableResolve.emit, Option.map_some, Option.map_none, readOption,
    List.map_map, Function.comp_def, hnodes, hunused]
  rfl

/-- The lock file only depends on what is read back. -/
theorem write_congr {r' : Resolve S R} (h : SameLock env r r') :
    write env sorted edgeOrder r' = write env sorted edgeOrder r := by
  have hnode : encodableResolveNode env edgeOrder r' = encodableResolveNode env edgeOrder r := by
    funext id
    simp only [encodableResolveNode, Resolve.replacement, h.replacements, h.deps]
  have hchecksums : (hashed env sorted r).foldlM (addChecksum env r') r.metadata =
      (hashed env sorted r).foldlM (addChecksum env r) r.metadata := by
    rw [List.foldlM_eq_foldl, List.foldlM_eq_foldl]
    refine List.foldl_ext _ _ _ fun metadata id hid => ?_
    obtain ⟨hmem, hpath⟩ := mem_hashed.mp hid
    simp only [addChecksum, h.checksums id, hmem, hpath, true_and, if_true]
  rw [hashed] at hchecksums
  simp only [write, encodeResolve, h.nodes, h.metadata, h.unusedPatches, hnode, hchecksums]

/-- A resolve is read back from its lock file, in whatever orders packages and dependencies are
written and read: it has the same packages, edges, replacements and unused patches, the same
checksums for packages that are not from paths, and the same metadata. Its lock file is the one that
it was read from. -/
theorem read_write (env : LockEnv S) (pathDeps : Finmap fun _ : String => S) (r : Resolve S R)
    (h : Encodable env pathDeps r)
    (sorted edgeOrder : HashOrder (PackageId S)) (ho : HashOrder (EncodablePackageId S)) :
    ∃ file r', write env sorted edgeOrder r = .ok file ∧ read env pathDeps ho file = .ok r' ∧
      SameLock env r r' ∧ write env sorted edgeOrder r' = .ok file := by
  obtain ⟨metadata, hmetadata, hwritten⟩ := addChecksum_written sorted h
  obtain ⟨file, hfile, hparse⟩ := parse_emit edgeOrder sorted h metadata
  have hwrite : write env sorted edgeOrder r = .ok file := by
    rw [hashed] at hmetadata
    simp only [write, encodeResolve, hmetadata, hfile]
    rfl
  obtain ⟨st, hst, hlive⟩ := addLive_entries (h.entries edgeOrder sorted)
  obtain ⟨checksums, hchecksums, hlookup⟩ := checksums_read hlive h hwritten rfl
  have hmetadata' : (if metadata = ∅ then none else some metadata : Option Metadata).getD ∅ =
      metadata := by
    split_ifs with hempty
    · exact hempty.symm
    · rfl
  obtain ⟨hnodes, hdeps⟩ := graph_read ho hlive h rfl
  set g : PackageGraph S R := (st.1.values ho).foldl (linkDeps st.1)
    ((st.1.values ho).foldl (fun g entry => g.add entry.1) Graph.new) with hg
  have hread : read env pathDeps ho file = .ok (⟨g, r.replacements, ∅, checksums, r.metadata,
      r.unusedPatches⟩ : Resolve S R) := by
    simp only [read, hparse, bind, Except.bind, EncodableResolve.intoResolve, Option.toList_none,
      List.nil_append, Option.getD_some, hst, replacements_read hlive h, hmetadata', hchecksums,
      hwritten.metadata_eq h, unused_read h.unused, ← hg]
  have hsame : SameLock env r ⟨g, r.replacements, ∅, checksums, r.metadata, r.unusedPatches⟩ :=
    ⟨hnodes, hdeps, rfl, hlookup, rfl, rfl⟩
  exact ⟨file, _, hwrite, hread, hsame, (write_congr hsame).trans hwrite⟩

end Resolves

end Cargo.Resolver.Encode
