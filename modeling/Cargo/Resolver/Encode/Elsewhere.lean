import Cargo.Resolver.Encode.PathDeps

/-!
# Reading a lock file in different workspaces

Which path packages there are depends on the workspace that a lock file is read in. What it says of
all other packages does not: they have the same checksums in every workspace.

## Main results

* `intoResolve_ok` — how a lock file was read
* `read_elsewhere` — what is read in two workspaces
-/

set_option autoImplicit false

namespace Cargo.Resolver.Encode

open Cargo.Core Cargo.Math Cargo.Util

variable {S R : Type} [DecidableEq S] {env : LockEnv S}

/-- All sources of a workspace are paths. -/
def PathsOnly (env : LockEnv S) (pathDeps : Finmap fun _ : String => S) : Prop :=
  ∀ name s, pathDeps.lookup name = some s → env.isPath s = true

/-- The path packages of a workspace come from paths. -/
theorem pathsOnly_of_buildPathDeps {ws : PathWorkspace S} (hws : ws.Consistent env) {fuel : ℕ}
    {ret : Finmap fun _ : String => S} (h : buildPathDeps env ws fuel = .ok ret) :
    PathsOnly env ret := by
  intro name s hs
  obtain ⟨st, rfl, hnoted, -⟩ := buildPathDeps_noted hws h
  obtain ⟨pkg, hpkg, -, rfl⟩ := hnoted.reach name s hs
  exact (hpkg.load hws).1

/-- How a lock file was read: the packages that are there, the checksums, and the metadata. -/
theorem intoResolve_ok {pathDeps : Finmap fun _ : String => S}
    {ho : HashOrder (EncodablePackageId S)} {e : EncodableResolve S} {r : Resolve S R}
    (h : e.intoResolve env pathDeps ho = .ok r) :
    ∃ st, (e.root.toList ++ e.package.getD []).foldlM (addLive env pathDeps) (∅, ∅) = .ok st ∧
      (((SetOrder.ascending String).enum (e.metadata.getD ∅).keys).filter isChecksumKey).foldlM
        (readChecksum env st.1 (e.metadata.getD ∅)) ∅ = .ok r.checksums ∧
      r.metadata = (((SetOrder.ascending String).enum (e.metadata.getD ∅).keys).filter
        isChecksumKey).foldl (fun metadata k => metadata.erase k) (e.metadata.getD ∅) := by
  unfold EncodableResolve.intoResolve at h
  obtain ⟨st, hst, h⟩ := bind_eq_ok.mp h
  obtain ⟨replacements, -, h⟩ := bind_eq_ok.mp h
  obtain ⟨checksums, hchecksums, h⟩ := bind_eq_ok.mp h
  obtain ⟨unused, -, h⟩ := bind_eq_ok.mp h
  cases h
  exact ⟨st, hst, hchecksums, rfl⟩

/-- No key of a checksum is left in the metadata. -/
theorem metadata_of_intoResolve {pathDeps : Finmap fun _ : String => S}
    {ho : HashOrder (EncodablePackageId S)} {e : EncodableResolve S} {r : Resolve S R}
    (h : e.intoResolve env pathDeps ho = .ok r) {k : String} (hk : k ∈ r.metadata) :
    isChecksumKey k = false := by
  obtain ⟨-, -, -, hmetadata⟩ := intoResolve_ok h
  rw [← Finmap.lookup_isSome, hmetadata, lookup_foldl_erase] at hk
  split_ifs at hk with hmem
  · cases hk
  · rw [List.mem_filter, SetOrder.mem_enum, Finmap.mem_keys, not_and, Bool.not_eq_true] at hmem
    exact hmem (Finmap.lookup_isSome.mp hk)

/-! ### The packages that are there -/

/-- The packages that have sources of their own are the same, and all others are from paths. -/
structure Alike (env : LockEnv S) (live live' : LivePkgs S) : Prop where
  sourced : ∀ e, e.source ≠ none → live.lookup e = live'.lookup e
  path : ∀ e v, e.source = none → live.lookup e = some v → env.isPath v.1.sourceId = true
  path' : ∀ e v, e.source = none → live'.lookup e = some v → env.isPath v.1.sourceId = true

variable {pathDeps pathDeps' : Finmap fun _ : String => S}

omit [DecidableEq S] in
/-- A package with a source of its own is the same in every workspace. -/
theorem packageId_sourced {pkg : EncodableDependency S} (h : pkg.source ≠ none) :
    packageId env pathDeps pkg = packageId env pathDeps' pkg := by
  obtain ⟨s, hs⟩ := Option.ne_none_iff_exists'.mp h
  simp only [packageId, hs, Option.some_or]

omit [DecidableEq S] in
/-- A package without a source is from a path. -/
theorem isPath_of_packageId (hpaths : PathsOnly env pathDeps) {pkg : EncodableDependency S}
    (h : pkg.source = none) {id : PackageId S} (hid : packageId env pathDeps pkg = .ok (some id)) :
    env.isPath id.sourceId = true := by
  rw [packageId, h, Option.none_or] at hid
  cases hlookup : pathDeps.lookup pkg.name with
  | none =>
    rw [hlookup] at hid
    cases hid
  | some s =>
    rw [hlookup] at hid
    obtain ⟨version, -, hid⟩ := bind_eq_ok.mp hid
    cases hid
    exact hpaths _ _ hlookup

/-- What one package adds. -/
theorem addLive_ok {st st' : LivePkgs S × Finset (EncodablePackageId S)}
    {pkg : EncodableDependency S} (h : addLive env pathDeps st pkg = .ok st') :
    (packageId env pathDeps pkg = .ok none ∧ st'.1 = st.1) ∨
      ∃ id, packageId env pathDeps pkg = .ok (some id) ∧
        st'.1 = st.1.insert pkg.encId (id, pkg) := by
  unfold addLive at h
  split_ifs at h
  obtain ⟨found, hfound, h⟩ := bind_eq_ok.mp h
  cases found with
  | none =>
    cases h
    exact .inl ⟨hfound, rfl⟩
  | some id =>
    cases h
    exact .inr ⟨id, hfound, rfl⟩

theorem lookup_addLive_of_ne {st st' : LivePkgs S × Finset (EncodablePackageId S)}
    {pkg : EncodableDependency S} (h : addLive env pathDeps st pkg = .ok st')
    {e : EncodablePackageId S} (he : e ≠ pkg.encId) : st'.1.lookup e = st.1.lookup e := by
  rcases addLive_ok h with ⟨-, heq⟩ | ⟨id, -, heq⟩
  · rw [heq]
  · rw [heq, Finmap.lookup_insert_of_ne _ he]

/-- Packages without sources keep coming from paths. -/
theorem isPath_addLive (hpaths : PathsOnly env pathDeps)
    {st st' : LivePkgs S × Finset (EncodablePackageId S)} {pkg : EncodableDependency S}
    (h : addLive env pathDeps st pkg = .ok st')
    (hst : ∀ e v, e.source = none → st.1.lookup e = some v → env.isPath v.1.sourceId = true)
    (e : EncodablePackageId S) (v : PackageId S × EncodableDependency S) (he : e.source = none)
    (hv : st'.1.lookup e = some v) : env.isPath v.1.sourceId = true := by
  rcases addLive_ok h with ⟨-, heq⟩ | ⟨id, hid, heq⟩
  · exact hst e v he (heq ▸ hv)
  · by_cases hpkg : e = pkg.encId
    · subst hpkg
      rw [heq, Finmap.lookup_insert] at hv
      cases hv
      exact isPath_of_packageId hpaths he hid
    · rw [heq, Finmap.lookup_insert_of_ne _ hpkg] at hv
      exact hst e v he hv

theorem alike_foldlM (hpaths : PathsOnly env pathDeps) (hpaths' : PathsOnly env pathDeps')
    {packages : List (EncodableDependency S)}
    {st st' : LivePkgs S × Finset (EncodablePackageId S)}
    (h : packages.foldlM (addLive env pathDeps) (∅, ∅) = .ok st)
    (h' : packages.foldlM (addLive env pathDeps') (∅, ∅) = .ok st') : Alike env st.1 st'.1 := by
  refine foldlM_ok_rel (Q := fun (st st' : LivePkgs S × Finset (EncodablePackageId S)) =>
    Alike env st.1 st'.1) h h' ⟨fun _ _ => rfl, by simp, by simp⟩ ?_
  intro st st' next next' pkg _ hst hnext hnext'
  refine ⟨?_, isPath_addLive hpaths hnext hst.path, isPath_addLive hpaths' hnext' hst.path'⟩
  intro e he
  by_cases hpkg : e = pkg.encId
  · subst hpkg
    have hsame : packageId env pathDeps pkg = packageId env pathDeps' pkg := packageId_sourced he
    rcases addLive_ok hnext with ⟨hid, heq⟩ | ⟨id, hid, heq⟩
    · rcases addLive_ok hnext' with ⟨-, heq'⟩ | ⟨id', hid', -⟩
      · rw [heq, heq', hst.sourced _ he]
      · rw [← hsame, hid] at hid'
        cases hid'
    · rcases addLive_ok hnext' with ⟨hid', -⟩ | ⟨id', hid', heq'⟩
      · rw [← hsame, hid] at hid'
        cases hid'
      · rw [← hsame, hid] at hid'
        cases hid'
        rw [heq, heq', Finmap.lookup_insert, Finmap.lookup_insert]
  · rw [lookup_addLive_of_ne hnext hpkg, lookup_addLive_of_ne hnext' hpkg, hst.sourced e he]

/-! ### Checksums -/

/-- The checksum that is read under a key is noted for the package it names, if it is there. -/
theorem readChecksum_ok {live : LivePkgs S} {metadata : Metadata}
    {checksums checksums' : Finmap fun _ : PackageId S => Option String} {k : String}
    (h : readChecksum env live metadata checksums k = .ok checksums') :
    ∃ e, EncodablePackageId.fromStr env (k.toList.drop checksumPrefix.length) = .ok e ∧
      checksums' = match lookupId live e with
        | none => checksums
        | some id => checksums.insert id (if (metadata.lookup k).getD "" = "<none>" then none
            else some ((metadata.lookup k).getD "")) := by
  obtain ⟨e, he, h⟩ := bind_eq_ok.mp h
  refine ⟨e, mapError_eq_ok.mp he, ?_⟩
  cases hid : lookupId live e with
  | none =>
    simp only [hid] at h
    exact (Except.ok.inj h).symm
  | some id =>
    simp only [hid] at h
    exact (Except.ok.inj h).symm

/-- A package that is not from a path has one checksum, whatever other packages there are. -/
theorem lookup_readChecksums {live live' : LivePkgs S} (hlive : Alike env live live')
    {metadata : Metadata} {keys : List String}
    {checksums checksums' : Finmap fun _ : PackageId S => Option String}
    (h : keys.foldlM (readChecksum env live metadata) ∅ = .ok checksums)
    (h' : keys.foldlM (readChecksum env live' metadata) ∅ = .ok checksums') {id : PackageId S}
    (hid : env.isPath id.sourceId = false) : checksums.lookup id = checksums'.lookup id := by
  refine foldlM_ok_rel (Q := fun (m m' : Finmap fun _ : PackageId S => Option String) =>
    m.lookup id = m'.lookup id) h h' rfl ?_
  intro m m' next next' k _ hm hnext hnext'
  obtain ⟨e, he, rfl⟩ := readChecksum_ok hnext
  obtain ⟨e', he', rfl⟩ := readChecksum_ok hnext'
  obtain rfl : e = e' := Except.ok.inj (he.symm.trans he')
  by_cases hsource : e.source = none
  -- the package is from a path, if it is there
  · have hother : ∀ (live : LivePkgs S) (m : Finmap fun _ : PackageId S => Option String)
        (c : Option String), (∀ v, live.lookup e = some v → env.isPath v.1.sourceId = true) →
        (match lookupId live e with
          | none => m
          | some id => m.insert id c).lookup id = m.lookup id := by
      intro live m c hpath
      cases hlookup : live.lookup e with
      | none => simp only [lookupId, hlookup, Option.map_none]
      | some v =>
        simp only [lookupId, hlookup, Option.map_some]
        refine Finmap.lookup_insert_of_ne _ ?_
        rintro rfl
        rw [hpath v hlookup] at hid
        cases hid
    rw [hother live m _ fun v => hlive.path e v hsource,
      hother live' m' _ fun v => hlive.path' e v hsource, hm]
  · have hsame : lookupId live' e = lookupId live e := by
      rw [lookupId, lookupId, hlive.sourced e hsource]
    rw [hsame]
    cases lookupId live e with
    | none => exact hm
    | some other =>
      by_cases hother : id = other
      · subst hother
        simp only [Finmap.lookup_insert]
      · simp only [Finmap.lookup_insert_of_ne _ hother, hm]

/-- Two workspaces read the same checksums of all packages that are not from paths, and the same
metadata. -/
theorem read_elsewhere (hpaths : PathsOnly env pathDeps) (hpaths' : PathsOnly env pathDeps')
    {ho ho' : HashOrder (EncodablePackageId S)} {file : LockFile} {r r' : Resolve S R}
    (h : read env pathDeps ho file = .ok r) (h' : read env pathDeps' ho' file = .ok r') :
    (∀ id : PackageId S, env.isPath id.sourceId = false →
      r.checksums.lookup id = r'.checksums.lookup id) ∧ r.metadata = r'.metadata := by
  obtain ⟨e, he, h⟩ := bind_eq_ok.mp h
  obtain ⟨e', he', h'⟩ := bind_eq_ok.mp h'
  obtain rfl : e = e' := Except.ok.inj (he.symm.trans he')
  obtain ⟨st, hst, hchecksums, hmetadata⟩ := intoResolve_ok h
  obtain ⟨st', hst', hchecksums', hmetadata'⟩ := intoResolve_ok h'
  refine ⟨fun id hid => ?_, hmetadata.trans hmetadata'.symm⟩
  exact lookup_readChecksums (alike_foldlM hpaths hpaths' hst hst') hchecksums hchecksums' hid

end Cargo.Resolver.Encode
