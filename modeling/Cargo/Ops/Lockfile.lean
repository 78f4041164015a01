import Cargo.Resolver.Encode.Elsewhere
import Cargo.Resolver.Encode.Sources
import Cargo.Resolver.Replaced

/-!
# The lock file from build to build

A build loads the lock file of the previous one, resolves, merges the result with what it has
loaded, and writes the lock file again, unless it says the same already. Merging compares the
checksums of all packages.

What is on disk is taken as what the toml crate reads from it; the comments on top of the file are
left out.

## Main definitions

* `registerUsedPatches`, `mergeFrom`, `finishResolve` — what is done with a result of the search
* `loadPkgLockfile`, `writePkgLockfile`
* `Settled` — what the packages of a workspace have to be like
* `Build`, `Builds` — one build, and one build after the other

## Main results

* `encodable_of_settled` — the result of every build can be written so that it is read back
* `build_keeps` — what is read after a build, in any workspace
* `checksums_pinned` — the checksum of a package never changes while it is in the lock file
* `build_again` — a second build changes nothing, and passes with `--locked`
-/

set_option autoImplicit false

namespace Cargo.Ops.Lockfile

open Cargo.Core Cargo.Math Cargo.Util Cargo.Resolver Cargo.Resolver.Encode

variable {S R : Type} [DecidableEq S]

/-! ### Merging -/

/-- How checksums of a package can differ. -/
inductive ChecksumError
  /-- "checksum for `..` was not previously calculated, but a checksum could now be calculated" -/
  | notPreviouslyCalculated
  /-- "checksum for `..` could not be calculated, but a checksum is listed in the existing lock
  file" -/
  | notCalculated
  /-- "checksum for `..` changed between lock files" -/
  | changed
  deriving DecidableEq

/-- What goes wrong with a lock file in a build. -/
inductive UpdateError (S : Type)
  | lock (e : LockError S)
  | checksum (id : PackageId S) (e : ChecksumError)
  /-- "can't update in the offline mode" -/
  | offline
  /-- "the lock file needs to be updated but --locked was passed to prevent this" -/
  | locked
  /-- "the lock file needs to be updated but --frozen was passed to prevent this" -/
  | frozen

/-- Notes the patches that are not in the graph. -/
def registerUsedPatches (self : Resolve S R) (patches : List (Summary S R)) : Resolve S R :=
  { self with unusedPatches := self.unusedPatches ++
      (patches.filter fun s => decide (s.packageId ∉ self.graph.nodes)).map (·.packageId) }

/-- Compares a checksum with that of before. -/
def checkChecksum (mine cksum : Option String) : Except ChecksumError PUnit :=
  if mine = cksum then .ok ⟨⟩
  else if cksum = none then .error .notPreviouslyCalculated
  else if mine = none then .error .notCalculated
  else .error .changed

/-- Merges with the previous resolve: checksums must not differ, and unknown metadata is copied. -/
def mergeFrom (ho : HashOrder (PackageId S)) (self previous : Resolve S R) :
    Except (UpdateError S) (Resolve S R) := do
  (ho.enum previous.checksums.keys).forM fun id =>
    match previous.checksums.lookup id, self.checksums.lookup id with
    | some cksum, some mine => (checkChecksum mine cksum).mapError (.checksum id)
    | _, _ => .ok ⟨⟩
  .ok { self with metadata := previous.metadata }

/-- The end of `resolve_with_previous`. -/
def finishResolve (ho : HashOrder (PackageId S)) (patches : List (Summary S R))
    (previous : Option (Resolve S R)) (resolved : Resolve S R) :
    Except (UpdateError S) (Resolve S R) :=
  let resolved := registerUsedPatches resolved patches
  match previous with
  | some previous => mergeFrom ho resolved previous
  | none => .ok resolved

/-! ### The file -/

section Files

variable (lock : LockEnv S) (pathDeps : Finmap fun _ : String => S)

/-- Loads the lock file, if there is one. -/
def loadPkgLockfile (ho : HashOrder (EncodablePackageId S)) :
    Option LockFile → Except (UpdateError S) (Option (Resolve S R))
  | none => .ok none
  | some file => ((read lock pathDeps ho file).mapError .lock).map some

/-- What of the configuration matters for writing. -/
structure LockConfig where
  lockUpdateAllowed : Bool
  networkAllowed : Bool
  offline : Bool

/-- The derived equality of resolves. -/
def sameResolve [DecidableEq R] (a b : Resolve S R) : Bool :=
  decide (a.graph.nodes = b.graph.nodes ∧ a.replacements = b.replacements ∧
    a.features = b.features ∧ a.checksums = b.checksums ∧ a.metadata = b.metadata ∧
    a.unusedPatches = b.unusedPatches)

/-- Do both files say the same? If the lock file must not change, then what they are read as is
compared. -/
def areEqualLockfiles [DecidableEq R] (cfg : LockConfig) (ho : HashOrder (EncodablePackageId S))
    (orig current : LockFile) : Bool :=
  (!cfg.lockUpdateAllowed &&
    match (read lock pathDeps ho orig : Except (LockError S) (Resolve S R)),
      (read lock pathDeps ho current : Except (LockError S) (Resolve S R)) with
    | .ok old, .ok new => sameResolve old new
    | _, _ => false) || decide (current = orig)

/-- The lock file after a resolve was written. -/
def writePkgLockfile [DecidableEq R] (cfg : LockConfig) (sorted edgeOrder : HashOrder (PackageId S))
    (ho : HashOrder (EncodablePackageId S)) (orig : Option LockFile) (resolve : Resolve S R) :
    Except (UpdateError S) LockFile := do
  let out ← (write lock sorted edgeOrder resolve).mapError .lock
  match orig.filter fun orig => areEqualLockfiles (R := R) lock pathDeps cfg ho orig out with
  | some orig => .ok orig
  | none =>
    if cfg.lockUpdateAllowed then .ok out
    else if cfg.offline then .error .offline
    else if cfg.networkAllowed then .error .locked
    else .error .frozen

end Files

/-! ### What merging establishes -/

theorem checkChecksum_ok_iff {mine cksum : Option String} :
    checkChecksum mine cksum = .ok ⟨⟩ ↔ mine = cksum := by
  unfold checkChecksum
  split_ifs with h <;> simp [h]

/-- Merging succeeds when no checksum differs. -/
theorem mergeFrom_ok_iff {ho : HashOrder (PackageId S)} {self previous r : Resolve S R} :
    mergeFrom ho self previous = .ok r ↔
      (∀ id c m, previous.checksums.lookup id = some c →
        self.checksums.lookup id = some m → m = c) ∧
        r = { self with metadata := previous.metadata } := by
  unfold mergeFrom
  rw [bind_eq_ok]
  have hloop : ∀ u : PUnit.{1}, ((ho.enum previous.checksums.keys).forM fun id =>
      match previous.checksums.lookup id, self.checksums.lookup id with
      | some cksum, some mine => (checkChecksum mine cksum).mapError (UpdateError.checksum id)
      | _, _ => .ok ⟨⟩) = .ok u ↔ ∀ id c m, previous.checksums.lookup id = some c →
        self.checksums.lookup id = some m → m = c := by
    rintro ⟨⟩
    rw [forM_ok_iff]
    refine forall_congr' fun id => ?_
    rw [SetOrder.mem_enum, Finmap.mem_keys]
    constructor
    · intro h c m hc hm
      have hid := h (Finmap.mem_of_lookup_eq_some hc)
      rw [hc, hm] at hid
      exact checkChecksum_ok_iff.mp (mapError_eq_ok.mp hid)
    · intro h hid
      obtain ⟨c, hc⟩ := Finmap.mem_iff.mp hid
      rw [hc]
      cases hm : self.checksums.lookup id with
      | none => rfl
      | some m => exact mapError_eq_ok.mpr (checkChecksum_ok_iff.mpr (h c m hc hm))
  simp only [hloop, exists_and_left, exists_const, Except.ok.injEq, eq_comm]

/-- What becomes of a graph that the search has found. -/
structure Finished (previous : Option (Resolve S R)) (resolved r : Resolve S R) : Prop where
  graph : r.graph = resolved.graph
  replacements : r.replacements = resolved.replacements
  checksums : r.checksums = resolved.checksums
  metadata : r.metadata = (previous.map Resolve.metadata).getD resolved.metadata
  pinned : ∀ p ∈ previous, ∀ id c m, p.checksums.lookup id = some c →
    resolved.checksums.lookup id = some m → m = c

theorem finishResolve_ok {ho : HashOrder (PackageId S)} {patches : List (Summary S R)}
    {previous : Option (Resolve S R)} {resolved r : Resolve S R}
    (h : finishResolve ho patches previous resolved = .ok r) : Finished previous resolved r := by
  cases previous with
  | none =>
    cases h
    exact ⟨rfl, rfl, rfl, rfl, by simp⟩
  | some previous =>
    obtain ⟨hpinned, rfl⟩ := mergeFrom_ok_iff.mp h
    refine ⟨rfl, rfl, rfl, rfl, ?_⟩
    rintro p ⟨⟩
    exact hpinned

/-! ### The result of a build -/

/-- The packages of a resolve are those of the workspace or are read back from their texts. -/
structure Settled (lock : LockEnv S) (ws : PathWorkspace S) (r : Resolve S R) : Prop where
  consistent : ws.Consistent lock
  names : ∀ p q, ws.Reach lock p → ws.Reach lock q → p.name = q.name → p.sourceId = q.sourceId
  path : ∀ id, id ∈ r.graph.nodes ∨ id ∈ r.unusedPatches → lock.isPath id.sourceId = true →
    ∃ pkg, ws.Reach lock pkg ∧ pkg.name = id.name ∧ pkg.sourceId = id.sourceId
  texts : ∀ id, id ∈ r.graph.nodes ∨ id ∈ r.unusedPatches → ∃ pathDeps, Found lock pathDeps id
  checksums : ∀ id, r.checksums.lookup id ≠ some (some "<none>")

/-- A graph that the search finds, where nothing is replaced twice. -/
def Searched [DecidableEq R] [VersionReq R] (lock : LockEnv S) (resolved : Resolve S R) : Prop :=
  ∃ (env : Env S R) (sorted edgeOrder : HashOrder (PackageId S))
    (roots : List (Summary S R × Method)),
    Resolves env sorted edgeOrder (encodeSource lock) roots resolved ∧ NoChains env.registry ∧
      ∀ root ∈ roots, ¬ Overridden env.registry root.1.packageId

variable {lock : LockEnv S} {ws : PathWorkspace S} {pathDeps : Finmap fun _ : String => S}

theorem found_of_settled {r : Resolve S R} (h : Settled lock ws r) {fuel : ℕ}
    (hdeps : buildPathDeps lock ws fuel = .ok pathDeps) {id : PackageId S}
    (hid : id ∈ r.graph.nodes ∨ id ∈ r.unusedPatches) : Found lock pathDeps id := by
  obtain ⟨pathDeps', hfound⟩ := h.texts id hid
  refine { hfound with path := fun hpath => ?_ }
  obtain ⟨pkg, hreach, hname, hsource⟩ := h.path id hid hpath
  rw [← hname, ← hsource]
  exact buildPathDeps_lookup h.consistent h.names hdeps hreach

/-- Every package that was added has a checksum, if only `none`. -/
theorem mem_checksums {cx : Context S R} {id : PackageId S} :
    id ∈ cx.checksums ↔ GraphNode.add id ∈ cx.resolveGraph := by
  unfold Context.checksums
  rw [foldl_iff (P := fun m : Finmap fun _ : PackageId S => Option String => id ∈ m)
    (Q := fun node => node = GraphNode.add id)]
  · simp [Finmap.notMem_empty]
  · intro m node
    cases node with
    | add other => simp [Finmap.mem_insert, or_comm, eq_comm]
    | link parent child dep => simp

section Search

variable [DecidableEq R] [VersionReq R]

/-- The result of a build can be written so that it is read back. -/
theorem encodable_of_settled {previous : Option (Resolve S R)} {resolved r : Resolve S R}
    (hsearch : Searched lock resolved) (hfinish : Finished previous resolved r)
    (hmetadata : ∀ p ∈ previous, ∀ k ∈ p.metadata, isChecksumKey k = false)
    (h : Settled lock ws r) {fuel : ℕ} (hdeps : buildPathDeps lock ws fuel = .ok pathDeps) :
    Encodable lock pathDeps r := by
  obtain ⟨env, sorted, edgeOrder, roots, ⟨cx, hreturns, rfl, -, -⟩, hchains, hroots⟩ :=
    hsearch
  have hcheck := checkable_of_returns hreturns
  have hsame : ∀ id, r.depsNotReplaced id = cx.toResolve.depsNotReplaced id := by
    intro id
    rw [Resolve.depsNotReplaced, hfinish.graph, Resolve.depsNotReplaced]
  refine ⟨fun id hid => found_of_settled h hdeps (.inl hid),
    fun id hid => found_of_settled h hdeps (.inr hid), ?_, ?_, ?_, ?_⟩
  · intro id _ dep hdep
    rw [hfinish.graph]
    exact hcheck.deps id dep (hsame id ▸ hdep)
  · intro id replace hreplace
    rw [Resolve.replacement, hfinish.replacements] at hreplace
    obtain ⟨hnone, hid, hmem, -⟩ := replaced_of_returns hreturns hchains hroots hreplace
    rw [hfinish.graph, hsame]
    exact ⟨hid, hmem, hnone⟩
  · intro id hid _
    rw [hfinish.graph, Context.mem_toResolve] at hid
    -- a node of the graph was added itself, since edges are between active packages
    have hgrounded : Grounded cx :=
      (machineOk_of_reaches (groundedState_kept env) groundedState_start hreturns).1
    have hadd : GraphNode.add id ∈ cx.resolveGraph := by
      rcases hid with hadd | ⟨q, d, hlink⟩
      · exact hadd
      · exact (hgrounded.add_iff id).mpr (hgrounded.link id q d hlink).1
    obtain ⟨c, hc⟩ := Finmap.mem_iff.mp (mem_checksums.mpr hadd)
    have hlookup : r.checksums.lookup id = some c := by
      rw [hfinish.checksums]
      exact hc
    refine ⟨c, hlookup, ?_⟩
    rintro rfl
    exact h.checksums id hlookup
  · intro k hk
    rw [hfinish.metadata] at hk
    cases previous with
    | none => exact absurd hk Finmap.notMem_empty
    | some p => exact hmetadata p rfl k hk

end Search

/-! ### Build after build -/

section Builds

variable [DecidableEq R] [VersionReq R]

/-- One build in some workspace, with the lock file before, the resolve, and the lock file after. -/
inductive Build (lock : LockEnv S) : Option LockFile → Resolve S R → LockFile → Prop
  | mk {ws : PathWorkspace S} {fuel : ℕ} {pathDeps : Finmap fun _ : String => S}
    {ho : HashOrder (EncodablePackageId S)} {ids sorted edgeOrder : HashOrder (PackageId S)}
    {patches : List (Summary S R)} {cfg : LockConfig} {before : Option LockFile}
    {previous : Option (Resolve S R)} {resolved r : Resolve S R} {after : LockFile}
    (deps : buildPathDeps lock ws fuel = .ok pathDeps)
    (load : loadPkgLockfile lock pathDeps ho before = .ok previous)
    (search : Searched lock resolved)
    (finish : finishResolve ids patches previous resolved = .ok r)
    (settled : Settled lock ws r)
    (write : writePkgLockfile lock pathDeps cfg sorted edgeOrder ho before r = .ok after) :
    Build lock before r after

/-- One build after the other, each with the lock file of the one before. -/
inductive Builds (lock : LockEnv S) : Option LockFile → List (Resolve S R) → Prop
  | nil (file : Option LockFile) : Builds lock file []
  | cons {before : Option LockFile} {r : Resolve S R} {after : LockFile}
    {rs : List (Resolve S R)} : Build lock before r after → Builds lock (some after) rs →
    Builds lock before (r :: rs)

/-- These are the checksums of the packages of a resolve that are not from paths. -/
def SameChecksums (lock : LockEnv S) (r : Resolve S R)
    (checksums : Finmap fun _ : PackageId S => Option String) : Prop :=
  ∀ id ∈ r.graph.nodes, lock.isPath id.sourceId = false →
    ∃ c, r.checksums.lookup id = some c ∧ checksums.lookup id = some c

/-- What the lock file says in any workspace is what the resolve does. -/
def Records (lock : LockEnv S) (file : LockFile) (r : Resolve S R) : Prop :=
  ∀ (pathDeps : Finmap fun _ : String => S) (ho : HashOrder (EncodablePackageId S))
    (r' : Resolve S R), PathsOnly lock pathDeps → read lock pathDeps ho file = .ok r' →
    SameChecksums lock r r'.checksums ∧ r'.metadata = r.metadata

omit [DecidableEq R] [VersionReq R] in
theorem records_of_read (hpaths : PathsOnly lock pathDeps) {ho : HashOrder (EncodablePackageId S)}
    {file : LockFile} {r r' : Resolve S R} (hread : read lock pathDeps ho file = .ok r')
    (hchecksums : SameChecksums lock r r'.checksums) (hmetadata : r'.metadata = r.metadata) :
    Records lock file r := by
  intro pathDeps' ho' r'' hpaths' hread'
  obtain ⟨hsame, hmeta⟩ := read_elsewhere hpaths' hpaths hread' hread
  refine ⟨fun id hid hpath => ?_, hmeta.trans hmetadata⟩
  rw [hsame id hpath]
  exact hchecksums id hid hpath

omit [DecidableEq R] [VersionReq R] in
theorem loadPkgLockfile_some {ho : HashOrder (EncodablePackageId S)} {file : LockFile}
    {previous : Option (Resolve S R)}
    (h : loadPkgLockfile lock pathDeps ho (some file) = .ok previous) :
    ∃ p, previous = some p ∧ read lock pathDeps ho file = .ok p := by
  obtain ⟨p, hp, rfl⟩ := map_eq_ok.mp h
  exact ⟨p, rfl, mapError_eq_ok.mp hp⟩

omit [DecidableEq R] [VersionReq R] in
/-- Nothing that was loaded has the key of a checksum in its metadata. -/
theorem metadata_of_load {ho : HashOrder (EncodablePackageId S)} {before : Option LockFile}
    {previous : Option (Resolve S R)}
    (h : loadPkgLockfile lock pathDeps ho before = .ok previous) (p : Resolve S R)
    (hp : p ∈ previous) (k : String) (hk : k ∈ p.metadata) : isChecksumKey k = false := by
  cases before with
  | none =>
    cases h
    cases hp
  | some file =>
    obtain ⟨p', rfl, hread⟩ := loadPkgLockfile_some h
    cases hp
    obtain ⟨e, -, hinto⟩ := bind_eq_ok.mp hread
    exact metadata_of_intoResolve hinto hk

omit [VersionReq R] in
/-- Either the lock file says the same already, or it is written. -/
theorem writePkgLockfile_ok {cfg : LockConfig} {sorted edgeOrder : HashOrder (PackageId S)}
    {ho : HashOrder (EncodablePackageId S)} {orig : Option LockFile} {r : Resolve S R}
    {after : LockFile}
    (h : writePkgLockfile lock pathDeps cfg sorted edgeOrder ho orig r = .ok after) :
    write lock sorted edgeOrder r = .ok after ∨ cfg.lockUpdateAllowed = false ∧
      ∃ out old new, write lock sorted edgeOrder r = .ok out ∧
        (read lock pathDeps ho after : Except (LockError S) (Resolve S R)) = .ok old ∧
        read lock pathDeps ho out = .ok new ∧ sameResolve old new = true := by
  obtain ⟨out, hout, h⟩ := bind_eq_ok.mp h
  have hwrite := mapError_eq_ok.mp hout
  cases horig : orig.filter fun orig =>
    areEqualLockfiles (R := R) lock pathDeps cfg ho orig out with
  | none =>
    simp only [horig] at h
    split_ifs at h
    cases h
    exact .inl hwrite
  | some orig' =>
    simp only [horig] at h
    cases h
    have hequal := (Option.mem_filter_iff.mp horig).2
    rw [areEqualLockfiles, Bool.or_eq_true, Bool.and_eq_true, Bool.not_eq_true',
      decide_eq_true_eq] at hequal
    rcases hequal with ⟨hallowed, hequal⟩ | rfl
    · split at hequal
      · rename_i old new hold hnew
        exact .inr ⟨hallowed, out, old, new, hwrite, hold, hnew, hequal⟩
      · cases hequal
    · exact .inl hwrite

omit [VersionReq R] in
theorem writePkgLockfile_new {cfg : LockConfig} (hallowed : cfg.lockUpdateAllowed = true)
    {sorted edgeOrder : HashOrder (PackageId S)} {ho : HashOrder (EncodablePackageId S)}
    {r : Resolve S R} {out : LockFile} (h : write lock sorted edgeOrder r = .ok out) :
    writePkgLockfile lock pathDeps cfg sorted edgeOrder ho none r = .ok out := by
  simp only [writePkgLockfile, h, Except.mapError, bind, Except.bind, Option.filter_none, hallowed,
    if_true]

omit [VersionReq R] in
/-- A lock file that says the same already is left as it is, with any configuration. -/
theorem writePkgLockfile_same (cfg : LockConfig) {sorted edgeOrder : HashOrder (PackageId S)}
    {ho : HashOrder (EncodablePackageId S)} {r : Resolve S R} {out : LockFile}
    (h : write lock sorted edgeOrder r = .ok out) :
    writePkgLockfile lock pathDeps cfg sorted edgeOrder ho (some out) r = .ok out := by
  have hequal : areEqualLockfiles (R := R) lock pathDeps cfg ho out out = true := by
    simp [areEqualLockfiles]
  simp only [writePkgLockfile, h, Except.mapError, bind, Except.bind, Option.filter_some, hequal,
    if_true]

omit [DecidableEq R] [VersionReq R] in
theorem loadPkgLockfile_of_read {ho : HashOrder (EncodablePackageId S)} {file : LockFile}
    {r : Resolve S R} (h : read lock pathDeps ho file = .ok r) :
    loadPkgLockfile lock pathDeps ho (some file) = .ok (some r) := by
  simp only [loadPkgLockfile, h, Except.mapError, Except.map]

/-- What is read after a build, in any workspace. -/
theorem build_keeps {before : Option LockFile} {r : Resolve S R} {after : LockFile}
    (h : Build lock before r after) : Records lock after r := by
  obtain ⟨hdeps, hload, hsearch, hfinish, hsettled, hwrite⟩ := h
  rename_i pathDeps ho ids sorted edgeOrder patches cfg previous resolved
  have hpaths := pathsOnly_of_buildPathDeps hsettled.consistent hdeps
  have hencodable := encodable_of_settled hsearch (finishResolve_ok hfinish)
    (metadata_of_load hload) hsettled hdeps
  obtain ⟨out, r', hout, hread, hsame, -⟩ :=
    read_write lock pathDeps r hencodable sorted edgeOrder ho
  have hchecksums : SameChecksums lock r r'.checksums := by
    intro id hid hpath
    obtain ⟨c, hc, -⟩ := hencodable.checksums id hid hpath
    exact ⟨c, hc, by rw [hsame.checksums, if_pos ⟨hid, hpath⟩, hc]⟩
  rcases writePkgLockfile_ok hwrite with hafter | ⟨-, out', old, new, hout', hold, hnew, hequal⟩
  · obtain rfl : out = after := Except.ok.inj (hout.symm.trans hafter)
    exact records_of_read hpaths hread hchecksums hsame.metadata
  · obtain rfl : out = out' := Except.ok.inj (hout.symm.trans hout')
    obtain rfl : r' = new := Except.ok.inj (hread.symm.trans hnew)
    obtain ⟨-, -, -, hsums, hmeta, -⟩ := of_decide_eq_true hequal
    refine records_of_read hpaths hold ?_ (hmeta.trans hsame.metadata)
    rw [hsums]
    exact hchecksums

/-- One build after another: no checksum changes, and the metadata is kept. -/
theorem build_pinned {file after : LockFile} {r r' : Resolve S R} (hrecords : Records lock file r)
    (h : Build lock (some file) r' after) : r'.metadata = r.metadata ∧
      ∀ id ∈ r.graph.nodes, id ∈ r'.graph.nodes → lock.isPath id.sourceId = false →
        r'.checksums.lookup id = r.checksums.lookup id := by
  obtain ⟨hdeps, hload, hsearch, hfinish, hsettled, -⟩ := h
  have hfinished := finishResolve_ok hfinish
  have hencodable := encodable_of_settled hsearch hfinished (metadata_of_load hload) hsettled hdeps
  obtain ⟨p, rfl, hread⟩ := loadPkgLockfile_some hload
  obtain ⟨hchecksums, hmetadata⟩ :=
    hrecords _ _ p (pathsOnly_of_buildPathDeps hsettled.consistent hdeps) hread
  refine ⟨hfinished.metadata.trans hmetadata, ?_⟩
  intro id hid hid' hpath
  obtain ⟨c, hc, hp⟩ := hchecksums id hid hpath
  obtain ⟨m, hm, -⟩ := hencodable.checksums id hid' hpath
  rw [hc, hm, hfinished.pinned p rfl id c m hp (hfinished.checksums ▸ hm)]

/-- All builds after one have its metadata, and its checksums of the packages that they keep. -/
theorem builds_pinned {file : LockFile} {r : Resolve S R} {rs : List (Resolve S R)}
    (hrecords : Records lock file r) (h : Builds lock (some file) rs) :
    ∀ r' ∈ rs, r'.metadata = r.metadata ∧ ∀ id ∈ r.graph.nodes, (∀ r ∈ rs, id ∈ r.graph.nodes) →
      lock.isPath id.sourceId = false → r'.checksums.lookup id = r.checksums.lookup id := by
  induction rs generalizing file r with
  | nil => simp
  | cons r₁ rs ih =>
    obtain - | ⟨hbuild, hrest⟩ := h
    obtain ⟨hmetadata, hpinned⟩ := build_pinned hrecords hbuild
    intro r' hr'
    rcases List.mem_cons.mp hr' with rfl | hr'
    · exact ⟨hmetadata, fun id hid hall hpath =>
        hpinned id hid (hall r' List.mem_cons_self) hpath⟩
    · obtain ⟨hmetadata', hpinned'⟩ := ih (build_keeps hbuild) hrest r' hr'
      refine ⟨hmetadata'.trans hmetadata, fun id hid hall hpath => ?_⟩
      have hid₁ := hall r₁ List.mem_cons_self
      rw [hpinned' id hid₁ (fun r hr => hall r (List.mem_cons_of_mem _ hr)) hpath,
        hpinned id hid hid₁ hpath]

/-- Over any number of builds, in whatever workspaces and with whatever configuration: the metadata
that is not understood is kept, and a package that is not from a path has one checksum as long as it
is in the lock file. -/
theorem checksums_pinned {file : Option LockFile} {rs : List (Resolve S R)}
    (h : Builds lock file rs) : ∀ r ∈ rs, ∀ r' ∈ rs, r'.metadata = r.metadata ∧
      ∀ id : PackageId S, (∀ r ∈ rs, id ∈ r.graph.nodes) → lock.isPath id.sourceId = false →
        r'.checksums.lookup id = r.checksums.lookup id := by
  obtain - | ⟨hbuild, hrest⟩ := h
  · simp
  · rename_i first after rs
    -- all builds agree with the first one
    have hfirst : ∀ r ∈ first :: rs, r.metadata = first.metadata ∧ ∀ id : PackageId S,
        (∀ r ∈ first :: rs, id ∈ r.graph.nodes) → lock.isPath id.sourceId = false →
          r.checksums.lookup id = first.checksums.lookup id := by
      intro r hr
      rcases List.mem_cons.mp hr with rfl | hr
      · exact ⟨rfl, fun _ _ _ => rfl⟩
      · obtain ⟨hmetadata, hpinned⟩ := builds_pinned (build_keeps hbuild) hrest r hr
        exact ⟨hmetadata, fun id hall hpath => hpinned id (hall first List.mem_cons_self)
          (fun r hr => hall r (List.mem_cons_of_mem _ hr)) hpath⟩
    intro r hr r' hr'
    obtain ⟨hmetadata, hpinned⟩ := hfirst r hr
    obtain ⟨hmetadata', hpinned'⟩ := hfirst r' hr'
    exact ⟨hmetadata'.trans hmetadata.symm, fun id hall hpath =>
      (hpinned' id hall hpath).trans (hpinned id hall hpath).symm⟩

/-- The result of every build is read back from its lock file. -/
theorem build_read_write {fuel : ℕ} {ho ho' : HashOrder (EncodablePackageId S)}
    {ids sorted edgeOrder : HashOrder (PackageId S)} {patches : List (Summary S R)}
    {before : Option LockFile} {previous : Option (Resolve S R)} {resolved r : Resolve S R}
    (hdeps : buildPathDeps lock ws fuel = .ok pathDeps)
    (hload : loadPkgLockfile lock pathDeps ho before = .ok previous)
    (hsearch : Searched lock resolved)
    (hfinish : finishResolve ids patches previous resolved = .ok r) (hsettled : Settled lock ws r) :
    ∃ file r', write lock sorted edgeOrder r = .ok file ∧ read lock pathDeps ho' file = .ok r' ∧
      SameLock lock r r' ∧ write lock sorted edgeOrder r' = .ok file :=
  read_write lock pathDeps r (encodable_of_settled hsearch (finishResolve_ok hfinish)
    (metadata_of_load hload) hsettled hdeps) sorted edgeOrder ho'

omit [VersionReq R] [DecidableEq R] in
/-- What is merged with its own lock file stays the same. -/
theorem finishResolve_again {ids ids' : HashOrder (PackageId S)} {patches : List (Summary S R)}
    {previous : Option (Resolve S R)} {resolved r r' : Resolve S R}
    (hfinish : finishResolve ids patches previous resolved = .ok r) (hsame : SameLock lock r r') :
    finishResolve ids' patches (some r') resolved = .ok r := by
  have hfinished := finishResolve_ok hfinish
  refine mergeFrom_ok_iff.mpr ⟨?_, ?_⟩
  · intro id c m hc hm
    rw [hsame.checksums] at hc
    split_ifs at hc
    have hm' : r.checksums.lookup id = some m := hfinished.checksums ▸ hm
    exact Option.some.inj (hm'.symm.trans hc)
  · rw [hsame.metadata]
    cases previous with
    | none =>
      cases hfinish
      rfl
    | some p =>
      obtain ⟨-, rfl⟩ := mergeFrom_ok_iff.mp hfinish
      rfl

/-- A second build in the same workspace that finds the same graph: it merges it with what the first
one has written, and leaves the lock file as it is. So it passes with `--locked`. -/
theorem build_again {fuel : ℕ} {ho ho' : HashOrder (EncodablePackageId S)}
    {ids ids' sorted edgeOrder : HashOrder (PackageId S)} {patches : List (Summary S R)}
    {cfg cfg' : LockConfig} {before : Option LockFile} {previous : Option (Resolve S R)}
    {resolved r : Resolve S R} {after : LockFile}
    (hdeps : buildPathDeps lock ws fuel = .ok pathDeps)
    (hload : loadPkgLockfile lock pathDeps ho before = .ok previous)
    (hsearch : Searched lock resolved)
    (hfinish : finishResolve ids patches previous resolved = .ok r) (hsettled : Settled lock ws r)
    (hallowed : cfg.lockUpdateAllowed = true)
    (hwrite : writePkgLockfile lock pathDeps cfg sorted edgeOrder ho before r = .ok after) :
    ∃ previous', loadPkgLockfile lock pathDeps ho' (some after) = .ok (some previous') ∧
      finishResolve ids' patches (some previous') resolved = .ok r ∧
      writePkgLockfile lock pathDeps cfg' sorted edgeOrder ho' (some after) r = .ok after := by
  have hencodable := encodable_of_settled hsearch (finishResolve_ok hfinish)
    (metadata_of_load hload) hsettled hdeps
  obtain ⟨out, r', hout, hread, hsame, -⟩ :=
    read_write lock pathDeps r hencodable sorted edgeOrder ho'
  have hafter : write lock sorted edgeOrder r = .ok after := by
    rcases writePkgLockfile_ok hwrite with hafter | ⟨hnot, -⟩
    · exact hafter
    · rw [hallowed] at hnot
      cases hnot
  obtain rfl : out = after := Except.ok.inj (hout.symm.trans hafter)
  exact ⟨r', loadPkgLockfile_of_read hread, finishResolve_again hfinish hsame,
    writePkgLockfile_same cfg' hout⟩

end Builds

/-! ### A package that depends on a registry -/

section Foo

/-- The package `foo`, which depends on `bar`. -/
def fooSummary : Summary SourceKey (List Version) where
  packageId := foo
  dependencies := [Dependency.parse "bar" [bar.version] bar.sourceId]
  features := ∅
  checksum := none
  links := none
  namespacedFeatures := false
  names_disjoint := fun _ _ _ => Finmap.notMem_empty
  optional_transitive := by decide

/-- The package `bar` of the registry. -/
def barSummary : Summary SourceKey (List Version) where
  packageId := bar
  dependencies := []
  features := ∅
  checksum := some "9f86d081"
  links := none
  namespacedFeatures := false
  names_disjoint := fun _ _ _ => Finmap.notMem_empty
  optional_transitive := by decide

/-- The order of package ids. -/
noncomputable def fooOrder : HashOrder (PackageId SourceKey) := .following [foo, bar]

/-- Both packages as a registry. -/
noncomputable def fooEnv : Env SourceKey (List Version) where
  registry := .ofList [fooSummary, barSummary]
  heap := .simple
  names _ _ := .following []
  ids _ := fooOrder.toSetOrder

/-- What the search finds for `foo`. -/
def isFooResolve (r : Resolve SourceKey (List Version)) : Bool :=
  decide (∀ id ∈ r.graph.nodes.keys, id = foo ∨ id = bar) && decide (bar ∈ r.graph.nodes.keys) &&
    decide (∀ id ∈ r.checksums.keys, r.checksums.lookup id ≠ some (some "<none>"))

/-- The packages of `foo` and `bar`, with what the lock file needs to know of them. -/
theorem exists_searched : ∃ r : Resolve SourceKey (List Version), Searched plainEnv r ∧
    Settled plainEnv fooWorkspace r ∧ bar ∈ r.graph.nodes ∧ r.unusedPatches = [] := by
  have hrun : ((step fooEnv)^[4] (start fooEnv
      [(fooSummary, .required true [] false true)])).foundWith (fun cx =>
        isFooResolve cx.toResolve &&
        ((checkCycles fooOrder fooOrder cx.toResolve cx.summaryOf).isOk &&
        checkDuplicatePkgsInLockfile (encodeSource plainEnv) cx.toResolve)) = true := by
    decide +kernel
  obtain ⟨cx, hcx, hrun⟩ := Machine.exists_of_foundWith hrun
  rw [Bool.and_eq_true, Bool.and_eq_true] at hrun
  obtain ⟨hfoo, hcycles, hduplicates⟩ := hrun
  simp only [isFooResolve, Bool.and_eq_true, decide_eq_true_eq, Finmap.mem_keys] at hfoo
  obtain ⟨⟨hnodes, hbar⟩, hchecksums⟩ := hfoo
  have hcheck : ∃ checked,
      checkCycles fooOrder fooOrder cx.toResolve cx.summaryOf = .ok checked := by
    cases hcheck : checkCycles fooOrder fooOrder cx.toResolve cx.summaryOf with
    | ok checked => exact ⟨checked, rfl⟩
    | error e =>
      rw [hcheck] at hcycles
      cases hcycles
  have hplain : ∀ id, ¬ Overridden fooEnv.registry id := by
    rintro id ⟨s, r, -, hr⟩
    rw [RegistryQueryer.override_of_nil rfl] at hr
    cases hr
  have hmem : ∀ id, id ∈ cx.toResolve.graph.nodes ∨ id ∈ cx.toResolve.unusedPatches →
      id = foo ∨ id = bar :=
    fun id hid => hnodes id (hid.resolve_right List.not_mem_nil)
  refine ⟨cx.toResolve, ⟨fooEnv, fooOrder, fooOrder, _, ⟨cx, ⟨4, hcx⟩, rfl, hcheck, hduplicates⟩,
    fun _ _ _ => hplain _, fun _ _ => hplain _⟩, ?_, hbar, rfl⟩
  refine ⟨fooWorkspace_consistent, fooWorkspace_names, ?_, ?_, ?_⟩
  · intro id hid hpath
    rcases hmem id hid with rfl | rfl
    · exact ⟨fooPackage, .member List.mem_cons_self rfl, rfl, rfl⟩
    · cases hpath
  · intro id hid
    rcases hmem id hid with rfl | rfl
    · exact ⟨Finmap.singleton "foo" foo.sourceId, found_foo (Finmap.lookup_singleton_eq)⟩
    · exact ⟨∅, found_bar⟩
  · intro id hnone
    exact hchecksums id (Finmap.mem_of_lookup_eq_some hnone) hnone

theorem finishResolve_none (ids : HashOrder (PackageId SourceKey))
    {r : Resolve SourceKey (List Version)} (h : r.unusedPatches = []) :
    finishResolve ids [] none r = .ok r := by
  obtain ⟨_, _, _, _, _, unused⟩ := r
  cases h
  rfl

/-- The lock file of `foo` and `bar` is read back. -/
theorem build_read_write_foo : ∃ (pathDeps : Finmap fun _ : String => SourceKey)
    (r : Resolve SourceKey (List Version)),
    buildPathDeps plainEnv fooWorkspace 3 = .ok pathDeps ∧ bar ∈ r.graph.nodes ∧
    ∃ file r', write plainEnv fooOrder fooOrder r = .ok file ∧
      read plainEnv pathDeps (.following []) file = .ok r' ∧ SameLock plainEnv r r' ∧
      write plainEnv fooOrder fooOrder r' = .ok file := by
  obtain ⟨r, hsearch, hsettled, hbar, hunused⟩ := exists_searched
  obtain ⟨pathDeps, hdeps⟩ := exists_pathDeps_foo
  have hload :
      loadPkgLockfile (R := List Version) plainEnv pathDeps (.following []) none = .ok none := rfl
  exact ⟨pathDeps, r, hdeps, hbar, build_read_write hdeps hload hsearch
    (finishResolve_none fooOrder hunused) hsettled⟩

/-- The first build of `foo`, which writes the lock file. -/
theorem exists_build_foo : ∃ (pathDeps : Finmap fun _ : String => SourceKey)
    (r r' : Resolve SourceKey (List Version)) (file : LockFile),
    buildPathDeps plainEnv fooWorkspace 3 = .ok pathDeps ∧ Searched plainEnv r ∧
    Settled plainEnv fooWorkspace r ∧ bar ∈ r.graph.nodes ∧ r.unusedPatches = [] ∧
    write plainEnv fooOrder fooOrder r = .ok file ∧
    read plainEnv pathDeps (.following []) file = .ok r' ∧ SameLock plainEnv r r' := by
  obtain ⟨r, hsearch, hsettled, hbar, hunused⟩ := exists_searched
  obtain ⟨pathDeps, hdeps⟩ := exists_pathDeps_foo
  have hfinish := finishResolve_none fooOrder hunused
  have hencodable :=
    encodable_of_settled hsearch (finishResolve_ok hfinish) (by simp) hsettled hdeps
  obtain ⟨file, r', hfile, hread, hsame, -⟩ :=
    read_write plainEnv pathDeps r hencodable fooOrder fooOrder (.following [])
  exact ⟨pathDeps, r, r', file, hdeps, hsearch, hsettled, hbar, hunused, hfile, hread, hsame⟩

/-- `foo` is built once more, with `--locked`. -/
theorem build_again_foo : ∃ (pathDeps : Finmap fun _ : String => SourceKey)
    (resolved previous : Resolve SourceKey (List Version)) (file : LockFile),
    loadPkgLockfile plainEnv pathDeps (.following []) (some file) = .ok (some previous) ∧
    finishResolve fooOrder [] (some previous) resolved = .ok resolved ∧
    writePkgLockfile plainEnv pathDeps ⟨false, true, false⟩ fooOrder fooOrder (.following [])
      (some file) resolved = .ok file := by
  obtain ⟨pathDeps, r, r', file, hdeps, hsearch, hsettled, -, hunused, hfile, -, -⟩ :=
    exists_build_foo
  have hload :
      loadPkgLockfile (R := List Version) plainEnv pathDeps (.following []) none = .ok none := rfl
  have hwrite : writePkgLockfile plainEnv pathDeps ⟨true, true, false⟩ fooOrder fooOrder
      (.following []) none r = .ok file := writePkgLockfile_new rfl hfile
  obtain ⟨previous, hagain⟩ := build_again hdeps hload hsearch
    (finishResolve_none fooOrder hunused) hsettled rfl hwrite
  exact ⟨pathDeps, r, previous, file, hagain⟩

/-- `bar` has one checksum over two builds. -/
theorem checksums_pinned_foo : ∃ r : Resolve SourceKey (List Version),
    Builds plainEnv none [r, r] ∧ bar ∈ r.graph.nodes ∧
    ∀ r' ∈ [r, r], ∀ r'' ∈ [r, r], r''.checksums.lookup bar = r'.checksums.lookup bar := by
  obtain ⟨pathDeps, r, previous, file, hdeps, hsearch, hsettled, hbar, hunused, hfile, hread,
    hsame⟩ := exists_build_foo
  have hfinish := finishResolve_none fooOrder hunused
  have hload :
      loadPkgLockfile (R := List Version) plainEnv pathDeps (.following []) none = .ok none := rfl
  have hwrite : writePkgLockfile plainEnv pathDeps ⟨true, true, false⟩ fooOrder fooOrder
      (.following []) none r = .ok file := writePkgLockfile_new rfl hfile
  have hfirst : Build plainEnv none r file := .mk hdeps hload hsearch hfinish hsettled hwrite
  have hagain : finishResolve fooOrder [] (some previous) r = .ok r :=
    finishResolve_again hfinish hsame
  have hlocked : writePkgLockfile plainEnv pathDeps ⟨false, true, false⟩ fooOrder fooOrder
      (.following []) (some file) r = .ok file := writePkgLockfile_same _ hfile
  have hsecond : Build plainEnv (some file) r file :=
    .mk hdeps (loadPkgLockfile_of_read hread) hsearch hagain hsettled hlocked
  have hbuilds : Builds plainEnv none [r, r] := .cons hfirst (.cons hsecond (.nil _))
  have hall : ∀ r' ∈ [r, r], bar ∈ r'.graph.nodes := by
    simp [hbar]
  exact ⟨r, hbuilds, hbar, fun r' hr' r'' hr'' =>
    (checksums_pinned hbuilds r' hr' r'' hr'').2 bar hall rfl⟩

end Foo

end Cargo.Ops.Lockfile
