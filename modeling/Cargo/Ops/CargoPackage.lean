import Cargo.Sources.Path

/-!
# Packing a package

The archive of a package holds the files that are listed, but for the manifest: that is replaced by
a normalised one, and the original is put beside it under another name. What is generated besides,
information on the commit and the lock file, shares the names with the files of the user, and only
the first of them is checked against the listing. The archive is unambiguous exactly when the files
listed have different names, the manifest is one of them, and none has the name under which the
original manifest is kept.

## Main definitions

* `checkVcsFileCollision`, `tar`
* `Unambiguous` — every entry of the archive is the only one of its path, and holds what it should
* `Packable` — no name of a listing is taken twice

## Main results

* `tar_eq_ok` — what the entries of an archive are
* `unambiguous_iff` — for which listings the archive is unambiguous
-/

set_option autoImplicit false

namespace Cargo.Ops.CargoPackage

open Cargo.Math Cargo.Util Cargo.Util.Paths Cargo.Sources

abbrev Text := List Char

abbrev Contents := List UInt8

/-! ### The archive -/

/-- The ways in which packing fails. -/
inductive Failure
  /-- An `unwrap` of a file that is not below the package. -/
  | notBelow
  /-- `Invalid inclusion of reserved file name .cargo_vcs_info.json in package source` -/
  | vcsCollision
  /-- `path does not have a unicode filename which may not unpack on all platforms: {}` -/
  | filename (file : FilePath)
  /-- `cannot package a filename with a special character `{}`: {}` -/
  | specialCharacter (c : Char) (file : FilePath)
  /-- `non-utf8 path in source directory: {}` -/
  | nonUtf8 (relative : FilePath)
  /-- `failed to add to archive: `{}`` -/
  | setPath (path : Text)
  /-- A file cannot be read. -/
  | io
  /-- The normalised manifest cannot be made. -/
  | registryToml
  /-- The information on the commit cannot be written. -/
  | json
  deriving DecidableEq

/-- A target of the package, as far as it is looked at. -/
structure Target where
  isExample : Bool
  isBin : Bool

/-- What packing reads of a package and of its workspace. -/
structure Package where
  root : FilePath
  name : Text
  version : Text
  publishLockfile : Bool
  targets : List Target
  /-- `to_registry_toml`, the normalised manifest. -/
  registryToml : Except Failure Contents
  /-- The lock file of the workspace. -/
  lockfile : Except Failure Contents

/-- What packing needs of its surroundings. -/
structure Env where
  /-- `File::open`, and all that is read from it. -/
  read : FilePath → Except Failure Contents
  /-- `header.set_path`: is the path one that the header can hold? -/
  fits : Text → Bool

/-- An entry of the archive. -/
structure Entry where
  path : Text
  contents : Contents
  deriving DecidableEq

def vcsInfoFile : String := ".cargo_vcs_info.json"

def includeLockfile (pkg : Package) : Bool :=
  pkg.publishLockfile && pkg.targets.any fun t => t.isExample || t.isBin

/-- Is no source file the one that the information on the commit is written to? -/
def checkVcsFileCollision (pkg : Package) : List FilePath → Except Failure Unit
  | [] => .ok ()
  | p :: srcFiles =>
    match p.withoutPrefix pkg.root with
    | none => .error .notBelow
    | some relative =>
      if relative = FilePath.child [] vcsInfoFile then .error .vcsCollision
      else checkVcsFileCollision pkg srcFiles

def badChars : List Char := ['/', '\\', '<', '>', ':', '"', '|', '?', '*']

/-- `check_filename` -/
def checkFilename (file : FilePath) : Except Failure Unit :=
  match file.fileName with
  | none => .ok ()
  | some name =>
    match name.toStr with
    | none => .error (.filename file)
    | some name =>
      match badChars.find? fun c => name.contains c with
      | some c => .error (.specialCharacter c file)
      | none => .ok ()

section Tar

variable (env : Env) (pkg : Package)

/-- `{name}-{version}/{relative}` -/
def entryPath (relative : Text) : Text :=
  pkg.name ++ ['-'] ++ pkg.version ++ ['/'] ++ relative

/-- An entry, if its path fits into the header. -/
def append (relative : Text) (contents : Contents) : Except Failure Entry :=
  if env.fits (entryPath pkg relative) then .ok ⟨entryPath pkg relative, contents⟩
  else .error (.setPath (entryPath pkg relative))

/-- The entries of one file: the manifest has two. -/
def archiveFile (file : FilePath) : Except Failure (List Entry) :=
  match file.withoutPrefix pkg.root with
  | none => .error .notBelow
  | some path => do
    checkFilename path
    match path.osText.toStr with
    | none => .error (.nonUtf8 path)
    | some relative =>
      if !env.fits (entryPath pkg relative) then .error (.setPath (entryPath pkg relative))
      else do
        let contents ← env.read file
        -- the manifest as it is, and as it is published
        if relative = "Cargo.toml".toList then do
          let orig ← append env pkg "Cargo.toml.orig".toList contents
          let toml ← pkg.registryToml
          let normalised ← append env pkg relative toml
          .ok [orig, normalised]
        else do
          let entry ← append env pkg relative contents
          .ok [entry]

/-- The information on the commit, as it is written, if there is any. -/
def infoEntries : Option (Except Failure Contents) → Except Failure (List Entry)
  | none => .ok []
  | some json => do
    let contents ← json
    let entry ← append env pkg vcsInfoFile.toList contents
    .ok [entry]

/-- The lock file, if it is to be packed. -/
def lockEntries : Except Failure (List Entry) :=
  if includeLockfile pkg then do
    let contents ← pkg.lockfile
    let entry ← append env pkg "Cargo.lock".toList contents
    .ok [entry]
  else .ok []

/-- `tar`: the entries of the archive. -/
def tar (srcFiles : List FilePath) (vcsInfo : Option (Except Failure Contents)) :
    Except Failure (List Entry) := do
  let files ← srcFiles.mapM (archiveFile env pkg)
  let info ← infoEntries env pkg vcsInfo
  let lock ← lockEntries env pkg
  .ok (files.flatten ++ info ++ lock)

end Tar

/-! ### What is wanted of an archive -/

/-- The path of a file in the package, as it is written. -/
def relText (pkg : Package) (file : FilePath) : Option Text :=
  (file.withoutPrefix pkg.root).bind fun path => path.osText.toStr

/-- The archive has one entry of this path, and it holds `contents`. -/
def HoldsOnce (archive : List Entry) (path : Text) (contents : Contents) : Prop :=
  archive.filter (fun e => e.path = path) = [⟨path, contents⟩]

/-- Every entry is the only one of its path, and holds what it should. -/
structure Unambiguous (env : Env) (pkg : Package) (files : List FilePath)
    (vcsInfo : Option (Except Failure Contents)) (archive : List Entry) : Prop where
  distinct : (archive.map Entry.path).Nodup
  own : ∀ file ∈ files, ∀ relative, relText pkg file = some relative →
    relative ≠ "Cargo.toml".toList → ∀ contents, env.read file = .ok contents →
    HoldsOnce archive (entryPath pkg relative) contents
  manifest : ∃ toml, pkg.registryToml = .ok toml ∧
    HoldsOnce archive (entryPath pkg "Cargo.toml".toList) toml
  original : ∃ contents, env.read (pkg.root.child "Cargo.toml") = .ok contents ∧
    HoldsOnce archive (entryPath pkg "Cargo.toml.orig".toList) contents
  info : ∀ json, vcsInfo = some json → ∃ contents, json = .ok contents ∧
    HoldsOnce archive (entryPath pkg vcsInfoFile.toList) contents
  lock : includeLockfile pkg = true → ∃ contents, pkg.lockfile = .ok contents ∧
    HoldsOnce archive (entryPath pkg "Cargo.lock".toList) contents

/-- The files listed have different paths in the package, the manifest is one of them, and none of
them is where its original goes. -/
structure Packable (pkg : Package) (files : List FilePath) : Prop where
  nodup : (files.map (relText pkg)).Nodup
  manifest : pkg.root.child "Cargo.toml" ∈ files
  no_original : pkg.root.child "Cargo.toml.orig" ∉ files

/-! ### The entries of an archive -/

section Entries

variable {env : Env} {pkg : Package} {files : List FilePath} {file : FilePath}
  {vcsInfo : Option (Except Failure Contents)} {archive : List Entry}

/-- A file whose path in the package is written as a single name. -/
theorem relText_eq_some_name {name : String}
    (hname : slash ∉ OsText.ofText name.toList ∧ OsText.ofText name.toList ≠ [] ∧
      OsText.ofText name.toList ≠ [dot] ∧ OsText.ofText name.toList ≠ [dot, dot]) :
    relText pkg file = some name.toList ↔ file = pkg.root.child name := by
  obtain ⟨hslash, hnil, hdot, hdots⟩ := hname
  unfold relText
  rw [Option.bind_eq_some_iff]
  constructor
  · rintro ⟨path, hpath, htext⟩
    have hos : path.osText = OsText.ofText name.toList := OsText.eq_ofText_of_toStr htext
    rw [FilePath.withoutPrefix_eq_some] at hpath
    rw [hpath, FilePath.eq_singleton_of_osText hos hslash hnil hdot hdots, FilePath.child]
  · rintro rfl
    refine ⟨[.normal (OsText.ofText name.toList)], ?_, ?_⟩
    · exact FilePath.withoutPrefix_eq_some.mpr rfl
    · rw [FilePath.osText, List.map_singleton, List.intercalate_singleton]
      exact OsText.toStr_ofText name.toList

theorem relText_eq_manifest :
    relText pkg file = some "Cargo.toml".toList ↔ file = pkg.root.child "Cargo.toml" :=
  relText_eq_some_name (by decide)

theorem relText_eq_original :
    relText pkg file = some "Cargo.toml.orig".toList ↔ file = pkg.root.child "Cargo.toml.orig" :=
  relText_eq_some_name (by decide)

theorem relText_eq_lock :
    relText pkg file = some "Cargo.lock".toList ↔ file = pkg.root.child "Cargo.lock" :=
  relText_eq_some_name (by decide)

theorem relText_eq_info :
    relText pkg file = some vcsInfoFile.toList ↔ file = pkg.root.child vcsInfoFile :=
  relText_eq_some_name (by decide)

theorem entryPath_injective (pkg : Package) : Function.Injective (entryPath pkg) := by
  intro a b h
  unfold entryPath at h
  exact List.append_cancel_left h

theorem append_eq_ok {relative : Text} {contents : Contents} {entry : Entry}
    (h : append env pkg relative contents = .ok entry) :
    entry = ⟨entryPath pkg relative, contents⟩ := by
  unfold append at h
  split at h <;> cases h
  rfl

/-- The entries that come of one file. -/
theorem archiveFile_eq_ok {es : List Entry} (h : archiveFile env pkg file = .ok es) :
    ∃ relative contents, relText pkg file = some relative ∧ env.read file = .ok contents ∧
      ((relative = "Cargo.toml".toList ∧ ∃ toml, pkg.registryToml = .ok toml ∧
          es = [⟨entryPath pkg "Cargo.toml.orig".toList, contents⟩,
            ⟨entryPath pkg relative, toml⟩]) ∨
        (relative ≠ "Cargo.toml".toList ∧ es = [⟨entryPath pkg relative, contents⟩])) := by
  unfold archiveFile at h
  split at h
  · cases h
  · rename_i path hpath
    obtain ⟨-, -, h⟩ := bind_eq_ok.mp h
    split at h
    · cases h
    · rename_i relative hrelative
      split at h
      · cases h
      · obtain ⟨contents, hcontents, h⟩ := bind_eq_ok.mp h
        refine ⟨relative, contents, ?_, hcontents, ?_⟩
        · rw [relText, hpath]
          exact hrelative
        · by_cases hmanifest : relative = "Cargo.toml".toList
          · rw [if_pos hmanifest] at h
            -- the file as it is, and the manifest that is made of it
            obtain ⟨orig, horig, h⟩ := bind_eq_ok.mp h
            obtain ⟨toml, htoml, h⟩ := bind_eq_ok.mp h
            obtain ⟨normalised, hnormalised, h⟩ := bind_eq_ok.mp h
            cases h
            rw [append_eq_ok horig, append_eq_ok hnormalised]
            exact .inl ⟨hmanifest, toml, htoml, rfl⟩
          · rw [if_neg hmanifest] at h
            obtain ⟨entry, hentry, h⟩ := bind_eq_ok.mp h
            cases h
            rw [append_eq_ok hentry]
            exact .inr ⟨hmanifest, rfl⟩

/-- The names under which one file is packed. -/
def packedNames (relative : Text) : List Text :=
  if relative = "Cargo.toml".toList then ["Cargo.toml.orig".toList, relative] else [relative]

/-- The names that are generated. -/
def generatedNames (pkg : Package) (vcsInfo : Option (Except Failure Contents)) : List Text :=
  (if vcsInfo.isSome then [vcsInfoFile.toList] else []) ++
    if includeLockfile pkg then ["Cargo.lock".toList] else []

theorem map_path_of_archiveFile {es : List Entry} (h : archiveFile env pkg file = .ok es) :
    ∃ relative, relText pkg file = some relative ∧
      es.map Entry.path = (packedNames relative).map (entryPath pkg) := by
  obtain ⟨relative, contents, hrelative, -, hes⟩ := archiveFile_eq_ok h
  refine ⟨relative, hrelative, ?_⟩
  rcases hes with ⟨hmanifest, toml, -, rfl⟩ | ⟨hmanifest, rfl⟩
  · rw [packedNames, if_pos hmanifest]
    rfl
  · rw [packedNames, if_neg hmanifest]
    rfl

theorem map_path_of_archiveFiles {found : List (List Entry)}
    (h : files.mapM (archiveFile env pkg) = .ok found) :
    ∃ relatives : List Text, files.map (relText pkg) = relatives.map some ∧
      found.flatten.map Entry.path = (relatives.flatMap packedNames).map (entryPath pkg) := by
  induction mapM_eq_ok.mp h with
  | nil => exact ⟨[], rfl, rfl⟩
  | @cons file es files found hes htail ih =>
    obtain ⟨relatives, hmap, hpaths⟩ := ih (mapM_eq_ok.mpr htail)
    obtain ⟨relative, hrelative, hpath⟩ := map_path_of_archiveFile hes
    refine ⟨relative :: relatives, ?_, ?_⟩
    · rw [List.map_cons, List.map_cons, hrelative, hmap]
    · rw [List.flatten_cons, List.map_append, hpath, hpaths, List.flatMap_cons, List.map_append]

/-- What is in an archive: the entries of the files, then what is generated. -/
theorem tar_eq_ok (h : tar env pkg files vcsInfo = .ok archive) :
    ∃ found info lock, files.mapM (archiveFile env pkg) = .ok found ∧
      archive = found.flatten ++ info ++ lock ∧
      (info ++ lock).map Entry.path = (generatedNames pkg vcsInfo).map (entryPath pkg) ∧
      (∀ json, vcsInfo = some json → ∃ contents, json = .ok contents ∧
        ⟨entryPath pkg vcsInfoFile.toList, contents⟩ ∈ info) ∧
      (includeLockfile pkg = true → ∃ contents, pkg.lockfile = .ok contents ∧
        ⟨entryPath pkg "Cargo.lock".toList, contents⟩ ∈ lock) := by
  obtain ⟨found, hfound, h⟩ := bind_eq_ok.mp h
  obtain ⟨info, hinfo, h⟩ := bind_eq_ok.mp h
  obtain ⟨lock, hlock, h⟩ := bind_eq_ok.mp h
  cases h
  refine ⟨found, info, lock, hfound, rfl, ?_, ?_, ?_⟩
  · rw [List.map_append, generatedNames, List.map_append]
    congr 1
    · cases vcsInfo with
      | none =>
        cases hinfo
        rfl
      | some json =>
        obtain ⟨contents, -, hinfo⟩ := bind_eq_ok.mp hinfo
        obtain ⟨entry, hentry, hinfo⟩ := bind_eq_ok.mp hinfo
        cases hinfo
        rw [append_eq_ok hentry]
        rfl
    -- the lock file comes last, if it is included
    · unfold lockEntries at hlock
      split at hlock
      · rename_i hinclude
        obtain ⟨contents, -, hlock⟩ := bind_eq_ok.mp hlock
        obtain ⟨entry, hentry, hlock⟩ := bind_eq_ok.mp hlock
        cases hlock
        rw [append_eq_ok hentry, if_pos hinclude]
        rfl
      · rename_i hinclude
        cases hlock
        rw [if_neg hinclude]
        rfl
  · rintro json rfl
    obtain ⟨contents, hjson, hinfo⟩ := bind_eq_ok.mp hinfo
    obtain ⟨entry, hentry, hinfo⟩ := bind_eq_ok.mp hinfo
    cases hinfo
    rw [append_eq_ok hentry]
    exact ⟨contents, hjson, List.mem_singleton_self _⟩
  · intro hinclude
    rw [lockEntries, if_pos hinclude] at hlock
    obtain ⟨contents, hcontents, hlock⟩ := bind_eq_ok.mp hlock
    obtain ⟨entry, hentry, hlock⟩ := bind_eq_ok.mp hlock
    cases hlock
    rw [append_eq_ok hentry]
    exact ⟨contents, hcontents, List.mem_singleton_self _⟩

/-- No file listed has the name of the information on the commit. -/
theorem not_mem_of_check (h : checkVcsFileCollision pkg files = .ok ()) :
    pkg.root.child vcsInfoFile ∉ files := by
  induction files with
  | nil => simp
  | cons p files ih =>
    rw [checkVcsFileCollision] at h
    split at h
    · cases h
    · rename_i relative hrelative
      split at h
      · cases h
      · rename_i hne
        rw [List.mem_cons, not_or]
        refine ⟨?_, ih h⟩
        rintro rfl
        rw [FilePath.withoutPrefix_eq_some] at hrelative
        exact hne (List.append_cancel_left hrelative).symm

end Entries

/-! ### Names that are taken twice -/

section Names

theorem self_mem_packedNames (relative : Text) : relative ∈ packedNames relative := by
  unfold packedNames
  split <;> simp

theorem mem_packedNames {relative name : Text} : name ∈ packedNames relative ↔
    name = relative ∨ (relative = "Cargo.toml".toList ∧ name = "Cargo.toml.orig".toList) := by
  unfold packedNames
  split
  · rename_i h
    rw [List.mem_pair]
    tauto
  · rename_i h
    rw [List.mem_singleton]
    tauto

/-- The names of files are different after packing if they were before, and the original of the
manifest does not get the name of another file. -/
theorem nodup_flatMap_packedNames {relatives : List Text} :
    (relatives.flatMap packedNames).Nodup ↔ relatives.Nodup ∧
      ("Cargo.toml".toList ∈ relatives → "Cargo.toml.orig".toList ∉ relatives) := by
  rw [List.nodup_flatMap]
  constructor
  · rintro ⟨-, hdisjoint⟩
    refine ⟨hdisjoint.imp ?_, fun hmanifest horiginal => ?_⟩
    · rintro a b hab rfl
      exact hab (self_mem_packedNames a) (self_mem_packedNames a)
    -- the manifest is packed under both names
    · have hsymm : Std.Symm (Function.onFun List.Disjoint packedNames) :=
        ⟨fun _ _ h => List.Disjoint.symm h⟩
      have hpair := hdisjoint.forall hmanifest horiginal (by decide)
      exact hpair (mem_packedNames.mpr (.inr ⟨rfl, rfl⟩)) (self_mem_packedNames _)
  · rintro ⟨hnodup, horiginal⟩
    refine ⟨fun relative _ => ?_, ?_⟩
    · unfold packedNames
      split
      · rename_i h
        rw [h]
        decide
      · exact List.nodup_singleton relative
    · refine hnodup.imp_of_mem fun {a b} ha hb hne name hna hnb => ?_
      rcases mem_packedNames.mp hna with rfl | ⟨rfl, rfl⟩
      · rcases mem_packedNames.mp hnb with rfl | ⟨rfl, rfl⟩
        · exact hne rfl
        · exact horiginal hb ha
      · rcases mem_packedNames.mp hnb with rfl | ⟨rfl, -⟩
        · exact horiginal ha hb
        · exact hne rfl

end Names

/-! ### Archives without ambiguity -/

section Unambiguous

variable {I : Type} {fs : FileSystem} {git : Git I} {crates : PatternCrates} {rules : Rules}
  {env : Env} {pkg : Package} {files : List FilePath} {fuel : ℕ}
  {vcsInfo : Option (Except Failure Contents)} {archive : List Entry}

/-- In an archive of different paths, every entry is the only one of its path. -/
theorem holdsOnce_of_mem (hdistinct : (archive.map Entry.path).Nodup) {path : Text}
    {contents : Contents} (h : ⟨path, contents⟩ ∈ archive) : HoldsOnce archive path contents := by
  unfold HoldsOnce
  induction archive with
  | nil => cases h
  | cons e archive ih =>
    obtain ⟨hnot, hdistinct⟩ := List.nodup_cons.mp hdistinct
    rcases List.mem_cons.mp h with rfl | h
    · rw [List.filter_cons_of_pos (by simp), List.filter_eq_nil_iff.mpr]
      intro e' he'
      rw [decide_eq_true_eq]
      intro heq
      exact hnot (List.mem_map.mpr ⟨e', he', heq⟩)
    · rw [List.filter_cons_of_neg, ih hdistinct h]
      rw [decide_eq_true_eq]
      intro heq
      exact hnot (List.mem_map.mpr ⟨_, h, heq.symm⟩)

theorem HoldsOnce.mem {path : Text} {contents : Contents} (h : HoldsOnce archive path contents) :
    path ∈ archive.map Entry.path := by
  have hmem : ⟨path, contents⟩ ∈ archive.filter fun e => e.path = path := by
    rw [h]
    exact List.mem_singleton_self _
  exact List.mem_map_of_mem (f := Entry.path) (List.mem_of_mem_filter hmem)

theorem mem_generatedNames {name : Text} (h : name ∈ generatedNames pkg vcsInfo) :
    name = vcsInfoFile.toList ∨ name = "Cargo.lock".toList := by
  unfold generatedNames at h
  rcases List.mem_append.mp h with h | h
  · split at h
    · exact .inl (List.mem_singleton.mp h)
    · cases h
  · split at h
    · exact .inr (List.mem_singleton.mp h)
    · cases h

theorem nodup_generatedNames : (generatedNames pkg vcsInfo).Nodup := by
  unfold generatedNames
  split <;> split <;> decide

/-- The names in an archive: those of the files, as they are packed, and those that are generated.
The two have none in common. -/
theorem names_of_tar (hmanifest : fs.exists? (pkg.root.child "Cargo.toml") = true)
    (hlist : listFiles fs git crates rules fuel pkg.root = .ok files)
    (hcheck : checkVcsFileCollision pkg files = .ok ())
    (htar : tar env pkg files vcsInfo = .ok archive) :
    ∃ relatives : List Text, files.map (relText pkg) = relatives.map some ∧
      archive.map Entry.path =
        (relatives.flatMap packedNames ++ generatedNames pkg vcsInfo).map (entryPath pkg) ∧
      (relatives.flatMap packedNames).Disjoint (generatedNames pkg vcsInfo) := by
  obtain ⟨found, info, lock, hfound, rfl, hgenerated, -, -⟩ := tar_eq_ok htar
  obtain ⟨relatives, hmap, hpaths⟩ := map_path_of_archiveFiles hfound
  refine ⟨relatives, hmap, ?_, ?_⟩
  · rw [List.append_assoc, List.map_append, hpaths, hgenerated, List.map_append]
  · intro name hname hgenerated
    obtain ⟨relative, hrelative, hpacked⟩ := List.mem_flatMap.mp hname
    obtain ⟨file, hfile, htext⟩ := List.mem_map.mp (hmap ▸ List.mem_map_of_mem hrelative)
    -- a generated name is not the one of the original, so a file has it
    obtain rfl : name = relative := by
      rcases mem_packedNames.mp hpacked with rfl | ⟨-, rfl⟩
      · rfl
      · rcases mem_generatedNames hgenerated with h | h
        · exact absurd h (by decide)
        · exact absurd h (by decide)
    rcases mem_generatedNames hgenerated with rfl | rfl
    · exact not_mem_of_check hcheck (relText_eq_info.mp htext ▸ hfile)
    · exact (listFiles_listable hmanifest hlist file hfile).2 (relText_eq_lock.mp htext)

/-- The archive of a package is unambiguous exactly when its listing is without repetition, has the
manifest, and does not have the name under which the original manifest is kept. -/
theorem unambiguous_iff (hmanifest : fs.exists? (pkg.root.child "Cargo.toml") = true)
    (hlist : listFiles fs git crates rules fuel pkg.root = .ok files)
    (hcheck : checkVcsFileCollision pkg files = .ok ())
    (htar : tar env pkg files vcsInfo = .ok archive) :
    Unambiguous env pkg files vcsInfo archive ↔ Packable pkg files := by
  obtain ⟨relatives, hmap, hpaths, hdisjoint⟩ := names_of_tar hmanifest hlist hcheck htar
  have hmem : ∀ {file relative}, relText pkg file = some relative →
      file ∈ files → relative ∈ relatives := by
    intro file relative htext hfile
    have hsome : some relative ∈ relatives.map some := by
      rw [← hmap, ← htext]
      exact List.mem_map_of_mem hfile
    simpa using hsome
  have hmem' : ∀ {relative}, relative ∈ relatives →
      ∃ file ∈ files, relText pkg file = some relative := by
    intro relative hrelative
    exact List.mem_map.mp (hmap ▸ List.mem_map_of_mem hrelative)
  have hnodup : (archive.map Entry.path).Nodup ↔ relatives.Nodup ∧
      ("Cargo.toml".toList ∈ relatives → "Cargo.toml.orig".toList ∉ relatives) := by
    rw [hpaths, List.nodup_map_iff (entryPath_injective pkg), List.nodup_append',
      nodup_flatMap_packedNames]
    exact ⟨fun h => h.1, fun h => ⟨h, nodup_generatedNames, hdisjoint⟩⟩
  have hrelatives : (files.map (relText pkg)).Nodup ↔ relatives.Nodup := by
    rw [hmap, List.nodup_map_iff (Option.some_injective _)]
  constructor
  · intro h
    obtain ⟨hdistinct, horiginal⟩ := hnodup.mp h.distinct
    obtain ⟨toml, -, htoml⟩ := h.manifest
    have hlisted : "Cargo.toml".toList ∈ relatives := by
      have hentry := htoml.mem
      rw [hpaths, List.mem_map_of_injective (entryPath_injective pkg), List.mem_append] at hentry
      rcases hentry with hentry | hentry
      · obtain ⟨relative, hrelative, hpacked⟩ := List.mem_flatMap.mp hentry
        rcases mem_packedNames.mp hpacked with rfl | ⟨-, heq⟩
        · exact hrelative
        · exact absurd heq (by decide)
      · rcases mem_generatedNames hentry with heq | heq
        · exact absurd heq (by decide)
        · exact absurd heq (by decide)
    refine ⟨hrelatives.mpr hdistinct, ?_, fun hfile => ?_⟩
    · obtain ⟨file, hfile, htext⟩ := hmem' hlisted
      exact relText_eq_manifest.mp htext ▸ hfile
    · exact horiginal hlisted (hmem (relText_eq_original.mpr rfl) hfile)
  · intro h
    have hdistinct : (archive.map Entry.path).Nodup := by
      refine hnodup.mpr ⟨hrelatives.mp h.nodup, fun _ horiginal => ?_⟩
      obtain ⟨file, hfile, htext⟩ := hmem' horiginal
      exact h.no_original (relText_eq_original.mp htext ▸ hfile)
    obtain ⟨found, info, lock, hfound, rfl, -, hinfo, hlock⟩ := tar_eq_ok htar
    have hpacked : ∀ {es e}, es ∈ found → e ∈ es → e ∈ found.flatten ++ info ++ lock := by
      intro es e hes he
      exact List.mem_append_left _ (List.mem_append_left _ (List.mem_flatten_of_mem hes he))
    -- the manifest is packed twice, under the two names
    obtain ⟨es, hes, harchive⟩ := exists_of_mapM_ok hfound h.manifest
    obtain ⟨relative, contents, htext, hcontents, hcase⟩ := archiveFile_eq_ok harchive
    rw [relText_eq_manifest.mpr rfl, Option.some.injEq] at htext
    subst htext
    obtain ⟨-, toml, htoml, rfl⟩ := hcase.resolve_right fun h => h.1 rfl
    refine ⟨hdistinct, ?_, ⟨toml, htoml, ?_⟩, ⟨contents, hcontents, ?_⟩, ?_, ?_⟩
    · intro file hfile relative htext hne contents hcontents
      obtain ⟨es, hes, harchive⟩ := exists_of_mapM_ok hfound hfile
      obtain ⟨relative', contents', htext', hcontents', hcase⟩ := archiveFile_eq_ok harchive
      rw [htext, Option.some.injEq] at htext'
      rw [hcontents, Except.ok.injEq] at hcontents'
      subst htext' hcontents'
      obtain ⟨-, rfl⟩ := hcase.resolve_left fun h => hne h.1
      exact holdsOnce_of_mem hdistinct (hpacked hes (List.mem_singleton_self _))
    · exact holdsOnce_of_mem hdistinct (hpacked hes (by simp))
    · exact holdsOnce_of_mem hdistinct (hpacked hes (by simp))
    · intro json hjson
      obtain ⟨contents, hcontents, hentry⟩ := hinfo json hjson
      refine ⟨contents, hcontents, holdsOnce_of_mem hdistinct ?_⟩
      exact List.mem_append_left _ (List.mem_append_right _ hentry)
    · intro hinclude
      obtain ⟨contents, hcontents, hentry⟩ := hlock hinclude
      refine ⟨contents, hcontents, holdsOnce_of_mem hdistinct ?_⟩
      exact List.mem_append_right _ hentry

end Unambiguous

/-! ### Two packages -/

/-- The package `p`, version 1, in the directory `/p`. -/
def sample : Package where
  root := samplePackage
  name := ['p']
  version := ['1']
  publishLockfile := false
  targets := []
  registryToml := .ok [1]
  lockfile := .error .io

/-- A directory with files of these names. -/
def directoryOf (names : List String) : FileSystem where
  isDir path := path = samplePackage
  isFile _ := false
  exists? _ := true
  readDir _ := .ok (names.map fun name => OsText.ofText name.toList)

/-- There are no repositories. -/
def noGit : Git Empty where
  openAt _ := none
  workdir _ := none
  index _ := .ok []
  statuses _ _ := .ok []
  submodule _ _ := none

/-- No pattern matches anything. -/
def noPatterns : PatternCrates where
  glob _ := some fun _ => false
  gitignore _ _ := some fun _ => .none

/-- Every file has the same contents, and every path fits. -/
def sampleEnv : Env where
  read _ := .ok [2]
  fits _ := true

/-- The archive of a manifest and a library, with the state of the repository. -/
theorem sample_unambiguous :
    Unambiguous sampleEnv sample
      [samplePackage.child "Cargo.toml", samplePackage.child "lib.rs"] (some (.ok [3]))
      [⟨"p-1/Cargo.toml.orig".toList, [2]⟩, ⟨"p-1/Cargo.toml".toList, [1]⟩,
        ⟨"p-1/lib.rs".toList, [2]⟩, ⟨"p-1/.cargo_vcs_info.json".toList, [3]⟩] := by
  have hlist : listFiles (directoryOf ["lib.rs", "Cargo.toml"]) noGit noPatterns ⟨[], []⟩ 2
      samplePackage = .ok [samplePackage.child "Cargo.toml", samplePackage.child "lib.rs"] := by
    decide
  refine (unambiguous_iff rfl hlist (by decide) (by decide)).mpr ?_
  exact ⟨by decide, by decide, by decide⟩

/-- A file that was left by an earlier packing takes the name of the original manifest. -/
theorem original_name_taken :
    listFiles (directoryOf ["Cargo.toml", "Cargo.toml.orig"]) noGit noPatterns ⟨[], []⟩ 2
        samplePackage =
        .ok [samplePackage.child "Cargo.toml", samplePackage.child "Cargo.toml.orig"] ∧
      checkVcsFileCollision sample
        [samplePackage.child "Cargo.toml", samplePackage.child "Cargo.toml.orig"] = .ok () ∧
      ∃ archive, tar sampleEnv sample
          [samplePackage.child "Cargo.toml", samplePackage.child "Cargo.toml.orig"] none =
          .ok archive ∧
        ¬ Unambiguous sampleEnv sample
          [samplePackage.child "Cargo.toml", samplePackage.child "Cargo.toml.orig"] none
          archive := by
  refine ⟨by decide, by decide, _, rfl, fun h => ?_⟩
  exact absurd h.distinct (by decide)

end Cargo.Ops.CargoPackage
