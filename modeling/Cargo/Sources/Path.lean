import Mathlib.Data.List.Sort
import Cargo.Math.Iteration
import Cargo.Math.Pruning
import Cargo.Util.Paths

/-!
# The files of a package

A path source lists the files of a package. If the package is part of a git repository, the index
of the repository and its untracked files say what there is; otherwise the directories are walked.
A directory with a manifest of its own is another package, and what is in it is left out. In the
listing of a repository the manifests come in the midst of the other files, so files are thrown out
again when the manifest next to them is found.

What the operating system, the git library and the crates for patterns say is taken as given.

## Main definitions

* `FileSystem`, `Git`, `PatternCrates`
* `walk`, `listFilesGit`, `listFiles`
* `PackageFile` — which of the entries of a repository are files of the package

## Main results

* `listFilesGit_plain` — the files listed do not depend on the order of the entries
* `listFiles_listable` — what is listed at all
-/

set_option autoImplicit false

namespace Cargo.Sources

open Cargo.Math Cargo.Util Cargo.Util.Paths

/-! ### Paths -/

/-- A path, given by its components. -/
abbrev FilePath := List Component

/-- A component as it is written. -/
def pieceText : Component → OsText
  | .rootDir => []
  | .curDir => [dot]
  | .parentDir => [dot, dot]
  | .normal name => name

namespace FilePath

variable (self : FilePath)

/-- `starts_with` -/
def startsWith (base : FilePath) : Bool := base.isPrefixOf self

/-- `file_name` -/
def fileName : Option OsText :=
  match self.getLast? with
  | some (.normal name) => some name
  | _ => none

/-- The name of a file, if it is one of characters. -/
def fileNameStr : Option (List Char) := self.fileName.bind OsText.toStr

/-- `parent` of a path that has a file name. -/
def parent : FilePath := self.dropLast

/-- `join` with the name of a file or directory. -/
def child (name : String) : FilePath := self ++ [.normal (OsText.ofText name.toList)]

/-- `without_prefix` -/
def withoutPrefix (base : FilePath) : Option FilePath :=
  if self.startsWith base then some (self.drop base.length) else none

/-- The path as it is written. -/
def osText : OsText := [slash].intercalate (self.map pieceText)

end FilePath

/-! ### What is taken as given -/

/-- The ways in which listing files fails. -/
inductive Failure
  /-- The operating system refuses something. -/
  | io
  /-- `Can't list files on a bare repository.` -/
  | bareRepository
  /-- `invalid utf-8 filename: {}` -/
  | invalidUtf8 (rel : FilePath)
  /-- `could not parse glob pattern `{}`: {}` -/
  | globPattern (pattern : List Char)
  /-- A rule that the crate for ignore files does not read. -/
  | ignoreRule
  /-- `exclude rules cannot start with `!`: {}` -/
  | excludeWhitelist (original : List Char)
  /-- `include rules cannot start with `!`: {}` -/
  | includeWhitelist (original : List Char)
  /-- The library for git fails. -/
  | git
  /-- An `unwrap` of a path that is not below another. -/
  | notBelow
  /-- The recursion of the code has not ended at this depth. -/
  | depth
  deriving DecidableEq

/-- What the operating system says about paths. -/
structure FileSystem where
  /-- `metadata(path)` is that of a directory. -/
  isDir : FilePath → Bool
  isFile : FilePath → Bool
  /-- `metadata(path)` is there. -/
  exists? : FilePath → Bool
  /-- The names in a directory, in any order. -/
  readDir : FilePath → Except Failure (List OsText)

/-- An entry of the index of a repository. -/
structure IndexEntry where
  path : FilePath
  /-- There are several entries for a path that is in conflict. -/
  stage : ℕ
  /-- The mode is `GIT_FILEMODE_COMMIT`: the entry is a submodule. -/
  isCommit : Bool

/-- `git2::Status`, as far as the listing looks at it. -/
inductive Status
  | wtNew
  | other
  deriving DecidableEq

/-- What the git library says about the repositories `I`. -/
structure Git (I : Type) where
  /-- `Repository::open` -/
  openAt : FilePath → Option I
  workdir : I → Option FilePath
  index : I → Except Failure (List IndexEntry)
  /-- The changed paths, limited to a directory if one is given. -/
  statuses : I → Option FilePath → Except Failure (List (FilePath × Status))
  /-- `find_submodule(name).and_then(|s| s.open())` -/
  submodule : I → List Char → Option I

/-- `index.get_path(path, 0).is_some()` -/
def indexed (index : List IndexEntry) (path : FilePath) : Bool :=
  index.any fun e => decide (e.path = path) && e.stage == 0

/-- What a rule says about a path. -/
inductive Match
  | none
  | ignore
  | whitelist (original : List Char)

/-- The crates that match paths against the rules of a manifest. -/
structure PatternCrates where
  /-- `Pattern::new`, with `matches_path`. -/
  glob : List Char → Option (FilePath → Bool)
  /-- `GitignoreBuilder`, with `matched_path_or_any_parents` for files. -/
  gitignore : FilePath → List (List Char) → Option (FilePath → Match)

/-! ### Directories -/

/-- The bytes by which names are sorted. -/
def osBytes (t : OsText) : List UInt8 :=
  t.flatMap fun
    | .char c => String.utf8EncodeChar c
    | .byte b _ => [b]

/-- Names in the order in which the code goes through them. -/
def sortNames (names : List OsText) : List OsText :=
  names.insertionSort fun a b => osBytes a ≤ osBytes b

/-- Is a name of a directory gone into? Hidden files are not, and at the root neither are the lock
file and the build artifacts. -/
def walked (isRoot : Bool) (name : OsText) : Bool :=
  match name.toStr with
  | none => true
  | some s =>
    s.head? ≠ some '.' &&
      !(isRoot && (decide (s = "target".toList) || decide (s = "Cargo.lock".toList)))

/-- `PathSource::walk`: the files below a path, without those of other packages. The first argument
bounds the depth. -/
def walk (fs : FileSystem) (filter : FilePath → Except Failure Bool) :
    ℕ → FilePath → Bool → Except Failure (List FilePath)
  | 0, _, _ => .error .depth
  | fuel + 1, path, isRoot =>
    if !fs.isDir path then do
      if ← filter path then .ok [path] else .ok []
    -- a package of its own
    else if !isRoot && fs.exists? (path.child "Cargo.toml") then .ok []
    else do
      let names ← fs.readDir path
      let found ← ((sortNames names).filter (walked isRoot)).mapM fun name =>
        walk fs filter fuel (path ++ [.normal name]) false
      .ok found.flatten

/-! ### Repositories -/

/-- The files found so far, and the directories of other packages. -/
structure Found where
  ret : List FilePath
  subpackagesFound : List FilePath

/-- A path that is not known to be part of another package. -/
def addFile (fs : FileSystem) (filter : FilePath → Except Failure Bool)
    (directory : FilePath → Except Failure (List FilePath)) (s : Found)
    (entry : FilePath × Option Bool) : Except Failure Found :=
  if s.subpackagesFound.any fun p => entry.1.startsWith p then .ok s
  else if entry.2.getD (fs.isDir entry.1) then do
    let files ← directory entry.1
    .ok { s with ret := s.ret ++ files }
  else do
    if ← filter entry.1 then .ok { s with ret := s.ret ++ [entry.1] } else .ok s

/-- One path of the repository; `directory` lists what is in a directory. -/
def visit (fs : FileSystem) (filter : FilePath → Except Failure Bool) (pkgPath : FilePath)
    (directory : FilePath → Except Failure (List FilePath)) (s : Found)
    (entry : FilePath × Option Bool) : Except Failure Found :=
  let filePath := entry.1
  if !filePath.startsWith pkgPath then .ok s
  else if filePath.fileNameStr = some "Cargo.lock".toList ∨
      filePath.fileNameStr = some "target".toList then .ok s
  -- a package below this one, whose files are not part of it
  else if filePath.fileNameStr = some "Cargo.toml".toList ∧ filePath.parent ≠ pkgPath then
    .ok
      { ret := s.ret.filter fun p => !p.startsWith filePath.parent
        subpackagesFound := s.subpackagesFound ++ [filePath.parent] }
  else addFile fs filter directory s entry

section Repositories

variable {I : Type} (fs : FileSystem) (git : Git I) (filter : FilePath → Except Failure Bool)
  (pkgPath : FilePath)

/-- The paths of the index, with whether they are submodules, and the untracked paths. -/
def withUntracked (repo : I) (root : FilePath) (index : List IndexEntry) :
    Except Failure (List (FilePath × Option Bool)) := do
  let statuses ← git.statuses repo (pkgPath.withoutPrefix root)
  .ok ((index.map fun e => (root ++ e.path, some e.isCommit)) ++
    statuses.filterMap fun entry =>
      if entry.2 = .wtNew then some (root ++ entry.1, none) else none)

/-- What the repository knows of. -/
def entries (repo : I) (root : FilePath) : Except Failure (List (FilePath × Option Bool)) := do
  let index ← git.index repo
  withUntracked git pkgPath repo root index

/-- `r"\"` replaced by `/`. -/
def forwardSlashes (rel : List Char) : List Char := rel.map fun c => if c = '\\' then '/' else c

/-- The files in a directory of the repository. -/
def directoryFiles (nested : I → Except Failure (List FilePath)) (fuel : ℕ) (repo : I)
    (root dir : FilePath) : Except Failure (List FilePath) :=
  match dir.withoutPrefix root with
  | none => .error .notBelow
  | some rel =>
    match rel.osText.toStr with
    | none => .error (.invalidUtf8 rel)
    | some name =>
      match git.submodule repo (forwardSlashes name) with
      | some repo => nested repo
      | none => walk fs filter fuel dir false

/-- `PathSource::list_files_git`. The first argument bounds the depth of submodules and of
directories. -/
def listFilesGit : ℕ → I → Except Failure (List FilePath)
  | 0, _ => .error .depth
  | fuel + 1, repo => do
    let index ← git.index repo
    match git.workdir repo with
    | none => .error .bareRepository
    | some root => do
      let entries ← withUntracked git pkgPath repo root index
      let found ← entries.foldlM
        (visit fs filter pkgPath
          (directoryFiles fs git filter (listFilesGit fuel) fuel repo root)) ⟨[], []⟩
      .ok found.ret

/-- `discover_git_and_list_files`, from the directories `cur`, `cur.parent()` and so on, which are
given: the listing of the repository next to a manifest that has the package in its index. -/
def discoverGit (fuel : ℕ) : List FilePath → Option (Except Failure (List FilePath))
  | [] => none
  | cur :: parents =>
    -- no repository is looked for above one
    let next := if fs.isDir (cur.child ".git") then none else discoverGit fuel parents
    if !fs.isFile (cur.child "Cargo.toml") then next
    else
      match git.openAt cur with
      | none => next
      | some repo =>
        match git.index repo with
        | .error e => some (.error e)
        | .ok index =>
          match pkgPath.withoutPrefix cur with
          | none => some (.error .notBelow)
          | some suffix =>
            if indexed index (suffix.child "Cargo.toml") then
              some (listFilesGit fs git filter pkgPath fuel repo)
            else next

end Repositories

/-! ### The listing -/

/-- What the listing reads of a manifest. -/
structure Rules where
  includes : List (List Char)
  exclude : List (List Char)

/-- A leading slash is not part of a glob pattern. -/
def globParse (crates : PatternCrates) (p : List Char) : Except Failure (FilePath → Bool) :=
  let pattern := if p.head? = some '/' then p.tail else p
  match crates.glob pattern with
  | some matches? => .ok matches?
  | none => .error (.globPattern p)

def ignoreRules (crates : PatternCrates) (root : FilePath) (rules : List (List Char)) :
    Except Failure (FilePath → Match) :=
  match crates.gitignore root rules with
  | some matched => .ok matched
  | none => .error .ignoreRule

/-- What the rules in the manner of ignore files say. -/
def ignoreShouldPackage (noIncludeOption : Bool) (ignoreExclude ignoreInclude : FilePath → Match)
    (relativePath : FilePath) : Except Failure Bool :=
  if noIncludeOption then
    match ignoreExclude relativePath with
    | .none => .ok true
    | .ignore => .ok false
    | .whitelist original => .error (.excludeWhitelist original)
  else
    match ignoreInclude relativePath with
    | .none => .ok false
    | .ignore => .ok true
    | .whitelist original => .error (.includeWhitelist original)

/-- The files that the manifest wants to have packaged. Where the two kinds of rules disagree the
code prints a warning, which is left out; the glob patterns decide. -/
def rulesFilter (crates : PatternCrates) (root : FilePath) (rules : Rules) :
    Except Failure (FilePath → Except Failure Bool) := do
  let noIncludeOption := rules.includes.isEmpty
  let globExclude ← rules.exclude.mapM (globParse crates)
  let globInclude ← rules.includes.mapM (globParse crates)
  let ignoreExclude ← ignoreRules crates root rules.exclude
  let ignoreInclude ← ignoreRules crates root rules.includes
  .ok fun path =>
    match path.withoutPrefix root with
    | none => .error .notBelow
    | some relativePath => do
      let _ ← ignoreShouldPackage noIncludeOption ignoreExclude ignoreInclude relativePath
      .ok (if noIncludeOption then !globExclude.any fun pattern => pattern relativePath
        else globInclude.any fun pattern => pattern relativePath)

/-- `PathSource::list_files`, for a package in the directory `root`. -/
def listFiles {I : Type} (fs : FileSystem) (git : Git I) (crates : PatternCrates) (rules : Rules)
    (fuel : ℕ) (root : FilePath) : Except Failure (List FilePath) := do
  let filter ← rulesFilter crates root rules
  let fromGit :=
    if rules.includes.isEmpty then discoverGit fs git filter root fuel (root.inits.drop 1).reverse
    else none
  match fromGit with
  | some result => result
  | none => walk fs filter fuel root true

/-! ### Paths below others -/

section Below

variable {p q d : FilePath} {name : String}

theorem FilePath.startsWith_iff : p.startsWith q = true ↔ q <+: p := by
  rw [startsWith, List.isPrefixOf_iff_prefix]

@[simp] theorem FilePath.parent_child (d : FilePath) (name : String) : (d.child name).parent = d :=
  List.dropLast_concat

@[simp] theorem FilePath.fileNameStr_child (d : FilePath) (name : String) :
    (d.child name).fileNameStr = some name.toList := by
  rw [fileNameStr, fileName, child, List.getLast?_concat]
  exact OsText.toStr_ofText name.toList

/-- A path with a file name is the child of its parent. -/
theorem FilePath.eq_child_of_fileNameStr (h : p.fileNameStr = some name.toList) :
    p = p.parent.child name := by
  obtain ⟨t, hname, hstr⟩ := Option.bind_eq_some_iff.mp h
  have hlast : p.getLast? = some (.normal t) := by
    rw [fileName] at hname
    split at hname
    · cases hname
      assumption
    · cases hname
  have ht : t = OsText.ofText name.toList := OsText.eq_ofText_of_toStr hstr
  obtain ⟨front, rfl⟩ := List.getLast?_eq_some_iff.mp hlast
  rw [parent, child, List.dropLast_concat, ht]

/-- What a child of `d` is below, `d` is below, or it is that child. -/
theorem FilePath.prefix_of_prefix_child (h : p <+: d.child name) : p <+: d ∨ p = d.child name := by
  rcases List.prefix_concat_iff.mp h with heq | hp
  · exact .inr heq
  · exact .inl hp

theorem FilePath.withoutPrefix_eq_some {r : FilePath} :
    p.withoutPrefix q = some r ↔ p = q ++ r := by
  unfold withoutPrefix
  constructor
  · intro h
    split_ifs at h with hprefix
    obtain ⟨t, rfl⟩ := startsWith_iff.mp hprefix
    rw [List.drop_left, Option.some.injEq] at h
    rw [h]
  · rintro rfl
    rw [if_pos (startsWith_iff.mpr (List.prefix_append q r)), List.drop_left]

/-- What is written as a single name is one. -/
theorem FilePath.eq_singleton_of_osText {t : OsText} (h : p.osText = t) (hslash : slash ∉ t)
    (hnil : t ≠ []) (hdot : t ≠ [dot]) (hdots : t ≠ [dot, dot]) : p = [.normal t] := by
  match p with
  | [] => exact absurd h.symm hnil
  | [c] =>
    rw [osText, List.map_singleton, List.intercalate_singleton] at h
    cases c with
    | rootDir => exact absurd h.symm hnil
    | curDir => exact absurd h.symm hdot
    | parentDir => exact absurd h.symm hdots
    | normal name => rw [← h, pieceText]
  | c :: c' :: cs =>
    refine absurd ?_ hslash
    rw [← h, osText, List.map_cons, List.map_cons, List.intercalate_cons_cons]
    simp

end Below

/-! ### The order of the entries -/

section Plain

variable (pkgPath : FilePath) (accept : FilePath → Bool)

/-- `file` is a file of the package in `pkgPath`, as far as it is one of the paths `listed`: it is
not in a directory, below that of the package, with a manifest of its own. -/
structure PackageFile (listed : Set FilePath) (file : FilePath) : Prop where
  mem : file ∈ listed
  below : pkgPath <+: file
  not_lock : file.fileNameStr ≠ some "Cargo.lock".toList
  not_target : file.fileNameStr ≠ some "target".toList
  accepted : accept file = true
  own : ∀ dir : FilePath, pkgPath <+: dir → dir ≠ pkgPath → dir.child "Cargo.toml" ∈ listed →
    ¬ dir <+: file

/-- What becomes of a path that is not a directory. -/
def roleOf (file : FilePath) : Role FilePath :=
  if !file.startsWith pkgPath then .skip
  else if file.fileNameStr = some "Cargo.lock".toList ∨
      file.fileNameStr = some "target".toList then .skip
  else if file.fileNameStr = some "Cargo.toml".toList ∧ file.parent ≠ pkgPath then .bar file.parent
  else if accept file then .keep else .skip

/-- A pruned sequence of paths as what was found. -/
def Found.ofPruned (s : Pruned FilePath FilePath) : Found := ⟨s.kept, s.bars⟩

variable {pkgPath accept} {fs : FileSystem} {directory : FilePath → Except Failure (List FilePath)}

theorem addFile_plain (s : Found) {entry : FilePath × Option Bool}
    (hplain : entry.2.getD (fs.isDir entry.1) = false) :
    addFile fs (fun p => .ok (accept p)) directory s entry =
      .ok (if (s.subpackagesFound.any fun p => entry.1.startsWith p) = true then s
        else if accept entry.1 then { s with ret := s.ret ++ [entry.1] } else s) := by
  unfold addFile
  rw [hplain]
  by_cases hany : (s.subpackagesFound.any fun p => entry.1.startsWith p) = true
  · rw [if_pos hany, if_pos hany]
  · rw [if_neg hany, if_neg hany, if_neg Bool.false_ne_true]
    change (if accept entry.1 = true then Except.ok _ else Except.ok s) = _
    split <;> rfl

/-- One plain file changes what was found as one element of a sequence to be pruned. -/
theorem visit_plain (s : Pruned FilePath FilePath) {entry : FilePath × Option Bool}
    (hplain : entry.2.getD (fs.isDir entry.1) = false) :
    visit fs (fun p => .ok (accept p)) pkgPath directory (.ofPruned s) entry =
      .ok (.ofPruned (prune (fun d f => f.startsWith d) (roleOf pkgPath accept) s entry.1)) := by
  simp only [visit, prune, roleOf, Found.ofPruned]
  by_cases hbelow : (!entry.1.startsWith pkgPath) = true
  · simp only [if_pos hbelow]
  · simp only [if_neg hbelow]
    by_cases hname : entry.1.fileNameStr = some "Cargo.lock".toList ∨
        entry.1.fileNameStr = some "target".toList
    · simp only [if_pos hname]
    · simp only [if_neg hname]
      by_cases hsub : entry.1.fileNameStr = some "Cargo.toml".toList ∧ entry.1.parent ≠ pkgPath
      · simp only [if_pos hsub]
      · simp only [if_neg hsub, addFile_plain _ hplain]
        by_cases haccept : accept entry.1 = true
        · simp only [if_pos haccept]
          split <;> rfl
        · simp only [if_neg haccept, ite_self]

theorem foldlM_visit_plain (s : Pruned FilePath FilePath) {es : List (FilePath × Option Bool)}
    (hplain : ∀ e ∈ es, e.2.getD (fs.isDir e.1) = false) :
    es.foldlM (visit fs (fun p => .ok (accept p)) pkgPath directory) (.ofPruned s) =
      .ok (.ofPruned ((es.map Prod.fst).foldl
        (prune (fun d f => f.startsWith d) (roleOf pkgPath accept)) s)) := by
  induction es generalizing s with
  | nil => rfl
  | cons e es ih =>
    rw [List.foldlM_cons, visit_plain s (hplain e List.mem_cons_self)]
    exact ih (prune _ _ s e.1) fun e' he' => hplain e' (List.mem_cons_of_mem e he')

theorem roleOf_bar? {p dir : FilePath} : (roleOf pkgPath accept p).bar? = some dir ↔
    pkgPath <+: p ∧ p.fileNameStr = some "Cargo.toml".toList ∧ p.parent = dir ∧
      p.parent ≠ pkgPath := by
  unfold roleOf
  rw [← FilePath.startsWith_iff]
  by_cases hsub : p.fileNameStr = some "Cargo.toml".toList ∧ p.parent ≠ pkgPath
  · obtain ⟨hname, hne⟩ := hsub
    by_cases hbelow : p.startsWith pkgPath = true
    · simp [hbelow, hname, hne, Role.bar?]
    · simp [hbelow, Role.bar?]
  · rw [if_neg hsub]
    constructor
    · intro hbar
      split_ifs at hbar <;> cases hbar
    · rintro ⟨-, hname, -, hne⟩
      exact absurd ⟨hname, hne⟩ hsub

theorem roleOf_isKeep {p : FilePath} : (roleOf pkgPath accept p).isKeep = true ↔
    pkgPath <+: p ∧ p.fileNameStr ≠ some "Cargo.lock".toList ∧
      p.fileNameStr ≠ some "target".toList ∧ accept p = true ∧
      (p.fileNameStr = some "Cargo.toml".toList → p.parent = pkgPath) := by
  unfold roleOf
  rw [← FilePath.startsWith_iff]
  split_ifs with hbelow hname hsub haccept
  · simp_all [Role.isKeep]
  · rcases hname with hname | hname <;> simp [Role.isKeep, hname]
  · simp [Role.isKeep, hsub]
  · rw [not_or] at hname
    rw [not_and_not_right] at hsub
    simp_all [Role.isKeep]
  · simp [Role.isKeep, haccept]

/-- The directories that are barred are those below the package with a manifest. -/
theorem mem_bars_iff {paths : List FilePath} (hroot : pkgPath ∉ paths) {dir : FilePath} :
    dir ∈ paths.filterMap (fun p => (roleOf pkgPath accept p).bar?) ↔
      pkgPath <+: dir ∧ dir ≠ pkgPath ∧ dir.child "Cargo.toml" ∈ paths := by
  rw [List.mem_filterMap]
  constructor
  · rintro ⟨p, hp, hbar⟩
    obtain ⟨hbelow, hname, rfl, hne⟩ := roleOf_bar?.mp hbar
    have hchild := FilePath.eq_child_of_fileNameStr hname
    rw [hchild] at hbelow
    rcases FilePath.prefix_of_prefix_child hbelow with hdir | heq
    · exact ⟨hdir, hne, hchild ▸ hp⟩
    · rw [← hchild] at heq
      exact absurd (heq ▸ hp) hroot
  · rintro ⟨hbelow, hne, hmem⟩
    refine ⟨dir.child "Cargo.toml", hmem, roleOf_bar?.mpr ⟨?_, ?_, ?_, ?_⟩⟩
    · exact hbelow.trans (List.prefix_append _ _)
    · exact FilePath.fileNameStr_child dir "Cargo.toml"
    · exact FilePath.parent_child dir "Cargo.toml"
    · rwa [FilePath.parent_child]

end Plain

section Git

variable {I : Type} {fs : FileSystem} {git : Git I} {pkgPath root : FilePath} {repo : I}
  {accept : FilePath → Bool} {es : List (FilePath × Option Bool)}

/-- The entries of a repository are plain files, and the package is in a directory. -/
structure PlainEntries (fs : FileSystem) (pkgPath : FilePath)
    (es : List (FilePath × Option Bool)) : Prop where
  package : fs.isDir pkgPath = true
  not_submodule : ∀ e ∈ es, e.2 ≠ some true
  not_directory : ∀ e ∈ es, fs.isDir e.1 = false

theorem PlainEntries.getD_eq_false (h : PlainEntries fs pkgPath es) :
    ∀ e ∈ es, e.2.getD (fs.isDir e.1) = false := by
  intro e he
  have hsub := h.not_submodule e he
  have hdir := h.not_directory e he
  cases hkind : e.2 with
  | none => simpa using hdir
  | some isDir =>
    cases isDir with
    | false => rfl
    | true => exact absurd hkind hsub

theorem PlainEntries.root_not_mem (h : PlainEntries fs pkgPath es) :
    pkgPath ∉ es.map Prod.fst := by
  intro hmem
  obtain ⟨e, he, heq⟩ := List.mem_map.mp hmem
  have hdir := h.not_directory e he
  rw [heq, h.package] at hdir
  cases hdir

/-- The files listed are the files of the package, in whatever order the repository has them. -/
theorem listFilesGit_plain (hworkdir : git.workdir repo = some root)
    (hentries : entries git pkgPath repo root = .ok es) (hplain : PlainEntries fs pkgPath es)
    (fuel : ℕ) :
    ∃ files, listFilesGit fs git (fun p => .ok (accept p)) pkgPath (fuel + 1) repo = .ok files ∧
      ∀ file, file ∈ files ↔ PackageFile pkgPath accept {p | p ∈ es.map Prod.fst} file := by
  have hroot := hplain.root_not_mem
  refine ⟨(es.map Prod.fst).filter (stays (fun d f => f.startsWith d) (roleOf pkgPath accept)
    ((es.map Prod.fst).filterMap fun p => (roleOf pkgPath accept p).bar?)), ?_, fun file => ?_⟩
  · obtain ⟨index, hindex, hall⟩ := bind_eq_ok.mp hentries
    rw [listFilesGit, hindex, hworkdir]
    change (withUntracked git pkgPath repo root index >>= _) = _
    rw [hall]
    -- each entry is a file, so the loop is that of pruning
    change (es.foldlM _ (Found.ofPruned ⟨[], []⟩) >>= fun found => Except.ok found.ret) = _
    rw [foldlM_visit_plain ⟨[], []⟩ hplain.getD_eq_false, foldl_prune]
    rfl
  · rw [List.mem_filter, stays, Bool.and_eq_true, roleOf_isKeep, Bool.not_eq_true',
      List.any_eq_false]
    constructor
    · rintro ⟨hmem, ⟨hbelow, hlock, htarget, haccept, -⟩, hbars⟩
      refine ⟨hmem, hbelow, hlock, htarget, haccept, fun dir hdir hne hchild hin => ?_⟩
      exact hbars dir ((mem_bars_iff hroot).mpr ⟨hdir, hne, hchild⟩)
        (FilePath.startsWith_iff.mpr hin)
    · intro h
      refine ⟨h.mem, ⟨h.below, h.not_lock, h.not_target, h.accepted, fun hname => ?_⟩, ?_⟩
      · -- a manifest below the package would bar itself
        by_contra hne
        have hchild := FilePath.eq_child_of_fileNameStr hname
        have hbelow := h.below
        rw [hchild] at hbelow
        rcases FilePath.prefix_of_prefix_child hbelow with hdir | heq
        · refine h.own file.parent hdir hne ?_ (List.dropLast_prefix file)
          rw [← hchild]
          exact h.mem
        · exact hroot (heq ▸ hchild ▸ h.mem)
      · intro dir hdir hin
        obtain ⟨hbelow, hne, hchild⟩ := (mem_bars_iff hroot).mp hdir
        exact h.own dir hbelow hne hchild (FilePath.startsWith_iff.mp hin)

/-- The package `/p`, which is all of a repository. -/
def samplePackage : FilePath := [.rootDir, .normal (OsText.ofText ['p'])]

/-- A file system in which the package and a directory `sub` of it are all there is. -/
def sampleFiles : FileSystem where
  isDir path := path = samplePackage ∨ path = samplePackage.child "sub"
  isFile _ := false
  exists? _ := true
  readDir _ := .ok []

/-- A repository with a file of `sub` before the manifest next to it, and one after it. -/
def sampleGit : Git Unit where
  openAt _ := none
  workdir _ := some samplePackage
  index _ := .ok
    [⟨FilePath.child [] "Cargo.toml", 0, false⟩,
      ⟨(FilePath.child [] "sub").child "lib.rs", 0, false⟩,
      ⟨(FilePath.child [] "sub").child "Cargo.toml", 0, false⟩]
  statuses _ _ := .ok [((FilePath.child [] "sub").child "new.rs", .wtNew)]
  submodule _ _ := none

theorem sample_listed : ∃ files,
    listFilesGit sampleFiles sampleGit (fun _ => .ok true) samplePackage 1 () = .ok files ∧
      ∀ file, file ∈ files ↔ PackageFile samplePackage (fun _ => true)
        {p | p ∈ [samplePackage.child "Cargo.toml", (samplePackage.child "sub").child "lib.rs",
          (samplePackage.child "sub").child "Cargo.toml",
          (samplePackage.child "sub").child "new.rs"]} file := by
  have hplain : PlainEntries sampleFiles samplePackage
      [(samplePackage.child "Cargo.toml", some false),
        ((samplePackage.child "sub").child "lib.rs", some false),
        ((samplePackage.child "sub").child "Cargo.toml", some false),
        ((samplePackage.child "sub").child "new.rs", none)] :=
    ⟨by decide, by decide, by decide⟩
  exact listFilesGit_plain rfl rfl hplain 0

end Git

/-! ### What is listed -/

/-- The path is below that of the package, and not that of its lock file. -/
def Listable (pkgPath file : FilePath) : Prop :=
  pkgPath <+: file ∧ file ≠ pkgPath.child "Cargo.lock"

section Listable

variable {I : Type} {fs : FileSystem} {git : Git I} {filter : FilePath → Except Failure Bool}
  {pkgPath path : FilePath} {files : List FilePath}

theorem walk_below {fuel : ℕ} {isRoot : Bool} (h : walk fs filter fuel path isRoot = .ok files) :
    ∀ file ∈ files, path <+: file := by
  induction fuel generalizing path isRoot files with
  | zero => cases h
  | succ fuel ih =>
    rw [walk] at h
    split_ifs at h with hdir hmanifest
    · obtain ⟨accepted, -, h⟩ := bind_eq_ok.mp h
      split at h <;> cases h
      · simp
      · simp
    · cases h
      simp
    · obtain ⟨names, -, h⟩ := bind_eq_ok.mp h
      obtain ⟨found, hfound, h⟩ := bind_eq_ok.mp h
      cases h
      intro file hfile
      obtain ⟨below, hbelow, hmem⟩ := List.mem_flatten.mp hfile
      obtain ⟨name, -, hwalk⟩ := (mem_of_mapM_ok hfound below).mp hbelow
      exact (List.prefix_append path [.normal name]).trans (ih hwalk file hmem)

/-- The lock file is left out at the root. -/
theorem walk_root_listable {fuel : ℕ} (h : walk fs filter fuel path true = .ok files) :
    ∀ file ∈ files, Listable path file := by
  intro file hfile
  refine ⟨walk_below h file hfile, ?_⟩
  rintro rfl
  cases fuel with
  | zero => cases h
  | succ fuel =>
    rw [walk] at h
    split_ifs at h with hdir hmanifest
    · obtain ⟨accepted, -, h⟩ := bind_eq_ok.mp h
      split at h <;> cases h
      · simp [FilePath.child] at hfile
      · cases hfile
    · cases h
      cases hfile
    · obtain ⟨names, -, h⟩ := bind_eq_ok.mp h
      obtain ⟨found, hfound, h⟩ := bind_eq_ok.mp h
      cases h
      obtain ⟨below, hbelow, hmem⟩ := List.mem_flatten.mp hfile
      obtain ⟨name, hname, hwalk⟩ := (mem_of_mapM_ok hfound below).mp hbelow
      -- the file is found under its own name, which is not gone into
      have hprefix := walk_below hwalk _ hmem
      rw [FilePath.child, List.prefix_append_right_inj] at hprefix
      have heq : name = OsText.ofText "Cargo.lock".toList := by
        simpa using hprefix
      have hwalked := (List.mem_filter.mp hname).2
      rw [heq, walked, OsText.toStr_ofText] at hwalked
      exact absurd hwalked (by decide)

/-- What is found in a directory entry of a repository. -/
theorem directoryFiles_listable {nested : I → Except Failure (List FilePath)} {fuel : ℕ} {repo : I}
    {root dir : FilePath} (hmanifest : fs.exists? (pkgPath.child "Cargo.toml") = true)
    (hnested : ∀ repo files, nested repo = .ok files → ∀ file ∈ files, Listable pkgPath file)
    (hbelow : pkgPath <+: dir) (hname : dir.fileNameStr ≠ some "Cargo.lock".toList)
    (h : directoryFiles fs git filter nested fuel repo root dir = .ok files) :
    ∀ file ∈ files, Listable pkgPath file := by
  unfold directoryFiles at h
  split at h
  · cases h
  · split at h
    · cases h
    · split at h
      · exact hnested _ files h
      · intro file hfile
        refine ⟨hbelow.trans (walk_below h file hfile), ?_⟩
        rintro rfl
        rcases FilePath.prefix_of_prefix_child (walk_below h _ hfile) with hdir | heq
        · -- the directory is that of the package, which has a manifest
          have hsame : dir = pkgPath := (hdir.eq_of_length_le hbelow.length_le)
          subst hsame
          cases fuel with
          | zero => cases h
          | succ fuel =>
            rw [walk] at h
            split_ifs at h with hdir' hmanifest'
            · obtain ⟨accepted, -, h⟩ := bind_eq_ok.mp h
              split at h <;> cases h
              · simp [FilePath.child] at hfile
              · cases hfile
            · cases h
              cases hfile
            · simp [hmanifest] at hmanifest'
        · rw [heq, FilePath.fileNameStr_child] at hname
          exact hname rfl

theorem visit_listable {directory : FilePath → Except Failure (List FilePath)} {s s' : Found}
    {entry : FilePath × Option Bool}
    (hdirectory : ∀ (dir : FilePath) files, pkgPath <+: dir →
      dir.fileNameStr ≠ some "Cargo.lock".toList → directory dir = .ok files →
      ∀ file ∈ files, Listable pkgPath file)
    (hs : ∀ file ∈ s.ret, Listable pkgPath file)
    (h : visit fs filter pkgPath directory s entry = .ok s') :
    ∀ file ∈ s'.ret, Listable pkgPath file := by
  unfold visit at h
  dsimp only at h
  split_ifs at h with hbelow hname hsub
  · cases h
    exact hs
  · cases h
    exact hs
  · cases h
    exact fun file hfile => hs file (List.mem_of_mem_filter hfile)
  · rw [not_or] at hname
    -- a file or a directory below the package, not a lock file
    rw [Bool.not_eq_true', Bool.not_eq_false, FilePath.startsWith_iff] at hbelow
    unfold addFile at h
    split_ifs at h with hany hdir
    · cases h
      exact hs
    · obtain ⟨files, hfiles, h⟩ := bind_eq_ok.mp h
      cases h
      intro file hfile
      rcases List.mem_append.mp hfile with hfile | hfile
      · exact hs file hfile
      · exact hdirectory entry.1 files hbelow hname.1 hfiles file hfile
    · obtain ⟨accepted, -, h⟩ := bind_eq_ok.mp h
      split at h <;> cases h
      · intro file hfile
        rcases List.mem_append.mp hfile with hfile | hfile
        · exact hs file hfile
        · rw [List.mem_singleton.mp hfile]
          refine ⟨hbelow, fun heq => hname.1 ?_⟩
          rw [heq, FilePath.fileNameStr_child]
      · exact hs

theorem listFilesGit_listable (hmanifest : fs.exists? (pkgPath.child "Cargo.toml") = true)
    {fuel : ℕ} {repo : I} (h : listFilesGit fs git filter pkgPath fuel repo = .ok files) :
    ∀ file ∈ files, Listable pkgPath file := by
  induction fuel generalizing repo files with
  | zero => cases h
  | succ fuel ih =>
    rw [listFilesGit] at h
    obtain ⟨index, -, h⟩ := bind_eq_ok.mp h
    split at h
    · cases h
    · obtain ⟨es, -, h⟩ := bind_eq_ok.mp h
      obtain ⟨found, hfound, h⟩ := bind_eq_ok.mp h
      cases h
      refine foldlM_ok_induction (P := fun _ (s : Found) => ∀ file ∈ s.ret, Listable pkgPath file)
        hfound (by simp) ?_
      intro _ entry _ s s' _ hs hvisit
      refine visit_listable (fun dir files hbelow hname hfiles => ?_) hs hvisit
      exact directoryFiles_listable hmanifest (fun _ _ => ih) hbelow hname hfiles

theorem discoverGit_listable (hmanifest : fs.exists? (pkgPath.child "Cargo.toml") = true)
    {fuel : ℕ} {cs : List FilePath}
    (h : discoverGit fs git filter pkgPath fuel cs = some (.ok files)) :
    ∀ file ∈ files, Listable pkgPath file := by
  induction cs with
  | nil => cases h
  | cons cur parents ih =>
    -- the search goes on above, unless this is the root of a repository
    have hnext : (if fs.isDir (cur.child ".git") then none
        else discoverGit fs git filter pkgPath fuel parents) = some (.ok files) →
        ∀ file ∈ files, Listable pkgPath file := by
      intro hnext
      split at hnext
      · cases hnext
      · exact ih hnext
    rw [discoverGit] at h
    by_cases hfile : (!fs.isFile (cur.child "Cargo.toml")) = true
    · rw [if_pos hfile] at h
      exact hnext h
    · rw [if_neg hfile] at h
      cases hopen : git.openAt cur with
      | none =>
        rw [hopen] at h
        exact hnext h
      | some repo =>
        rw [hopen] at h
        dsimp only at h
        cases hindex : git.index repo with
        | error e =>
          rw [hindex] at h
          cases h
        | ok index =>
          rw [hindex] at h
          dsimp only at h
          cases hsuffix : pkgPath.withoutPrefix cur with
          | none =>
            rw [hsuffix] at h
            cases h
          | some suffix =>
            rw [hsuffix] at h
            dsimp only at h
            by_cases hindexed : indexed index (suffix.child "Cargo.toml") = true
            · rw [if_pos hindexed, Option.some.injEq] at h
              exact listFilesGit_listable hmanifest h
            · rw [if_neg hindexed] at h
              exact hnext h

/-- What is listed is below the package, and its lock file is not listed. -/
theorem listFiles_listable {crates : PatternCrates} {rules : Rules} {fuel : ℕ}
    (hmanifest : fs.exists? (pkgPath.child "Cargo.toml") = true)
    (h : listFiles fs git crates rules fuel pkgPath = .ok files) :
    ∀ file ∈ files, Listable pkgPath file := by
  obtain ⟨filter, -, h⟩ := bind_eq_ok.mp h
  dsimp only at h
  split at h
  · rename_i result hresult
    subst h
    split_ifs at hresult
    exact discoverGit_listable hmanifest hresult
  · exact walk_root_listable h

end Listable

end Cargo.Sources
