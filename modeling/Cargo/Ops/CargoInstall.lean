import Mathlib.Data.Finmap
import Mathlib.Data.Finset.Sort
import Mathlib.Data.String.Basic

/-!
# `cargo install` and `cargo uninstall`

The binaries that are installed stand in one directory. A file beside it lists, for each package
that is installed, which of them are its own. An installation first copies all binaries to a
staging directory, then moves those that are new, then those that replace others, and then
rewrites the list; `Transaction` takes the new ones back if something fails. To uninstall a
package, all is checked first, then the list is rewritten, and then the files are removed.

What is built is left open: the binaries have any names. So is which copy and which move fails.
The list can always be read and written, and a file that is there can be removed.

## Main definitions

* `InstallRoot` — the directory of binaries and the list
* `findDuplicates`, `checkOverwrites` — which binaries are there already
* `Install.installOne`
* `Uninstall.uninstallPkgid`
* `Operation.run` — one operation
-/

set_option autoImplicit false

namespace Cargo.Ops

/-- The elements of a set in ascending order. -/
def ascending {α : Type} [LinearOrder α] (s : Finset α) : List α :=
  s.sort (· ≤ ·)

/-! ### What is asked for -/

inductive TargetKind
  | lib
  | bin
  | test
  | bench
  | exampleLib
  | exampleBin
  | customBuild
  deriving DecidableEq, Repr

structure Target where
  name : String
  kind : TargetKind

structure Package (P : Type) where
  packageId : P
  targets : List Target

inductive FilterRule
  | all
  | just (targets : List String)

def FilterRule.tryCollect : FilterRule → Option (List String)
  | all => none
  | just targets => some targets

inductive CompileFilter
  | default
  | only (bins examples : FilterRule)

def CompileFilter.isSpecific : CompileFilter → Bool
  | default => false
  | only _ _ => true

namespace Package

variable {P : Type}

/-- The names of the targets of a kind. -/
def targetNames (pkg : Package P) (kind : TargetKind) : List String :=
  (pkg.targets.filter (·.kind = kind)).map (·.name)

/-- The names that `find_duplicates` looks at. -/
def checkedNames (pkg : Package P) : CompileFilter → List String
  | .default => pkg.targetNames .bin
  | .only bins examples =>
    (bins.tryCollect).getD (pkg.targetNames .bin) ++
      (examples.tryCollect).getD (pkg.targetNames .exampleBin)

end Package

/-! ### The list of what is installed -/

/-- For each package its binaries. -/
abbrev CrateListing (P : Type) : Type :=
  Finmap fun _ : P => Finset String

/-- The directory of binaries, and the list. -/
structure InstallRoot (P : Type) where
  bin : Finset String
  listing : CrateListing P

/-- Which binaries are there already, and as part of which package. -/
abbrev Duplicates (P : Type) : Type :=
  Finmap fun _ : String => Option P

/-- Why there is no installation. -/
inductive InstallError (P : Type)
  /-- specified package has no binaries -/
  | noBinaries
  /-- binary already exists in destination; add --force to overwrite -/
  | alreadyExists (duplicates : Duplicates P)
  /-- failed to compile -/
  | failedToCompile
  /-- no binaries are available for install using the selected features -/
  | noneAvailable
  /-- failed to copy -/
  | failedToCopy (bin : String)
  /-- failed to move -/
  | failedToMove (bin : String)

section

variable {P : Type} [LinearOrder P]

/-- The first package of the list that has a binary. -/
def CrateListing.owner (listing : CrateListing P) (name : String) : Option P :=
  (ascending listing.keys).find? fun p => decide (name ∈ (listing.lookup p).getD ∅)

/-- Note a binary that is there already. -/
def addDuplicate (exeSuffix : String) (root : InstallRoot P) (duplicates : Duplicates P)
    (name : String) : Duplicates P :=
  if name ++ exeSuffix ∈ root.bin then
    duplicates.insert (name ++ exeSuffix) (root.listing.owner (name ++ exeSuffix))
  else duplicates

def findDuplicates (exeSuffix : String) (root : InstallRoot P) (pkg : Package P)
    (filter : CompileFilter) : Duplicates P :=
  (pkg.checkedNames filter).foldl (addDuplicate exeSuffix root) ∅

def checkOverwrites (exeSuffix : String) (root : InstallRoot P) (pkg : Package P)
    (filter : CompileFilter) (force : Bool) : Except (InstallError P) (Duplicates P) :=
  if ¬ filter.isSpecific ∧ pkg.targetNames .bin = [] then .error .noBinaries
  else
    let duplicates := findDuplicates exeSuffix root pkg filter
    if force ∨ duplicates.keys = ∅ then .ok duplicates else .error (.alreadyExists duplicates)

end

/-! ### Files are copied and moved -/

/-- Copy binaries to the staging directory. An error names the one that could not be copied. -/
def stage (copies : ℕ → Bool) : List String → ℕ → Finset String → Except String (Finset String)
  | [], _, staging => .ok staging
  | bin :: binaries, i, staging =>
    if copies i then stage copies binaries (i + 1) (insert bin staging) else .error bin

/-- What has been moved so far, where everything is, and what could not be moved. -/
structure Moves where
  staging : Finset String
  bin : Finset String
  moved : List String
  failed : Option String

/-- Move binaries from the staging directory, up to the first one that fails. One that is not
there any more cannot be moved. -/
def moveAll (renames : ℕ → Bool) : List String → ℕ → Finset String → Finset String → Moves
  | [], _, staging, bin => { staging, bin, moved := [], failed := none }
  | name :: names, i, staging, bin =>
    if name ∈ staging ∧ renames i then
      let rest := moveAll renames names (i + 1) (staging.erase name) (insert name bin)
      { rest with moved := name :: rest.moved }
    else { staging, bin, moved := [], failed := some name }

/-! ### The list is updated -/

section

variable {P : Type} [LinearOrder P]

/-- The entry of a package, made if there is none. -/
def CrateListing.update (listing : CrateListing P) (p : P) (f : Finset String → Finset String) :
    CrateListing P :=
  listing.insert p (f ((listing.lookup p).getD ∅))

/-- Take a binary from its package. -/
def CrateListing.disown (listing : CrateListing P) (duplicates : Duplicates P) (bin : String) :
    CrateListing P :=
  match duplicates.lookup bin with
  | some (some p) =>
    match listing.lookup p with
    | some set => listing.insert p (set.erase bin)
    | none => listing
  | _ => listing

/-- The failsafe for packages from git: the entry is put under the new key. -/
def CrateListing.rekey (listing : CrateListing P) (p : P) : CrateListing P :=
  match listing.lookup p with
  | some set => (listing.erase p).insert p set
  | none => listing

/-- The record of a binary that has been replaced. -/
def CrateListing.replace (p : P) (duplicates : Duplicates P) (listing : CrateListing P)
    (bin : String) : CrateListing P :=
  ((listing.disown duplicates bin).rekey p).update p (insert bin)

/-- Remove the entries of packages without binaries. -/
def CrateListing.removeEmpty (listing : CrateListing P) : CrateListing P :=
  ((ascending listing.keys).filter fun p => listing.lookup p = some ∅).foldl
    (fun l p => l.erase p) listing

/-- An installation: the package and the flags, the names of what is built for it unless that
fails, and which copies and moves succeed. -/
structure Install (P : Type) where
  pkg : Package P
  filter : CompileFilter
  force : Bool
  compiled : Option (List String)
  copies : ℕ → Bool
  installs : ℕ → Bool
  replaces : ℕ → Bool

namespace Install

/-- The second half: move the binaries and update the list. -/
def moveBinaries (op : Install P) (root : InstallRoot P) (duplicates : Duplicates P)
    (binaries : List String) (staging : Finset String) :
    Except (InstallError P) Unit × InstallRoot P :=
  let toReplace := binaries.filter (· ∈ duplicates)
  let toInstall := binaries.filter (· ∉ duplicates)
  let installed := moveAll op.installs toInstall 0 staging root.bin
  match installed.failed with
  | some bin =>
    -- the transaction takes back what it has moved
    (.error (.failedToMove bin), { root with bin := installed.bin \ installed.moved.toFinset })
  | none =>
    -- what was replaced is not taken back, and is noted in the list if one of them fails
    let replaced := moveAll op.replaces toReplace 0 installed.staging installed.bin
    let listing := (replaced.moved.foldl (CrateListing.replace op.pkg.packageId duplicates)
      root.listing).removeEmpty
    match replaced.failed with
    | some bin =>
      (.error (.failedToMove bin), { bin := replaced.bin \ installed.moved.toFinset, listing })
    | none =>
      (.ok (), {
        bin := replaced.bin
        listing := listing.update op.pkg.packageId (· ∪ toInstall.toFinset) })

/-- Install a package. It is checked twice what would be overwritten, since building may take
long. -/
def installOne (exeSuffix : String) (op : Install P) (root : InstallRoot P) :
    Except (InstallError P) Unit × InstallRoot P :=
  match checkOverwrites exeSuffix root op.pkg op.filter op.force, op.compiled with
  | .error e, _ => (.error e, root)
  | .ok _, none => (.error .failedToCompile, root)
  | .ok _, some binaries =>
    if binaries = [] then (.error .noneAvailable, root)
    else
      match checkOverwrites exeSuffix root op.pkg op.filter op.force with
      | .error e => (.error e, root)
      | .ok duplicates =>
        match stage op.copies binaries 0 ∅ with
        | .error bin => (.error (.failedToCopy bin), root)
        | .ok staging => op.moveBinaries root duplicates binaries staging

end Install

/-! ### Uninstalling -/

/-- Why nothing, or not all, is uninstalled. -/
inductive UninstallError (P : Type)
  /-- package id specification matched no packages, or several -/
  | query
  /-- package is not installed -/
  | notInstalled (pkgid : P)
  /-- corrupt metadata, the binary does not exist when it should -/
  | corruptMetadata (bin : String)
  /-- binary not installed as part of the package -/
  | notPartOf (bin : String) (pkgid : P)
  /-- failed to remove file -/
  | failedToRemove (bin : String)

/-- What is to be uninstalled: a specification, which selects one of the packages that are
installed or fails, and the names of binaries. -/
structure Uninstall (P : Type) where
  select : List P → Option P
  bins : List String

/-- The name of the file of a binary. -/
def exeName (exeSuffix s : String) : String :=
  if exeSuffix.toList.isSuffixOf s.toList then s else s ++ exeSuffix

/-- Remove files. One that is not there cannot be removed. -/
def removeAll : List String → Finset String → Option String × Finset String
  | [], bin => (none, bin)
  | name :: names, bin =>
    if name ∈ bin then removeAll names (bin.erase name) else (some name, bin)

namespace Uninstall

/-- The names of the files. -/
def names (exeSuffix : String) (op : Uninstall P) : List String :=
  op.bins.map (exeName exeSuffix)

/-- What is to be removed of the binaries of a package: those that are named, or all. -/
def toRemove (exeSuffix : String) (op : Uninstall P) (set : Finset String) : List String :=
  if op.names exeSuffix = [] then ascending set else op.names exeSuffix

def uninstallPkgid (exeSuffix : String) (op : Uninstall P) (root : InstallRoot P) (pkgid : P) :
    Except (UninstallError P) Unit × InstallRoot P :=
  match root.listing.lookup pkgid with
  | none => (.error (.notInstalled pkgid), root)
  | some set =>
    -- all binaries have to be there before one is removed
    match (ascending set).find? (· ∉ root.bin) with
    | some bin => (.error (.corruptMetadata bin), root)
    | none =>
      match (op.names exeSuffix).find? (· ∉ set) with
      | some bin => (.error (.notPartOf bin pkgid), root)
      | none =>
        let toRemove := op.toRemove exeSuffix set
        let rest := set \ toRemove.toFinset
        let listing :=
          if rest = ∅ then root.listing.erase pkgid else root.listing.insert pkgid rest
        let (failed, bin) := removeAll toRemove root.bin
        (match failed with
          | none => .ok ()
          | some bin => .error (.failedToRemove bin), { bin, listing })

def uninstallOne (exeSuffix : String) (op : Uninstall P) (root : InstallRoot P) :
    Except (UninstallError P) Unit × InstallRoot P :=
  match op.select (ascending root.listing.keys) with
  | none => (.error .query, root)
  | some pkgid => op.uninstallPkgid exeSuffix root pkgid

end Uninstall

/-! ### Runs -/

inductive Operation (P : Type)
  | install (op : Install P)
  | uninstall (op : Uninstall P)

/-- The root after an operation. -/
def Operation.run (exeSuffix : String) (root : InstallRoot P) : Operation P → InstallRoot P
  | install op => (op.installOne exeSuffix root).2
  | uninstall op => (op.uninstallOne exeSuffix root).2

/-- A root where nothing is installed. -/
def InstallRoot.empty : InstallRoot P where
  bin := ∅
  listing := ∅

end

end Cargo.Ops
