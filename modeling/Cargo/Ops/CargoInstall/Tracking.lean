import Cargo.Ops.CargoInstall

/-!
# The list of what is installed is right

Each binary that is listed is in the directory and belongs to one package, and there is nothing
else in the directory. Operations keep it that way if two things do not happen: an installation
that does not notice a binary which is there already, because it looks for other names than those
that are built; and a command that uninstalls one binary twice, which finds that it is gone.

## Main definitions

* `Listed`, `Consistent` — the list and the directory agree
* `Install.Noticed`, `Uninstall.Distinct`, `Operation.Clean` — the two things do not happen
* `Operation.Sound` — what is promised about one operation

## Main results

* `consistent_installOne`, `consistent_uninstallOne` — one operation
* `soundRun_of_cleanRun` — any number of operations
-/

set_option autoImplicit false

namespace Cargo.Ops

variable {P : Type} [LinearOrder P]

/-- The binary is listed as part of the package. -/
def Listed (listing : CrateListing P) (p : P) (bin : String) : Prop :=
  ∃ set, listing.lookup p = some set ∧ bin ∈ set

/-- The list and the directory agree. -/
structure Consistent (root : InstallRoot P) : Prop where
  unique : ∀ {bin p q}, Listed root.listing p bin → Listed root.listing q bin → p = q
  nonempty : ∀ {p set}, root.listing.lookup p = some set → set.Nonempty
  mem_bin_iff : ∀ {bin}, bin ∈ root.bin ↔ ∃ p, Listed root.listing p bin

theorem consistent_empty : Consistent (InstallRoot.empty (P := P)) := by
  constructor <;> simp [InstallRoot.empty, Listed]

section Ascending

variable {α : Type} [LinearOrder α] (s : Finset α)

@[simp]
theorem mem_ascending {s : Finset α} {a : α} : a ∈ ascending s ↔ a ∈ s :=
  Finset.mem_sort _

theorem nodup_ascending : (ascending s).Nodup :=
  Finset.sort_nodup s _

theorem toFinset_ascending : (ascending s).toFinset = s :=
  Finset.sort_toFinset s _

end Ascending

/-! ### Changes of the list -/

theorem mem_getD_lookup_iff {listing : CrateListing P} {p : P} {bin : String} :
    bin ∈ (listing.lookup p).getD ∅ ↔ Listed listing p bin := by
  unfold Listed
  cases listing.lookup p <;> simp

theorem listed_update {listing : CrateListing P} {p q : P} {bin : String}
    {f : Finset String → Finset String} :
    Listed (listing.update p f) q bin ↔
      if q = p then bin ∈ f ((listing.lookup p).getD ∅) else Listed listing q bin := by
  unfold CrateListing.update
  split
  · rename_i heq
    subst heq
    simp [Listed, Finmap.lookup_insert]
  · rename_i hne
    simp [Listed, Finmap.lookup_insert_of_ne _ hne]

theorem listed_disown {listing : CrateListing P} {duplicates : Duplicates P} {o q : P}
    {bin b : String} (h : duplicates.lookup bin = some (some o)) :
    Listed (listing.disown duplicates bin) q b ↔ Listed listing q b ∧ ¬(q = o ∧ b = bin) := by
  simp only [CrateListing.disown, h]
  cases hset : listing.lookup o with
  | none =>
    simp only [iff_self_and]
    rintro ⟨set, hlookup, -⟩ ⟨rfl, -⟩
    cases hset.symm.trans hlookup
  | some set =>
    by_cases hq : q = o
    · subst hq
      simp [Listed, Finmap.lookup_insert, hset, and_comm]
    · simp [Listed, Finmap.lookup_insert_of_ne _ hq, hq]

theorem rekey_eq (listing : CrateListing P) (p : P) : listing.rekey p = listing := by
  unfold CrateListing.rekey
  cases hset : listing.lookup p with
  | none => rfl
  | some set =>
    apply Finmap.ext_lookup
    intro q
    by_cases hq : q = p
    · subst hq
      rw [Finmap.lookup_insert, hset]
    · rw [Finmap.lookup_insert_of_ne _ hq, Finmap.lookup_erase_ne hq]

/-- A binary that has been replaced is part of the new package. -/
theorem listed_replace {listing : CrateListing P} {duplicates : Duplicates P} {p o q : P}
    {bin b : String} (h : duplicates.lookup bin = some (some o))
    (howner : ∀ q, Listed listing q bin → q = o ∨ q = p) :
    Listed (CrateListing.replace p duplicates listing bin) q b ↔
      if b = bin then q = p else Listed listing q b := by
  rw [CrateListing.replace, rekey_eq, listed_update]
  split
  · rename_i hq
    subst hq
    rw [Finset.mem_insert, mem_getD_lookup_iff, listed_disown h]
    by_cases hb : b = bin
    · simp [hb]
    · simp [hb]
  · rename_i hq
    rw [listed_disown h]
    by_cases hb : b = bin
    · subst hb
      simp only [and_true, if_true, hq, iff_false, not_and, not_not]
      intro hlisted
      exact (howner q hlisted).resolve_right hq
    · simp [hb]

/-- All binaries that have been replaced are part of the new package. -/
theorem listed_foldl_replace {listing : CrateListing P} {duplicates : Duplicates P} {p q : P}
    {b : String} {moved : List String}
    (h : ∀ bin ∈ moved, ∃ o, duplicates.lookup bin = some (some o) ∧
      ∀ q, Listed listing q bin → q = o ∨ q = p) :
    Listed (moved.foldl (CrateListing.replace p duplicates) listing) q b ↔
      if b ∈ moved then q = p else Listed listing q b := by
  induction moved generalizing listing with
  | nil => simp
  | cons bin moved ih =>
    obtain ⟨o, ho, howner⟩ := h bin List.mem_cons_self
    rw [List.foldl_cons, ih]
    · rw [listed_replace ho howner]
      by_cases hb : b = bin <;> by_cases hm : b ∈ moved <;> simp [hb, hm]
    · intro bin' hbin'
      obtain ⟨o', ho', howner'⟩ := h bin' (List.mem_cons_of_mem _ hbin')
      refine ⟨o', ho', fun q' hq' => ?_⟩
      rw [listed_replace ho howner] at hq'
      split at hq'
      · exact .inr hq'
      · exact howner' q' hq'

theorem lookup_foldl_erase (ps : List P) (listing : CrateListing P) (p : P) :
    (ps.foldl (fun l p => l.erase p) listing).lookup p =
      if p ∈ ps then none else listing.lookup p := by
  induction ps generalizing listing with
  | nil => simp
  | cons q ps ih =>
    rw [List.foldl_cons, ih]
    by_cases hp : p = q
    · subst hp
      simp [Finmap.lookup_erase]
    · simp [Finmap.lookup_erase_ne hp, hp]

theorem lookup_removeEmpty (listing : CrateListing P) (p : P) :
    listing.removeEmpty.lookup p =
      if listing.lookup p = some ∅ then none else listing.lookup p := by
  rw [CrateListing.removeEmpty, lookup_foldl_erase]
  have hmem : p ∈ (ascending listing.keys).filter (fun p => listing.lookup p = some ∅) ↔
      listing.lookup p = some ∅ := by
    simp only [List.mem_filter, mem_ascending, Finmap.mem_keys, decide_eq_true_eq,
      and_iff_right_iff_imp]
    intro hlookup
    exact Finmap.mem_iff.mpr ⟨_, hlookup⟩
  simp only [hmem]

theorem listed_removeEmpty {listing : CrateListing P} {p : P} {bin : String} :
    Listed listing.removeEmpty p bin ↔ Listed listing p bin := by
  unfold Listed
  rw [lookup_removeEmpty]
  split
  · rename_i hempty
    simp [hempty]
  · rfl

theorem nonempty_removeEmpty {listing : CrateListing P} {p : P} {set : Finset String}
    (h : listing.removeEmpty.lookup p = some set) : set.Nonempty := by
  rw [lookup_removeEmpty] at h
  split at h
  · cases h
  · rename_i hne
    rw [Finset.nonempty_iff_ne_empty]
    rintro rfl
    exact hne h

/-! ### What is there already -/

theorem owner_eq_some {root : InstallRoot P} (h : Consistent root) {p : P} {bin : String}
    (hlisted : Listed root.listing p bin) : root.listing.owner bin = some p := by
  have hmem : p ∈ ascending root.listing.keys := by
    obtain ⟨set, hset, -⟩ := hlisted
    rw [mem_ascending, Finmap.mem_keys]
    exact Finmap.mem_iff.mpr ⟨set, hset⟩
  cases howner : root.listing.owner bin with
  | none =>
    have hnone := List.find?_eq_none.mp howner p hmem
    simp only [decide_eq_true_eq, mem_getD_lookup_iff] at hnone
    exact absurd hlisted hnone
  | some q =>
    have hsome := List.find?_some howner
    simp only [decide_eq_true_eq, mem_getD_lookup_iff] at hsome
    rw [h.unique hsome hlisted]

theorem lookup_foldl_addDuplicate (exeSuffix : String) (root : InstallRoot P)
    (names : List String) (duplicates : Duplicates P) (bin : String) :
    (names.foldl (addDuplicate exeSuffix root) duplicates).lookup bin =
      if bin ∈ root.bin ∧ ∃ name ∈ names, name ++ exeSuffix = bin then
        some (root.listing.owner bin) else duplicates.lookup bin := by
  induction names generalizing duplicates with
  | nil => simp
  | cons name names ih =>
    rw [List.foldl_cons, ih, addDuplicate]
    by_cases hlater : bin ∈ root.bin ∧ ∃ name ∈ names, name ++ exeSuffix = bin
    · rw [if_pos hlater, if_pos ⟨hlater.1, by simpa using .inr hlater.2⟩]
    rw [if_neg hlater]
    by_cases hname : name ++ exeSuffix = bin
    · subst hname
      by_cases hbin : name ++ exeSuffix ∈ root.bin
      · simp [hbin, Finmap.lookup_insert]
      · simp [hbin]
    · have hnot : ¬(bin ∈ root.bin ∧ ∃ n ∈ name :: names, n ++ exeSuffix = bin) := by
        simpa [hname] using hlater
      rw [if_neg hnot]
      split
      · exact Finmap.lookup_insert_of_ne _ (Ne.symm hname)
      · rfl

/-- A duplicate is noted with the package that it is part of. -/
theorem lookup_findDuplicates {exeSuffix : String} {root : InstallRoot P} {pkg : Package P}
    {filter : CompileFilter} {bin : String} :
    (findDuplicates exeSuffix root pkg filter).lookup bin =
      if bin ∈ root.bin ∧ ∃ name ∈ pkg.checkedNames filter, name ++ exeSuffix = bin then
        some (root.listing.owner bin) else none := by
  rw [findDuplicates, lookup_foldl_addDuplicate, Finmap.lookup_empty]

theorem mem_findDuplicates_iff {exeSuffix : String} {root : InstallRoot P} {pkg : Package P}
    {filter : CompileFilter} {bin : String} :
    bin ∈ findDuplicates exeSuffix root pkg filter ↔
      bin ∈ root.bin ∧ ∃ name ∈ pkg.checkedNames filter, name ++ exeSuffix = bin := by
  rw [Finmap.mem_iff, lookup_findDuplicates]
  split
  · rename_i hthere
    exact ⟨fun _ => hthere, fun _ => ⟨_, rfl⟩⟩
  · rename_i hnot
    simp only [reduceCtorEq, exists_false, hnot]

theorem checkOverwrites_eq_ok {exeSuffix : String} {root : InstallRoot P} {pkg : Package P}
    {filter : CompileFilter} {force : Bool} {duplicates : Duplicates P}
    (h : checkOverwrites exeSuffix root pkg filter force = .ok duplicates) :
    duplicates = findDuplicates exeSuffix root pkg filter := by
  unfold checkOverwrites at h
  dsimp only at h
  split at h
  · cases h
  · split at h
    · cases h
      rfl
    · cases h

/-! ### Files -/

/-- What has been moved is in the directory, and it is all unless a move failed. -/
theorem moveAll_spec (renames : ℕ → Bool) (names : List String) (i : ℕ)
    (staging bin : Finset String) :
    (moveAll renames names i staging bin).bin =
        bin ∪ (moveAll renames names i staging bin).moved.toFinset ∧
      (moveAll renames names i staging bin).moved ⊆ names ∧
      ((moveAll renames names i staging bin).failed = none →
        (moveAll renames names i staging bin).moved = names) := by
  induction names generalizing i staging bin with
  | nil => simp [moveAll]
  | cons name names ih =>
    rw [moveAll]
    split
    · obtain ⟨hbin, hsub, hall⟩ := ih (i + 1) (staging.erase name) (insert name bin)
      dsimp only
      refine ⟨?_, List.cons_subset_cons name hsub, fun hfailed => by rw [hall hfailed]⟩
      rw [hbin, List.toFinset_cons, Finset.insert_union, Finset.union_insert]
    · simp

/-- Files that are there can be removed one after the other. -/
theorem removeAll_eq {names : List String} {bin : Finset String} (hnodup : names.Nodup)
    (hsub : ∀ name ∈ names, name ∈ bin) :
    removeAll names bin = (none, bin \ names.toFinset) := by
  induction names generalizing bin with
  | nil => simp [removeAll]
  | cons name names ih =>
    rw [List.nodup_cons] at hnodup
    rw [removeAll, if_pos (hsub name List.mem_cons_self), ih hnodup.2]
    · rw [List.toFinset_cons, Finset.sdiff_insert, Finset.erase_sdiff_comm]
    · intro name' hname'
      refine Finset.mem_erase.mpr ⟨?_, hsub name' (List.mem_cons_of_mem _ hname')⟩
      rintro rfl
      exact hnodup.1 hname'

/-! ### An installation -/

/-- Each binary that is built and is there already is one that `find_duplicates` looks for. -/
def Install.Noticed (exeSuffix : String) (op : Install P) (root : InstallRoot P) : Prop :=
  ∀ binaries, op.compiled = some binaries → ∀ bin ∈ binaries, bin ∈ root.bin →
    ∃ name ∈ op.pkg.checkedNames op.filter, name ++ exeSuffix = bin

omit [LinearOrder P] in
/-- The binaries are those of the targets that are looked for, built for the host. -/
theorem noticed_of_built {exeSuffix : String} {op : Install P} {names : List String}
    (h : ∀ name ∈ names, name ∈ op.pkg.checkedNames op.filter)
    (hcompiled : op.compiled = some (names.map (· ++ exeSuffix))) (root : InstallRoot P) :
    op.Noticed exeSuffix root := by
  intro binaries hbinaries bin hbin _
  rw [hcompiled, Option.some.injEq] at hbinaries
  subst hbinaries
  obtain ⟨name, hname, rfl⟩ := List.mem_map.mp hbin
  exact ⟨name, h name hname, rfl⟩

section Install

variable {exeSuffix : String} {op : Install P} {root : InstallRoot P}

/-- Binaries that were there are now part of another package. -/
theorem consistent_replaced (hroot : Consistent root) {moved : List String}
    (hmoved : ∀ bin ∈ moved, bin ∈ findDuplicates exeSuffix root op.pkg op.filter) :
    Consistent { root with
      listing := (moved.foldl (CrateListing.replace op.pkg.packageId
        (findDuplicates exeSuffix root op.pkg op.filter)) root.listing).removeEmpty } ∧
    ∀ {q b}, Listed (moved.foldl (CrateListing.replace op.pkg.packageId
        (findDuplicates exeSuffix root op.pkg op.filter)) root.listing).removeEmpty q b ↔
      if b ∈ moved then q = op.pkg.packageId else Listed root.listing q b := by
  have hlisted : ∀ {q b}, Listed (moved.foldl (CrateListing.replace op.pkg.packageId
        (findDuplicates exeSuffix root op.pkg op.filter)) root.listing).removeEmpty q b ↔
      if b ∈ moved then q = op.pkg.packageId else Listed root.listing q b := by
    intro q b
    rw [listed_removeEmpty, listed_foldl_replace]
    intro bin hbin
    have hthere := mem_findDuplicates_iff.mp (hmoved bin hbin)
    obtain ⟨o, ho⟩ := hroot.mem_bin_iff.mp hthere.1
    refine ⟨o, ?_, fun q hq => .inl (hroot.unique hq ho)⟩
    rw [lookup_findDuplicates, if_pos hthere, owner_eq_some hroot ho]
  refine ⟨⟨?_, nonempty_removeEmpty, ?_⟩, hlisted⟩
  · intro bin p q hp hq
    rw [hlisted] at hp hq
    split at hp
    · rename_i hbin
      rw [if_pos hbin] at hq
      exact hp.trans hq.symm
    · rename_i hbin
      rw [if_neg hbin] at hq
      exact hroot.unique hp hq
  · intro bin
    dsimp only
    simp only [hlisted]
    by_cases hbin : bin ∈ moved
    · simp only [hbin, if_true, exists_eq, iff_true]
      exact (mem_findDuplicates_iff.mp (hmoved bin hbin)).1
    · simp only [hbin, if_false]
      exact hroot.mem_bin_iff

/-- New binaries are part of the package. -/
theorem consistent_extended (hroot : Consistent root) {p : P} {new : Finset String}
    (hnew : ∀ bin ∈ new, bin ∉ root.bin)
    (hsome : ((root.listing.lookup p).getD ∅ ∪ new).Nonempty) :
    Consistent { bin := root.bin ∪ new, listing := root.listing.update p (· ∪ new) } := by
  have hlisted : ∀ {q b}, Listed (root.listing.update p (· ∪ new)) q b ↔
      Listed root.listing q b ∨ q = p ∧ b ∈ new := by
    intro q b
    rw [listed_update]
    split
    · rename_i hq
      rw [Finset.mem_union, mem_getD_lookup_iff, hq]
      simp
    · rename_i hq
      simp [hq]
  have hold : ∀ {q b}, Listed root.listing q b → b ∉ new := by
    intro q b hq hb
    exact hnew b hb (hroot.mem_bin_iff.mpr ⟨q, hq⟩)
  refine ⟨?_, ?_, ?_⟩
  · intro bin q q' hq hq'
    rcases hlisted.mp hq with hold₁ | ⟨heq, hbin⟩
    · rcases hlisted.mp hq' with hold₂ | ⟨-, hbin⟩
      · exact hroot.unique hold₁ hold₂
      · exact absurd hbin (hold hold₁)
    · rcases hlisted.mp hq' with hold₂ | ⟨heq', -⟩
      · exact absurd hbin (hold hold₂)
      · exact heq.trans heq'.symm
  · intro q set hset
    by_cases hq : q = p
    · subst hq
      rw [CrateListing.update, Finmap.lookup_insert, Option.some.injEq] at hset
      exact hset ▸ hsome
    · rw [CrateListing.update, Finmap.lookup_insert_of_ne _ hq] at hset
      exact hroot.nonempty hset
  · intro bin
    dsimp only
    simp only [Finset.mem_union, hlisted, hroot.mem_bin_iff, exists_or, exists_eq_left]

/-- Moving the binaries keeps list and directory in agreement, and adds nothing if it fails. -/
theorem consistent_moveBinaries (hroot : Consistent root) {binaries : List String}
    (hbinaries : binaries ≠ []) (hcompiled : op.compiled = some binaries)
    (hnoticed : op.Noticed exeSuffix root) (staging : Finset String)
    {result : Except (InstallError P) Unit} {root' : InstallRoot P}
    (h : op.moveBinaries root (findDuplicates exeSuffix root op.pkg op.filter) binaries staging =
      (result, root')) :
    Consistent root' ∧ (∀ e, result = .error e → root'.bin = root.bin) := by
  unfold Install.moveBinaries at h
  dsimp only at h
  set duplicates := findDuplicates exeSuffix root op.pkg op.filter with hduplicates
  set toInstall := binaries.filter (· ∉ duplicates) with htoInstall
  set toReplace := binaries.filter (· ∈ duplicates) with htoReplace
  -- a binary is there already exactly if it is a duplicate
  have hinstall : ∀ bin ∈ toInstall, bin ∉ root.bin := by
    intro bin hbin hthere
    simp only [htoInstall, List.mem_filter, decide_eq_true_eq] at hbin
    exact hbin.2 (mem_findDuplicates_iff.mpr ⟨hthere, hnoticed _ hcompiled bin hbin.1 hthere⟩)
  have hreplace : ∀ bin ∈ toReplace, bin ∈ duplicates := by
    intro bin hbin
    simp only [htoReplace, List.mem_filter, decide_eq_true_eq] at hbin
    exact hbin.2
  obtain ⟨hbin, hsub, hall⟩ := moveAll_spec op.installs toInstall 0 staging root.bin
  set installed := moveAll op.installs toInstall 0 staging root.bin
  have hdisjoint : Disjoint root.bin installed.moved.toFinset := by
    rw [Finset.disjoint_right]
    intro bin hbin
    exact hinstall bin (hsub (List.mem_toFinset.mp hbin))
  cases hfailed : installed.failed with
  | some bin =>
    rw [hfailed] at h
    cases h
    have hsame : installed.bin \ installed.moved.toFinset = root.bin := by
      rw [hbin, Finset.union_sdiff_cancel_right hdisjoint]
    rw [hsame]
    exact ⟨hroot, fun _ _ => rfl⟩
  | none =>
    rw [hfailed] at h
    obtain ⟨hbin', hsub', hall'⟩ := moveAll_spec op.replaces toReplace 0 installed.staging
      installed.bin
    set replaced := moveAll op.replaces toReplace 0 installed.staging installed.bin
    obtain ⟨hconsistent, hlisted⟩ := consistent_replaced hroot
      fun bin hbin => hreplace bin (hsub' hbin)
    have hthere : replaced.moved.toFinset ⊆ root.bin := by
      intro bin hbin
      exact (mem_findDuplicates_iff.mp (hreplace bin (hsub' (List.mem_toFinset.mp hbin)))).1
    have hunion : replaced.bin = root.bin ∪ installed.moved.toFinset := by
      rw [hbin', hbin, Finset.union_eq_left]
      exact hthere.trans Finset.subset_union_left
    cases hfailed' : replaced.failed with
    | some bin =>
      rw [hfailed'] at h
      cases h
      rw [hunion, Finset.union_sdiff_cancel_right hdisjoint]
      exact ⟨hconsistent, fun _ _ => rfl⟩
    | none =>
      rw [hfailed'] at h
      cases h
      refine ⟨?_, by simp⟩
      rw [hunion, hall hfailed]
      have hnew : ∀ bin ∈ toInstall.toFinset, bin ∉ root.bin :=
        fun bin hbin => hinstall bin (List.mem_toFinset.mp hbin)
      refine consistent_extended hconsistent hnew ?_
      obtain ⟨bin, hbin⟩ := List.exists_mem_of_ne_nil binaries hbinaries
      refine ⟨bin, Finset.mem_union.mpr ?_⟩
      by_cases hdup : bin ∈ duplicates
      · refine .inl (mem_getD_lookup_iff.mpr (hlisted.mpr ?_))
        rw [hall' hfailed', if_pos]
        simp [htoReplace, hbin, hdup]
      · refine .inr (List.mem_toFinset.mpr ?_)
        simp [htoInstall, hbin, hdup]

/-- An installation keeps list and directory in agreement, and adds nothing if it fails. -/
theorem consistent_installOne (hroot : Consistent root) (hnoticed : op.Noticed exeSuffix root) :
    Consistent (op.installOne exeSuffix root).2 ∧
      ∀ e, (op.installOne exeSuffix root).1 = .error e →
        (op.installOne exeSuffix root).2.bin = root.bin := by
  have hsame : ∀ e : InstallError P, Consistent ((Except.error e : Except (InstallError P) Unit),
      root).2 ∧ ∀ e', (Except.error e : Except (InstallError P) Unit) = .error e' →
        root.bin = root.bin := fun _ => ⟨hroot, fun _ _ => rfl⟩
  unfold Install.installOne
  cases hcheck : checkOverwrites exeSuffix root op.pkg op.filter op.force with
  | error e => exact hsame e
  | ok duplicates =>
    cases hcompiled : op.compiled with
    | none => exact hsame _
    | some binaries =>
      dsimp only
      split
      · exact hsame _
      · rename_i hbinaries
        cases hstage : stage op.copies binaries 0 ∅ with
        | error bin => exact hsame _
        | ok staging =>
          rw [checkOverwrites_eq_ok hcheck]
          exact consistent_moveBinaries hroot hbinaries hcompiled hnoticed staging rfl

end Install

/-! ### Uninstalling -/

/-- No binary is named twice, unless the command is refused anyway. -/
def Uninstall.Distinct (exeSuffix : String) (op : Uninstall P) (root : InstallRoot P) : Prop :=
  ∀ pkgid set, op.select (ascending root.listing.keys) = some pkgid →
    root.listing.lookup pkgid = some set → (∀ bin ∈ op.names exeSuffix, bin ∈ set) →
    (op.names exeSuffix).Nodup

section Uninstall

variable {exeSuffix : String} {op : Uninstall P} {root : InstallRoot P}

/-- The list without some binaries of a package. -/
def CrateListing.without (listing : CrateListing P) (pkgid : P) (rest : Finset String) :
    CrateListing P :=
  if rest = ∅ then listing.erase pkgid else listing.insert pkgid rest

theorem lookup_without (listing : CrateListing P) (pkgid q : P) (rest : Finset String) :
    (listing.without pkgid rest).lookup q =
      if q = pkgid then (if rest = ∅ then none else some rest) else listing.lookup q := by
  unfold CrateListing.without
  by_cases hq : q = pkgid
  · subst hq
    by_cases hrest : rest = ∅
    · simp [hrest, Finmap.lookup_erase]
    · simp [hrest, Finmap.lookup_insert]
  · by_cases hrest : rest = ∅
    · simp [hrest, hq, Finmap.lookup_erase_ne hq]
    · simp [hrest, hq, Finmap.lookup_insert_of_ne _ hq]

/-- The binaries of a package are removed from the list and from the directory. -/
theorem consistent_removed (hroot : Consistent root) {pkgid : P} {set removed : Finset String}
    (hset : root.listing.lookup pkgid = some set) (hremoved : removed ⊆ set) :
    Consistent {
      bin := root.bin \ removed
      listing := root.listing.without pkgid (set \ removed) } := by
  -- a binary is listed once, so that no other package has one of those removed
  have hlisted : ∀ {q b}, Listed (root.listing.without pkgid (set \ removed)) q b ↔
      Listed root.listing q b ∧ b ∉ removed := by
    intro q b
    unfold Listed
    rw [lookup_without]
    by_cases hq : q = pkgid
    · subst hq
      by_cases hrest : set \ removed = ∅
      · simp only [hrest, if_true, reduceCtorEq, false_and, exists_false, hset, Option.some.injEq,
          exists_eq_left', false_iff, not_and, not_not]
        intro hb
        exact Finset.sdiff_eq_empty_iff_subset.mp hrest hb
      · simp [hrest, hset]
    · rw [if_neg hq]
      constructor
      · rintro ⟨set', hset', hb⟩
        refine ⟨⟨set', hset', hb⟩, fun hb' => hq ?_⟩
        exact hroot.unique ⟨set', hset', hb⟩ ⟨set, hset, hremoved hb'⟩
      · exact fun h => h.1
  refine ⟨fun hp hq => ?_, ?_, ?_⟩
  · exact hroot.unique (hlisted.mp hp).1 (hlisted.mp hq).1
  · intro q set' hset'
    dsimp only at hset'
    rw [lookup_without] at hset'
    split at hset'
    · split at hset'
      · cases hset'
      · rename_i hrest
        cases hset'
        exact Finset.nonempty_iff_ne_empty.mpr hrest
    · exact hroot.nonempty hset'
  · intro b
    dsimp only
    simp only [Finset.mem_sdiff, hlisted, hroot.mem_bin_iff, exists_and_right]

omit [LinearOrder P] in
/-- The binaries that are to be removed are some of the package, and there are some. -/
theorem toRemove_spec {set : Finset String} (hnonempty : set.Nonempty)
    (hnames : ∀ bin ∈ op.names exeSuffix, bin ∈ set) :
    (op.toRemove exeSuffix set).toFinset ⊆ set ∧ (op.toRemove exeSuffix set).toFinset.Nonempty ∧
      ((op.toRemove exeSuffix set).Nodup ↔ (op.names exeSuffix).Nodup) := by
  unfold Uninstall.toRemove
  by_cases hnil : op.names exeSuffix = []
  · simp only [hnil, if_true, toFinset_ascending, subset_refl, hnonempty, true_and,
      nodup_ascending, List.nodup_nil]
  · simp only [hnil, if_false, and_true, List.toFinset_nonempty_iff, ne_eq, not_false_eq_true,
      iff_self]
    intro bin hbin
    exact hnames bin (List.mem_toFinset.mp hbin)

/-- A command is refused, or removes the binaries from the list and the files one after the
other. -/
theorem uninstallPkgid_cases (exeSuffix : String) (op : Uninstall P) (hroot : Consistent root)
    (pkgid : P) :
    ((∃ e, op.uninstallPkgid exeSuffix root pkgid = (.error e, root)) ∧
      ¬∃ set, root.listing.lookup pkgid = some set ∧ ∀ bin ∈ op.names exeSuffix, bin ∈ set) ∨
    ∃ set, root.listing.lookup pkgid = some set ∧ (∀ bin ∈ op.names exeSuffix, bin ∈ set) ∧
      op.uninstallPkgid exeSuffix root pkgid =
        ((removeAll (op.toRemove exeSuffix set) root.bin).1.elim (.ok ())
          fun bin => .error (.failedToRemove bin), {
            bin := (removeAll (op.toRemove exeSuffix set) root.bin).2
            listing := root.listing.without pkgid
              (set \ (op.toRemove exeSuffix set).toFinset) }) := by
  unfold Uninstall.uninstallPkgid
  cases hset : root.listing.lookup pkgid with
  | none => exact .inl ⟨⟨_, rfl⟩, by simp⟩
  | some set =>
    -- the list is not corrupt
    have hthere : (ascending set).find? (· ∉ root.bin) = none := by
      rw [List.find?_eq_none]
      intro bin hbin
      rw [mem_ascending] at hbin
      simpa using hroot.mem_bin_iff.mpr ⟨pkgid, set, hset, hbin⟩
    dsimp only
    rw [hthere]
    cases hfind : (op.names exeSuffix).find? (· ∉ set) with
    | some bin =>
      refine .inl ⟨⟨_, rfl⟩, ?_⟩
      rintro ⟨set', hset', hall⟩
      cases hset'
      have hnot := List.find?_some hfind
      simp only [decide_eq_true_eq] at hnot
      exact hnot (hall bin (List.mem_of_find?_eq_some hfind))
    | none =>
      refine .inr ⟨set, rfl, ?_, ?_⟩
      · intro bin hbin
        simpa using List.find?_eq_none.mp hfind bin hbin
      · dsimp only
        cases (removeAll (op.toRemove exeSuffix set) root.bin).1 <;> rfl

/-- A file that is named twice is gone the second time. -/
theorem nodup_of_removeAll {names : List String} {bin : Finset String}
    (h : (removeAll names bin).1 = none) : names.Nodup ∧ ∀ name ∈ names, name ∈ bin := by
  induction names generalizing bin with
  | nil => simp
  | cons name names ih =>
    rw [removeAll] at h
    split at h
    · rename_i hname
      obtain ⟨hnodup, hsub⟩ := ih h
      have hnot : name ∉ names := fun hmem => Finset.notMem_erase name bin (hsub name hmem)
      refine ⟨List.nodup_cons.mpr ⟨hnot, hnodup⟩, List.forall_mem_cons.mpr ⟨hname, ?_⟩⟩
      exact fun name' hname' => Finset.mem_of_mem_erase (hsub name' hname')
    · cases h

/-- What is promised about an uninstallation: list and directory agree, and an error leaves all as
it was. -/
def Uninstall.Sound (exeSuffix : String) (op : Uninstall P) (root : InstallRoot P) : Prop :=
  Consistent (op.uninstallOne exeSuffix root).2 ∧
    ∀ e, (op.uninstallOne exeSuffix root).1 = .error e → (op.uninstallOne exeSuffix root).2 = root

/-- That is so exactly if no binary is named twice. -/
theorem uninstall_sound_iff (exeSuffix : String) (op : Uninstall P) (hroot : Consistent root) :
    op.Sound exeSuffix root ↔ op.Distinct exeSuffix root := by
  unfold Uninstall.Sound Uninstall.Distinct Uninstall.uninstallOne
  cases hselect : op.select (ascending root.listing.keys) with
  | none => simp [hroot]
  | some pkgid =>
    dsimp only
    obtain ⟨⟨e, heq⟩, hrefused⟩ | ⟨set, hset, hnames, heq⟩ :=
      uninstallPkgid_cases exeSuffix op hroot pkgid
    · rw [heq]
      refine iff_of_true ⟨hroot, fun _ _ => rfl⟩ ?_
      intro pkgid' set hpkgid hset hnames
      cases hpkgid
      exact absurd ⟨set, hset, hnames⟩ hrefused
    · rw [heq]
      obtain ⟨hsub, hsome, hnodup⟩ := toRemove_spec (hroot.nonempty hset) hnames
      constructor
      · rintro ⟨-, herror⟩ pkgid' set' hpkgid hset' -
        cases hpkgid
        cases hremove : (removeAll (op.toRemove exeSuffix set) root.bin).1 with
        | none => exact hnodup.mp (nodup_of_removeAll hremove).1
        | some bin =>
          -- the list has been changed, so the error comes too late
          rw [hremove] at herror
          have hlookup := congrArg (fun root => root.listing.lookup pkgid) (herror _ rfl)
          dsimp only at hlookup
          rw [lookup_without, if_pos rfl, hset] at hlookup
          split at hlookup
          · cases hlookup
          · rw [Option.some.injEq, Finset.sdiff_eq_self_iff_disjoint,
              Finset.disjoint_right] at hlookup
            obtain ⟨bin', hbin'⟩ := hsome
            exact absurd (hsub hbin') (hlookup hbin')
      · intro hdistinct
        have hnodup' := hnodup.mpr (hdistinct pkgid set rfl hset hnames)
        have hthere : ∀ bin ∈ op.toRemove exeSuffix set, bin ∈ root.bin := by
          intro bin hbin
          exact hroot.mem_bin_iff.mpr ⟨pkgid, set, hset, hsub (List.mem_toFinset.mpr hbin)⟩
        rw [removeAll_eq hnodup' hthere]
        exact ⟨consistent_removed hroot hset hsub, by simp⟩

end Uninstall

/-! ### Runs -/

/-- What is promised about an installation: list and directory agree, and if it fails there is no
new binary. -/
def Install.Sound (exeSuffix : String) (op : Install P) (root : InstallRoot P) : Prop :=
  Consistent (op.installOne exeSuffix root).2 ∧
    ∀ e, (op.installOne exeSuffix root).1 = .error e →
      (op.installOne exeSuffix root).2.bin ⊆ root.bin

/-- What is promised about an operation. -/
def Operation.Sound (exeSuffix : String) (root : InstallRoot P) : Operation P → Prop
  | install op => op.Sound exeSuffix root
  | uninstall op => op.Sound exeSuffix root

/-- The operation notices what is there, and names nothing twice. -/
def Operation.Clean (exeSuffix : String) (root : InstallRoot P) : Operation P → Prop
  | install op => op.Noticed exeSuffix root
  | uninstall op => op.Distinct exeSuffix root

/-- The operations are sound, each in the state that it is run in. -/
def SoundRun (exeSuffix : String) : InstallRoot P → List (Operation P) → Prop
  | _, [] => True
  | root, op :: ops => op.Sound exeSuffix root ∧ SoundRun exeSuffix (op.run exeSuffix root) ops

/-- The operations are clean, each in the state that it is run in. -/
def CleanRun (exeSuffix : String) : InstallRoot P → List (Operation P) → Prop
  | _, [] => True
  | root, op :: ops => op.Clean exeSuffix root ∧ CleanRun exeSuffix (op.run exeSuffix root) ops

/-- A clean operation is sound. -/
theorem sound_of_clean {exeSuffix : String} {root : InstallRoot P} (hroot : Consistent root)
    {op : Operation P} (h : op.Clean exeSuffix root) :
    op.Sound exeSuffix root ∧ Consistent (op.run exeSuffix root) := by
  cases op with
  | install op =>
    obtain ⟨hconsistent, herror⟩ := consistent_installOne hroot h
    exact ⟨⟨hconsistent, fun e he => (herror e he).subset⟩, hconsistent⟩
  | uninstall op =>
    have hsound := (uninstall_sound_iff exeSuffix op hroot).mpr h
    exact ⟨hsound, hsound.1⟩

theorem soundRun_of_consistent {exeSuffix : String} {root : InstallRoot P}
    (hroot : Consistent root) {ops : List (Operation P)} (h : CleanRun exeSuffix root ops) :
    SoundRun exeSuffix root ops := by
  induction ops generalizing root with
  | nil => exact trivial
  | cons op ops ih =>
    obtain ⟨hsound, hconsistent⟩ := sound_of_clean hroot h.1
    exact ⟨hsound, ih hconsistent h.2⟩

/-- In a run from an empty root all operations keep what is promised if they are clean. An
uninstallation keeps it only then. -/
theorem soundRun_of_cleanRun (exeSuffix : String) :
    (∀ ops : List (Operation P), CleanRun exeSuffix InstallRoot.empty ops →
      SoundRun exeSuffix InstallRoot.empty ops) ∧
    ∀ (root : InstallRoot P) (op : Uninstall P), Consistent root →
      (op.Sound exeSuffix root ↔ op.Distinct exeSuffix root) :=
  ⟨fun _ => soundRun_of_consistent consistent_empty,
    fun _ op hroot => uninstall_sound_iff exeSuffix op hroot⟩

/-! ### One binary is named twice -/

/-- A package with two binaries. -/
def twoBinaries : Package ℕ where
  packageId := 0
  targets := [⟨"a", .bin⟩, ⟨"b", .bin⟩]

/-- It is installed, and nothing fails. -/
def installTwo : Install ℕ where
  pkg := twoBinaries
  filter := .default
  force := false
  compiled := some ["a", "b"]
  copies _ := true
  installs _ := true
  replaces _ := true

/-- Some of its binaries are uninstalled. -/
def uninstallBins (bins : List String) : Uninstall ℕ where
  select ids := ids.find? (· = 0)
  bins := bins

/-- Both binaries are listed after the installation. -/
theorem lookup_installTwo :
    ((Operation.install installTwo).run "" InstallRoot.empty).listing.lookup 0 =
      some {"a", "b"} := by
  change ((CrateListing.removeEmpty ∅).update 0 (· ∪ {"a", "b"})).lookup 0 = some {"a", "b"}
  rw [CrateListing.update, Finmap.lookup_insert, lookup_removeEmpty]
  simp

/-- The second `a` cannot be removed any more: there is an error, and the list has been
changed. -/
theorem uninstall_twice_unsound :
    ¬ SoundRun "" InstallRoot.empty
      [.install installTwo, .uninstall (uninstallBins ["a", "a", "b"])] := by
  rintro ⟨⟨hconsistent, -⟩, hsound, -⟩
  have hlookup := lookup_installTwo
  have hmem : 0 ∈ ascending
      ((Operation.install installTwo).run "" InstallRoot.empty).listing.keys := by
    rw [mem_ascending, Finmap.mem_keys, Finmap.mem_iff]
    exact ⟨_, hlookup⟩
  have hselect : (uninstallBins ["a", "a", "b"]).select
      (ascending ((Operation.install installTwo).run "" InstallRoot.empty).listing.keys) =
        some 0 := by
    simp only [uninstallBins]
    cases hfind : List.find? _ _ with
    | none => simpa using List.find?_eq_none.mp hfind 0 hmem
    | some id => simpa using List.find?_some hfind
  have hdistinct := (uninstall_sound_iff "" _ hconsistent).mp hsound 0 {"a", "b"} hselect hlookup
  revert hdistinct
  decide

/-- Naming them once is fine. -/
theorem soundRun_two : CleanRun "" InstallRoot.empty
      [.install installTwo, .uninstall (uninstallBins ["a"]), .uninstall (uninstallBins [])] ∧
    SoundRun "" InstallRoot.empty
      [.install installTwo, .uninstall (uninstallBins ["a"]), .uninstall (uninstallBins [])] := by
  have hclean : CleanRun "" InstallRoot.empty
      [.install installTwo, .uninstall (uninstallBins ["a"]), .uninstall (uninstallBins [])] := by
    refine ⟨?_, ?_, ?_, trivial⟩
    · intro binaries _ bin _ hbin
      exact absurd hbin (Finset.notMem_empty bin)
    · intro _ _ _ _ _
      decide
    · intro _ _ _ _ _
      decide
  exact ⟨hclean, (soundRun_of_cleanRun "").1 _ hclean⟩

end Cargo.Ops
