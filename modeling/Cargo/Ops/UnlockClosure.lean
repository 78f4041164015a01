import Cargo.Ops.PreviousLocks

/-!
# What stays unlocked

Everything below a package that is listed for an update or whose source is poisoned should
stay unlocked. The set of packages to avoid is also what the recursion takes as visited, and a
path package that changed on disk enters it alone, without its dependencies: if it does so
before the recursion comes by, what lies below it stays locked.

## Main definitions

* `Poisoned`, `Unlocked` — the packages that have to be free to change
* `ChangedOnDisk` — a kept path package that is not on disk any more
* `LocksClosed` — nothing below an unlocked package is locked

## Main results

* `locksClosed_iff` — in which workspaces this holds for every order of the packages
-/

set_option autoImplicit false

namespace Cargo.Ops

open Relation
open Cargo.Core Cargo.Math Cargo.Resolver

variable {S R : Type} [DecidableEq S] [VersionReq R]

/-- The resolution has all packages that its packages depend on. -/
def Complete (resolve : Resolve S R) : Prop :=
  ∀ p q, q ∈ resolve.depsNotReplaced p → q ∈ resolve.graph.nodes.keys

section Statement

variable (ws : Workspace S R) (resolve : Resolve S R) (keep : PackageId S → Bool)

/-- A package whose manifest is read: a member or a path dependency of one that is read. -/
def Considered (pkg : PathPackage S R) : Prop :=
  ∃ member ∈ ws.members, ReflTransGen (fun p q => q ∈ ws.pathDeps p) member pkg

/-- A source is poisoned if some manifest has a dependency on it that is no path dependency
and that nothing in the previous resolution matches. -/
def Poisoned (source : S) : Prop :=
  ∃ pkg, Considered ws pkg ∧ ∃ dep ∈ pkg.dependencies, ws.skips pkg dep = false ∧
    ws.pathPkg dep.sourceId = none ∧
    (∀ id ∈ resolve.graph.nodes.keys, dep.matchesIgnoringSource id = false) ∧
    dep.sourceId = source

/-- A package that is not kept, or that comes from a poisoned source. -/
def Unlocked (id : PackageId S) : Prop :=
  keep id = false ∨ id ∈ resolve.graph.nodes.keys ∧ Poisoned ws resolve id.sourceId

/-- A path package that is kept, although the package on disk is another one. -/
def ChangedOnDisk (id : PackageId S) : Prop :=
  keep id = true ∧ ∃ pkg, ws.pathPkg id.sourceId = some pkg ∧ pkg.packageId ≠ id

/-- Whatever the order of the packages, nothing below an unlocked package is locked, neither
as a package nor as a dependency of one. -/
def LocksClosed : Prop :=
  ∀ ho : HashOrder (PackageId S), ∃ locks, registerPreviousLocks ho ws resolve keep = some locks ∧
    ∀ root, Unlocked ws resolve keep root →
      ∀ x, ReflTransGen (fun p q => q ∈ resolve.depsNotReplaced p) root x →
        ∀ lock ∈ locks, lock.1 ≠ x ∧ x ∉ lock.2

/-- A package lies openly below an unlocked one: no package on the way to it is a path
package that changed on disk. -/
def OpenlyBelow (x : PackageId S) : Prop :=
  ∃ root, Unlocked ws resolve keep root ∧
    ReflTransGen (fun p q => q ∈ resolve.depsNotReplaced p ∧ ¬ ChangedOnDisk ws keep p) root x

end Statement

variable {ho : HashOrder (PackageId S)} {ws : Workspace S R} {resolve : Resolve S R}
  {keep : PackageId S → Bool}

/-! ### The recursion -/

omit [VersionReq R] in
/-- A package with a dependency is a package of the resolution. -/
theorem mem_nodes_of_dep {p q : PackageId S} (hq : q ∈ resolve.depsNotReplaced p) :
    p ∈ resolve.graph.nodes.keys := by
  by_contra hp
  rw [Finmap.mem_keys] at hp
  rw [Resolve.depsNotReplaced, Util.Graph.edges, Finmap.lookup_eq_none.mpr hp] at hq
  exact absurd hq (Finset.notMem_empty q)

omit [VersionReq R] in
theorem closedUnder_nodes (hcomplete : Complete resolve) :
    ClosedUnder (fun id => (ho.of id).enum (resolve.depsNotReplaced id))
      resolve.graph.nodes.keys := by
  intro p _ q hq
  exact hcomplete p q (SetOrder.mem_enum _ |>.mp hq)

omit [VersionReq R] in
theorem addDeps_collected (ho : HashOrder (PackageId S)) (hcomplete : Complete resolve)
    (set : Finset (PackageId S))
    {node : PackageId S} (hnode : node ∈ resolve.graph.nodes.keys) :
    Collected (fun id => (ho.of id).enum (resolve.depsNotReplaced id)) set [node]
      (addDeps ho resolve set node) := by
  apply collect_spec (closedUnder_nodes hcomplete) _ _ _ hnode
  exact Nat.lt_succ_of_le (Finset.card_le_card Finset.sdiff_subset)

/-- A set that is closed under dependencies, path packages that changed on disk apart. -/
def ClosedButChanged (ws : Workspace S R) (resolve : Resolve S R) (keep : PackageId S → Bool)
    (set : Finset (PackageId S)) : Prop :=
  ∀ p ∈ set, ¬ ChangedOnDisk ws keep p → ∀ q ∈ resolve.depsNotReplaced p, q ∈ set

omit [VersionReq R] in
theorem ClosedButChanged.collected {set T : Finset (PackageId S)} {starts : List (PackageId S)}
    (h : ClosedButChanged ws resolve keep set)
    (hT : Collected (fun id => (ho.of id).enum (resolve.depsNotReplaced id)) set starts T) :
    ClosedButChanged ws resolve keep T := by
  intro p hp hchanged q hq
  by_cases hset : p ∈ set
  · exact hT.subset (h p hset hchanged q hq)
  · exact hT.closed p hp hset q (SetOrder.mem_enum _ |>.mpr hq)

/-- A set of packages that changed on disk or lie openly below an unlocked one, with all that
changed. -/
structure Exact (ws : Workspace S R) (resolve : Resolve S R) (keep : PackageId S → Bool)
    (set : Finset (PackageId S)) : Prop where
  changed : ∀ p ∈ resolve.graph.nodes.keys, ChangedOnDisk ws keep p → p ∈ set
  only : ∀ p ∈ set, ChangedOnDisk ws keep p ∨ OpenlyBelow ws resolve keep p

/-- Sweeping from unlocked packages adds what lies openly below them. -/
theorem Exact.collected (hcomplete : Complete resolve) {set T : Finset (PackageId S)}
    {starts : List (PackageId S)} (h : Exact ws resolve keep set)
    (hT : Collected (fun id => (ho.of id).enum (resolve.depsNotReplaced id)) set starts T)
    (hstarts : ∀ a ∈ starts, a ∈ resolve.graph.nodes.keys ∧ Unlocked ws resolve keep a) :
    Exact ws resolve keep T where
  changed := fun p hp hchanged => hT.subset (h.changed p hp hchanged)
  only := by
    intro p hp
    by_cases hset : p ∈ set
    · exact h.only p hset
    · right
      obtain ⟨root, hroot, hrootset, hpath⟩ := hT.below p hp hset
      refine ⟨root, (hstarts root hroot).2, ?_⟩
      -- the sweep entered none of the packages that changed on disk
      suffices hboth : (root ∈ resolve.graph.nodes.keys → p ∈ resolve.graph.nodes.keys) ∧ p ∉ set ∧
          ReflTransGen (fun p q => q ∈ resolve.depsNotReplaced p ∧ ¬ ChangedOnDisk ws keep p)
            root p from hboth.2.2
      clear hp hset
      induction hpath with
      | refl => exact ⟨id, hrootset, .refl⟩
      | @tail b c _ hstep ih =>
        have hc : c ∈ resolve.depsNotReplaced b := SetOrder.mem_enum _ |>.mp hstep.1
        refine ⟨fun _ => hcomplete b c hc, hstep.2, ih.2.2.tail ⟨hc, fun hchanged => ?_⟩⟩
        exact ih.2.1 (h.changed b (ih.1 (hstarts root hroot).1) hchanged)

/-! ### The first loop -/

omit [VersionReq R] in
variable (ho ws resolve keep) in
/-- What the first loop does with one package. -/
theorem avoidNode_cases (set : Finset (PackageId S)) (node : PackageId S) :
    (keep node = false ∧ avoidNode ho ws resolve keep set node = addDeps ho resolve set node) ∨
      (ChangedOnDisk ws keep node ∧ avoidNode ho ws resolve keep set node = insert node set) ∨
      (keep node = true ∧ ¬ ChangedOnDisk ws keep node ∧
        avoidNode ho ws resolve keep set node = set) := by
  unfold avoidNode
  cases hkeep : keep node with
  | false => exact .inl ⟨rfl, rfl⟩
  | true =>
    right
    rw [if_pos rfl]
    cases hpkg : ws.pathPkg node.sourceId with
    | none =>
      refine .inr ⟨rfl, ?_, rfl⟩
      rintro ⟨-, pkg, hsome, -⟩
      rw [hpkg] at hsome
      cases hsome
    | some pkg =>
      by_cases hne : pkg.packageId ≠ node
      · exact .inl ⟨⟨hkeep, pkg, hpkg, hne⟩, if_pos hne⟩
      · refine .inr ⟨rfl, ?_, if_neg hne⟩
        rintro ⟨-, pkg', hsome, hne'⟩
        rw [hpkg] at hsome
        cases hsome
        exact hne hne'

omit [VersionReq R] in
/-- The first loop keeps the set closed, packages that changed on disk apart, and puts into
it what is not kept or changed on disk. -/
theorem foldl_avoidNode (ho : HashOrder (PackageId S)) (hcomplete : Complete resolve)
    (nodes : List (PackageId S))
    (hnodes : ∀ p ∈ nodes, p ∈ resolve.graph.nodes.keys) (set : Finset (PackageId S))
    (hset : ClosedButChanged ws resolve keep set) :
    ClosedButChanged ws resolve keep (nodes.foldl (avoidNode ho ws resolve keep) set) ∧
      set ⊆ nodes.foldl (avoidNode ho ws resolve keep) set ∧
      ∀ p ∈ nodes, keep p = false ∨ ChangedOnDisk ws keep p →
        p ∈ nodes.foldl (avoidNode ho ws resolve keep) set := by
  induction nodes generalizing set with
  | nil => exact ⟨hset, Finset.Subset.refl set, by simp⟩
  | cons node nodes ih =>
    have hnode := hnodes node List.mem_cons_self
    -- one turn of the loop, in its three cases
    have hone : ClosedButChanged ws resolve keep (avoidNode ho ws resolve keep set node) ∧
        set ⊆ avoidNode ho ws resolve keep set node ∧
        (keep node = false ∨ ChangedOnDisk ws keep node →
          node ∈ avoidNode ho ws resolve keep set node) := by
      rcases avoidNode_cases ho ws resolve keep set node with
        ⟨hkeep, heq⟩ | ⟨hchanged, heq⟩ | ⟨hkeep, hsame, heq⟩
      · have hcollected := addDeps_collected ho hcomplete set hnode
        rw [heq]
        exact ⟨hset.collected hcollected, hcollected.subset,
          fun _ => hcollected.starts_mem node List.mem_cons_self⟩
      · rw [heq]
        refine ⟨?_, Finset.subset_insert node set, fun _ => Finset.mem_insert_self node set⟩
        intro p hp hnot q hq
        rcases Finset.mem_insert.mp hp with rfl | hp
        · exact absurd hchanged hnot
        · exact Finset.mem_insert_of_mem (hset p hp hnot q hq)
      · rw [heq]
        refine ⟨hset, Finset.Subset.refl set, ?_⟩
        rintro (h | h)
        · rw [hkeep] at h
          cases h
        · exact absurd h hsame
    obtain ⟨hclosed, hsub, hmem⟩ :=
      ih (fun p hp => hnodes p (List.mem_cons_of_mem _ hp)) _ hone.1
    refine ⟨hclosed, hone.2.1.trans hsub, ?_⟩
    intro p hp hfree
    rcases List.mem_cons.mp hp with rfl | hp
    · exact hsub (hone.2.2 hfree)
    · exact hmem p hp hfree

/-! ### The second loop -/

omit [VersionReq R] in
theorem mem_disk_of_pathPkg {source : S} {pkg : PathPackage S R}
    (h : ws.pathPkg source = some pkg) : pkg ∈ ws.disk.map Prod.snd := by
  obtain ⟨entry, hentry, rfl⟩ := Option.map_eq_some_iff.mp h
  exact List.mem_map_of_mem (List.mem_of_find?_eq_some hentry)

omit [VersionReq R] in
theorem mem_disk_of_pathDeps {member pkg : PathPackage S R} (h : pkg ∈ ws.pathDeps member) :
    pkg ∈ ws.disk.map Prod.snd := by
  rw [Workspace.pathDeps, List.mem_reverse] at h
  obtain ⟨dep, -, hdep⟩ := List.mem_filterMap.mp h
  exact mem_disk_of_pathPkg hdep

theorem mem_poisonedBy {member : PathPackage S R} {id : PackageId S} :
    id ∈ poisonedBy ho ws resolve member ↔ id ∈ resolve.graph.nodes.keys ∧
      ∃ dep ∈ member.dependencies, ws.skips member dep = false ∧
        ws.pathPkg dep.sourceId = none ∧
        (∀ id ∈ resolve.graph.nodes.keys, dep.matchesIgnoringSource id = false) ∧
        dep.sourceId = id.sourceId := by
  simp only [poisonedBy, poisons, List.mem_flatMap, List.mem_filter, Bool.and_eq_true,
    Bool.not_eq_true', Option.isNone_iff_eq_none, List.any_eq_false, SetOrder.mem_enum,
    decide_eq_true_eq, Bool.not_eq_true]
  constructor
  · rintro ⟨dep, ⟨hdep, ⟨hskip, hpath⟩, hmatch⟩, hid, hsource⟩
    exact ⟨hid, dep, hdep, hskip, hpath, hmatch, hsource.symm⟩
  · rintro ⟨hid, dep, hdep, hskip, hpath, hmatch, hsource⟩
    exact ⟨dep, ⟨hdep, ⟨hskip, hpath⟩, hmatch⟩, hid, hsource.symm⟩

/-- The second loop comes to its end and sweeps from the packages of poisoned sources. -/
theorem avoidPoisoned_spec (ho : HashOrder (PackageId S)) (ws : Workspace S R)
    (hcomplete : Complete resolve) (avoid : Finset (PackageId S)) :
    ∃ T roots, avoidPoisoned ho ws resolve avoid = some T ∧
      Collected (fun id => (ho.of id).enum (resolve.depsNotReplaced id)) avoid roots T ∧
      ∀ id, id ∈ roots ↔ id ∈ resolve.graph.nodes.keys ∧ Poisoned ws resolve id.sourceId := by
  have hclosed : ∀ p ∈ ws.members ++ ws.disk.map Prod.snd, ∀ q ∈ ws.pathDeps p,
      q ∈ ws.members ++ ws.disk.map Prod.snd :=
    fun p _ q hq => List.mem_append_right _ (mem_disk_of_pathDeps hq)
  obtain ⟨order, hrun, hsound, hcovers, hdown⟩ := worklist_spec
    (fun avoid member =>
      (poisonedBy ho ws resolve member).foldl (addDeps ho resolve) avoid)
    hclosed ws.one_package _ ws.members.reverse
    (fun p hp => List.mem_append_left _ (List.mem_reverse.mp hp)) ∅ avoid
    (by rw [List.length_reverse])
  -- the work list comes to the members and what they lead to on disk
  have horder : ∀ pkg, pkg ∈ order ↔ Considered ws pkg := by
    intro pkg
    constructor
    · intro hpkg
      obtain ⟨member, hmember, hpath⟩ := hsound pkg hpkg
      exact ⟨member, List.mem_reverse.mp hmember, hpath⟩
    · rintro ⟨member, hmember, hpath⟩
      induction hpath with
      | refl => simpa using hcovers member (List.mem_reverse.mpr hmember)
      | tail _ hstep ih => simpa using hdown _ ih _ hstep
  refine ⟨_, order.flatMap (poisonedBy ho ws resolve), hrun, ?_, ?_⟩
  · rw [← List.foldl_flatMap]
    apply Collected.foldl (U := resolve.graph.nodes.keys)
      (n := resolve.graph.nodes.keys.card + 1)
    · intro set a ha hn
      exact addDeps_collected ho hcomplete set ha
    · intro a ha
      obtain ⟨member, -, hmember⟩ := List.mem_flatMap.mp ha
      exact (mem_poisonedBy.mp hmember).1
    · exact Nat.lt_succ_of_le (Finset.card_le_card Finset.sdiff_subset)
  · intro id
    rw [List.mem_flatMap]
    constructor
    · rintro ⟨member, hmember, hid⟩
      obtain ⟨hnode, dep, hdep⟩ := mem_poisonedBy.mp hid
      exact ⟨hnode, member, (horder member).mp hmember, dep, hdep⟩
    · rintro ⟨hnode, member, hmember, dep, hdep⟩
      exact ⟨member, (horder member).mpr hmember, mem_poisonedBy.mpr ⟨hnode, dep, hdep⟩⟩

/-! ### All orders of the packages -/

variable (ws keep) in
/-- What is avoided after both loops. -/
theorem exists_avoid (hcomplete : Complete resolve) (ho : HashOrder (PackageId S)) :
    ∃ T, avoidPoisoned ho ws resolve (avoidListed ho ws resolve keep) = some T ∧
      ClosedButChanged ws resolve keep T ∧
      ∀ p ∈ resolve.graph.nodes.keys,
        Unlocked ws resolve keep p ∨ ChangedOnDisk ws keep p → p ∈ T := by
  have hempty : ClosedButChanged ws resolve keep ∅ := fun p hp => absurd hp (Finset.notMem_empty p)
  obtain ⟨hclosed, -, hmem⟩ := foldl_avoidNode ho hcomplete (ho.enum resolve.graph.nodes.keys)
    (fun p hp => (SetOrder.mem_enum _).mp hp) ∅ hempty
  obtain ⟨T, roots, hrun, hT, hroots⟩ := avoidPoisoned_spec ho ws hcomplete
    (avoidListed ho ws resolve keep)
  refine ⟨T, hrun, hclosed.collected hT, ?_⟩
  intro p hp hfree
  rcases hfree with (hkeep | ⟨-, hpoisoned⟩) | hchanged
  · exact hT.subset (hmem p ((SetOrder.mem_enum _).mpr hp) (.inl hkeep))
  · exact hT.starts_mem p ((hroots p).mpr ⟨hp, hpoisoned⟩)
  · exact hT.subset (hmem p ((SetOrder.mem_enum _).mpr hp) (.inr hchanged))

/-- Whatever lies openly below an unlocked package is avoided. -/
theorem mem_of_openlyBelow {T : Finset (PackageId S)}
    (hclosed : ClosedButChanged ws resolve keep T)
    (hroots : ∀ p ∈ resolve.graph.nodes.keys, Unlocked ws resolve keep p → p ∈ T)
    {x : PackageId S} (hx : x ∈ resolve.graph.nodes.keys) (h : OpenlyBelow ws resolve keep x) :
    x ∈ T := by
  obtain ⟨root, hroot, hpath⟩ := h
  induction hpath with
  | refl => exact hroots root hx hroot
  | @tail b c hprev hstep ih =>
    have hb : b ∈ resolve.graph.nodes.keys := mem_nodes_of_dep hstep.1
    exact hclosed b (ih hb) hstep.2 c hstep.1

omit [VersionReq R] in
variable (resolve) in
/-- Packages that changed on disk enter the set alone. -/
theorem mem_foldl_avoidNode_changed (ho : HashOrder (PackageId S)) {nodes : List (PackageId S)}
    (hnodes : ∀ p ∈ nodes, ChangedOnDisk ws keep p) (set : Finset (PackageId S))
    (p : PackageId S) :
    p ∈ nodes.foldl (avoidNode ho ws resolve keep) set ↔ p ∈ set ∨ p ∈ nodes := by
  induction nodes generalizing set with
  | nil => simp
  | cons node nodes ih =>
    have hnode := hnodes node List.mem_cons_self
    have hone : avoidNode ho ws resolve keep set node = insert node set := by
      rcases avoidNode_cases ho ws resolve keep set node with
        ⟨hkeep, -⟩ | ⟨-, heq⟩ | ⟨-, hsame, -⟩
      · rw [hnode.1] at hkeep
        cases hkeep
      · exact heq
      · exact absurd hnode hsame
    rw [List.foldl_cons, ih (fun q hq => hnodes q (List.mem_cons_of_mem _ hq)), hone,
      Finset.mem_insert, List.mem_cons]
    tauto

/-- After the packages that changed on disk, the first loop adds what lies openly below the
packages that are not kept. -/
theorem exact_foldl_avoidNode (ho : HashOrder (PackageId S)) (hcomplete : Complete resolve)
    {nodes : List (PackageId S)}
    (hnodes : ∀ p ∈ nodes, p ∈ resolve.graph.nodes.keys ∧ ¬ ChangedOnDisk ws keep p)
    {set : Finset (PackageId S)} (hset : Exact ws resolve keep set) :
    Exact ws resolve keep (nodes.foldl (avoidNode ho ws resolve keep) set) := by
  induction nodes generalizing set with
  | nil => exact hset
  | cons node nodes ih =>
    obtain ⟨hnode, hsame⟩ := hnodes node List.mem_cons_self
    rw [List.foldl_cons]
    apply ih fun p hp => hnodes p (List.mem_cons_of_mem _ hp)
    rcases avoidNode_cases ho ws resolve keep set node with
      ⟨hkeep, heq⟩ | ⟨hchanged, -⟩ | ⟨-, -, heq⟩
    · rw [heq]
      apply hset.collected hcomplete (addDeps_collected ho hcomplete set hnode)
      intro a ha
      rw [List.mem_singleton] at ha
      exact ha ▸ ⟨hnode, .inl hkeep⟩
    · exact absurd hchanged hsame
    · rw [heq]
      exact hset

variable (ws keep) in
/-- If the packages that changed on disk come first, nothing is avoided but these and what
lies openly below an unlocked package. -/
theorem exists_exact_avoid (hcomplete : Complete resolve) :
    ∃ (ho : HashOrder (PackageId S)) (T : Finset (PackageId S)),
      avoidPoisoned ho ws resolve (avoidListed ho ws resolve keep) = some T ∧
        Exact ws resolve keep T := by
  classical
  let changed := (resolve.graph.nodes.keys.filter (ChangedOnDisk ws keep)).toList
  let others := (resolve.graph.nodes.keys.filter fun p => ¬ ChangedOnDisk ws keep p).toList
  let ho : HashOrder (PackageId S) := .following (changed ++ others)
  have hchanged : ∀ p, p ∈ changed ↔ p ∈ resolve.graph.nodes.keys ∧ ChangedOnDisk ws keep p := by
    intro p
    rw [Finset.mem_toList, Finset.mem_filter]
  have hothers : ∀ p, p ∈ others ↔ p ∈ resolve.graph.nodes.keys ∧ ¬ ChangedOnDisk ws keep p := by
    intro p
    rw [Finset.mem_toList, Finset.mem_filter]
  have henum : ho.enum resolve.graph.nodes.keys = changed ++ others := by
    apply SetOrder.following_enum
    · apply (Finset.nodup_toList _).append (Finset.nodup_toList _)
      intro p hp hp'
      exact ((hothers p).mp hp').2 ((hchanged p).mp hp).2
    · intro p
      rw [List.mem_append, hchanged, hothers]
      tauto
  -- these are put into the set without what lies below them
  have hfirst : Exact ws resolve keep (changed.foldl (avoidNode ho ws resolve keep) ∅) := by
    have hmem := mem_foldl_avoidNode_changed resolve ho
      (fun p hp => ((hchanged p).mp hp).2) ∅
    constructor
    · intro p hp hp'
      exact (hmem p).mpr (.inr ((hchanged p).mpr ⟨hp, hp'⟩))
    · intro p hp
      rcases (hmem p).mp hp with hp | hp
      · exact absurd hp (Finset.notMem_empty p)
      · exact .inl ((hchanged p).mp hp).2
  have hlisted : Exact ws resolve keep (avoidListed ho ws resolve keep) := by
    rw [avoidListed, henum, List.foldl_append]
    exact exact_foldl_avoidNode ho hcomplete (fun p hp => (hothers p).mp hp) hfirst
  obtain ⟨T, roots, hrun, hT, hroots⟩ := avoidPoisoned_spec ho ws hcomplete
    (avoidListed ho ws resolve keep)
  refine ⟨ho, T, hrun, hlisted.collected hcomplete hT ?_⟩
  intro a ha
  obtain ⟨hnode, hpoisoned⟩ := (hroots a).mp ha
  exact ⟨hnode, .inr ⟨hnode, hpoisoned⟩⟩

/-- In whatever order the packages come, nothing below an unlocked package is locked, exactly
when each kept package below an unlocked one changed on disk itself or lies below an unlocked
one on a way over no package that changed on disk. -/
theorem locksClosed_iff (ws : Workspace S R) (resolve : Resolve S R) (keep : PackageId S → Bool)
    (hcomplete : Complete resolve) :
    LocksClosed ws resolve keep ↔
      ∀ root, Unlocked ws resolve keep root →
        ∀ x, ReflTransGen (fun p q => q ∈ resolve.depsNotReplaced p) root x → keep x = true →
          ChangedOnDisk ws keep x ∨ OpenlyBelow ws resolve keep x := by
  have hbelow : ∀ root, Unlocked ws resolve keep root →
      ∀ x, ReflTransGen (fun p q => q ∈ resolve.depsNotReplaced p) root x → keep x = true →
        x ∈ resolve.graph.nodes.keys := by
    intro root hroot x hpath hkeep
    rcases hpath.cases_tail with rfl | ⟨b, -, hstep⟩
    · rcases hroot with hroot | hroot
      · rw [hkeep] at hroot
        cases hroot
      · exact hroot.1
    · exact hcomplete b x hstep
  constructor
  · intro hlocks root hroot x hpath hkeep
    obtain ⟨ho, T, hrun, hexact⟩ := exists_exact_avoid ws keep hcomplete
    obtain ⟨locks, hlocked, hfree⟩ := hlocks ho
    have hnode := hbelow root hroot x hpath hkeep
    apply hexact.only
    by_contra hx
    -- otherwise the package would be registered itself
    rw [registerPreviousLocks, hrun, Option.map_some, Option.some.injEq] at hlocked
    subst hlocked
    refine (hfree root hroot x hpath (x, _) (List.mem_map_of_mem ?_)).1 rfl
    simp [hnode, hkeep, hx]
  · intro hcond ho
    obtain ⟨T, hrun, hclosed, hmem⟩ := exists_avoid ws keep hcomplete ho
    rw [registerPreviousLocks, hrun]
    refine ⟨_, rfl, ?_⟩
    intro root hroot x hpath lock hlock
    have havoided : keep x = true → x ∈ T := by
      intro hkeep
      have hnode := hbelow root hroot x hpath hkeep
      rcases hcond root hroot x hpath hkeep with hchanged | hopen
      · exact hmem x hnode (.inr hchanged)
      · exact mem_of_openlyBelow hclosed (fun p hp h => hmem p hp (.inl h)) hnode hopen
    obtain ⟨node, hnode, rfl⟩ := List.mem_map.mp hlock
    constructor
    · rintro rfl
      have hkept := (List.mem_filter.mp hnode).2
      simp only [Bool.and_eq_true, decide_eq_true_eq] at hkept
      exact hkept.2 (havoided hkept.1)
    · intro hx
      have hkept := (List.mem_filter.mp hx).2
      simp only [Bool.and_eq_true, decide_eq_true_eq] at hkept
      exact hkept.2 (havoided hkept.1)

/-! ### A path package that changed on disk -/

/-- A package of the registry. -/
def logId : PackageId ℕ := ⟨"log", ⟨1, 0, 0, []⟩, 0⟩

/-- The package that is updated. -/
def appId : PackageId ℕ := ⟨"app", ⟨1, 0, 0, []⟩, 1⟩

/-- A path package, in the version of the lock file. -/
def midId : PackageId ℕ := ⟨"mid", ⟨1, 0, 0, []⟩, 2⟩

/-- The manifest of `mid` has a new version by now, and still depends on `log`. -/
def midOnDisk : PathPackage ℕ (List Version) where
  packageId := { midId with version := ⟨1, 1, 0, []⟩ }
  dependencies := [.parse "log" [⟨1, 0, 0, []⟩] 0]

/-- The manifest of `app`, which depends on `mid`. -/
def appOnDisk : PathPackage ℕ (List Version) where
  packageId := appId
  dependencies := [.parse "mid" [⟨1, 0, 0, []⟩, ⟨1, 1, 0, []⟩] 2]

/-- The workspace of `app`. -/
def appWorkspace : Workspace ℕ (List Version) where
  members := [appOnDisk]
  disk := [(1, appOnDisk), (2, midOnDisk)]
  one_package := by decide

/-- The lock file: `app` depends on `mid`, and `mid` on `log`. -/
def chainResolve : Resolve ℕ (List Version) where
  graph := (((Util.Graph.new.add logId).link midId logId id).link appId midId id)
  replacements := ∅
  features := ∅
  checksums := ∅
  metadata := ∅
  unusedPatches := []

/-- The lock file with a dependency of `app` on `log` as well. -/
def triangleResolve : Resolve ℕ (List Version) :=
  { chainResolve with graph := chainResolve.graph.link appId logId id }

/-- If `mid` comes first, then it is avoided alone, the recursion from `app` stops at it, and
`log` stays locked. -/
theorem log_stays_locked :
    registerPreviousLocks (.following [midId, appId, logId]) appWorkspace chainResolve
        (fun id => decide (id ≠ appId)) = some [(logId, [])] ∧
      ¬ LocksClosed appWorkspace chainResolve (fun id => decide (id ≠ appId)) := by
  have hrun : registerPreviousLocks (.following [midId, appId, logId]) appWorkspace chainResolve
      (fun id => decide (id ≠ appId)) = some [(logId, [])] := by decide +kernel
  refine ⟨hrun, ?_⟩
  intro hclosed
  obtain ⟨locks, hlocks, hfree⟩ := hclosed (.following [midId, appId, logId])
  rw [hrun, Option.some.injEq] at hlocks
  have hmid : midId ∈ chainResolve.depsNotReplaced appId := by decide +kernel
  have hlog : logId ∈ chainResolve.depsNotReplaced midId := by decide +kernel
  have hpath := (ReflTransGen.single (r := fun p q => q ∈ chainResolve.depsNotReplaced p) hmid).tail
    hlog
  have happ : Unlocked appWorkspace chainResolve (fun id => decide (id ≠ appId)) appId :=
    .inl (by decide)
  apply (hfree appId happ logId hpath (logId, []) ?_).1 rfl
  rw [← hlocks]
  exact List.mem_singleton_self _

/-- With the second dependency `log` is unlocked in every order. -/
theorem triangle_locks_closed :
    Complete triangleResolve ∧
      LocksClosed appWorkspace triangleResolve (fun id => decide (id ≠ appId)) := by
  have hnodes : triangleResolve.graph.nodes.keys = {appId, midId, logId} := by decide +kernel
  have happ : triangleResolve.depsNotReplaced appId = {midId, logId} := by decide +kernel
  have hcomplete : Complete triangleResolve := by
    have hall : ∀ p ∈ triangleResolve.graph.nodes.keys, ∀ q ∈ triangleResolve.depsNotReplaced p,
        q ∈ triangleResolve.graph.nodes.keys := by
      rw [hnodes]
      decide +kernel
    exact fun p q hq => hall p (mem_nodes_of_dep hq) q hq
  refine ⟨hcomplete, (locksClosed_iff _ _ _ hcomplete).mpr ?_⟩
  intro root hroot x hpath hkeep
  have hunlocked : Unlocked appWorkspace triangleResolve (fun id => decide (id ≠ appId)) appId :=
    .inl (by decide)
  have hx : x = appId ∨ x = midId ∨ x = logId := by
    have hnode : x ∈ triangleResolve.graph.nodes.keys := by
      rcases hpath.cases_tail with rfl | ⟨b, -, hstep⟩
      · rcases hroot with hroot | hroot
        · exact absurd hkeep (by simp [hroot])
        · exact hroot.1
      · exact hcomplete b x hstep
    simpa [hnodes] using hnode
  rcases hx with rfl | rfl | rfl
  · exact absurd hkeep (by decide)
  · exact .inl ⟨hkeep, midOnDisk, by decide +kernel, by decide⟩
  · refine .inr ⟨appId, hunlocked, .single ⟨?_, ?_⟩⟩
    · rw [happ]
      decide
    · intro hchanged
      exact absurd hchanged.1 (by decide)

end Cargo.Ops
