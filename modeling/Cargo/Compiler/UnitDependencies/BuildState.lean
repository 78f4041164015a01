import Cargo.Compiler.UnitDependencies.Made
import Cargo.Compiler.UnitDependencies.Runs

/-!
# The outputs of build scripts

A unit is compiled with what the build scripts printed that count for it, and these are looked up
when its job runs: an output that is not there is an internal error. The scripts that count are
listed before anything runs, and the order of the jobs is found elsewhere. Together they see to it
that the output of each script listed is there: it is configured, or the script has been run.

## Main definitions

* `scriptContext` — the graph as the propagation of build scripts sees it
* `OutputKnown` — an output that is there

## Main results

* `buildMap_ok` — the lists, and the scripts that are noted as not run
* `outputs_known` — in every run, when a unit is compiled the outputs that it asks for are there
-/

set_option autoImplicit false

namespace Cargo.Compiler.CustomBuild

open Cargo.Math

variable {P X O : Type} [DecidableEq P] [DecidableEq X] [Ord P] [Ord (Unit P X)]

namespace Context

/-- The scripts that are not run have their outputs. -/
def Noted (cx : Context P X O) : Prop :=
  ∀ key ∈ cx.buildScriptOverridden, (cx.outputs key).isSome = true

omit [DecidableEq X] [Ord P] [Ord (Unit P X)] in
theorem Noted.noteOverride {cx : Context P X O} (h : cx.Noted) (key : P × Kind) :
    (cx.noteOverride key).Noted := by
  unfold Context.noteOverride
  cases cx.override key with
  | none => exact h
  | some output =>
    intro other hother
    dsimp only at hother ⊢
    by_cases heq : other = key
    · simp [heq]
    · rw [Function.update_of_ne heq]
      exact h other ((Finset.mem_insert.mp hother).resolve_left heq)

theorem noted_of_build {n : ℕ} {unit : Unit P X} {out out' : Out P X} {cx cx' : Context P X O}
    {ret : BuildScripts P} (h : build n unit (out, cx) = .ok (ret, out', cx')) (hcx : cx.Noted) :
    cx'.Noted := by
  induction n generalizing unit out cx out' cx' ret with
  | zero => cases h
  | succ n ih =>
    rw [build] at h
    split at h
    · cases h
      exact hcx
    · obtain ⟨deps, -, h⟩ := bind_eq_ok.mp h
      obtain ⟨⟨ret', out'', cx''⟩, hfold, h⟩ := bind_eq_ok.mp h
      have hcx'' : cx''.Noted := by
        refine foldlM_ok_induction
          (P := fun _ (st : BuildScripts P × Out P X × Context P X O) => st.2.2.Noted) hfold
          (hcx.noteOverride unit.key) ?_
        rintro pre dep post ⟨r, o, c⟩ st' - hst hstep
        obtain ⟨⟨r', o', c'⟩, hbuild, hstep⟩ := bind_eq_ok.mp hstep
        cases hstep
        exact ih hbuild hst
      dsimp only at h
      split at h
      · cases h
        exact hcx''
      · cases h

/-- What the run ends with: the graph it started from, the list of each unit that can be reached,
and the scripts of these that are not run, with their outputs. -/
theorem buildMap_ok {cx cx' : Context P X O} (h : cx.WellFormed) {roots : List (Unit P X)}
    (hroots : ∀ u ∈ roots, u ∈ cx.unitDependencies) (hcx : cx.Noted)
    (hrun : buildMap cx roots = .ok cx') :
    (∀ u, cx.Reached roots u → cx'.buildScripts u = some (scripts h u)) ∧
      (∀ u, cx.Reached roots u →
        (u.key ∈ cx'.buildScriptOverridden ↔ cx.overridden u.key = true)) ∧ cx'.Noted := by
  obtain ⟨cx₁, hfold, hfollows⟩ := foldlM_roots h hroots (Follows.refl cx)
  have heq : buildMap cx roots = .ok { cx₁ with
      buildScripts := fun unit => ((traverse ((dag h).compute cx.gather) roots fun _ => none).2
        unit).or (cx₁.buildScripts unit) } := bind_eq_ok.mpr ⟨_, hfold, rfl⟩
  rw [heq] at hrun
  cases hrun
  refine ⟨fun u hu => ?_, fun u hu => ⟨hfollows.overridden u.key, hfollows.noted u ?_⟩, ?_⟩
  · dsimp only
    rw [(traverse_roots h roots).1 hu, Option.some_or]
  · rw [(traverse_roots h roots).1 hu]
    simp
  · refine foldlM_ok_induction
      (P := fun _ (st : Out P X × Context P X O) => st.2.Noted) hfold hcx ?_
    rintro pre unit post ⟨o, c⟩ st' - hst hstep
    obtain ⟨⟨r', o', c'⟩, hbuild, hstep⟩ := bind_eq_ok.mp hstep
    cases hstep
    exact noted_of_build hbuild hst

end Context

end Cargo.Compiler.CustomBuild

namespace Cargo.Compiler.UnitDependencies

open Relation
open Cargo.Core hiding Kind
open Cargo.Math Cargo.Resolver Cargo.Util JobEvent
open Cargo.Compiler.CustomBuild (Kind)

variable {crate : UrlCrate} {R W σ E F O : Type}

/-! ### The graph for the propagation of build scripts -/

/-- What tells units apart beside their packages and kinds. -/
abbrev Setting := Target × Profile × CompileMode

def scriptTarget (target : Target) : CustomBuild.Target :=
  ⟨target.name, target.kind, target.forHost⟩

/-- A unit as the propagation of build scripts sees it. -/
def scriptUnit (u : Unit crate) : CustomBuild.Unit (PackageId (SourceId crate)) Setting :=
  ⟨u.pkg, scriptTarget u.target, u.kind, (u.target, u.profile, u.mode)⟩

theorem scriptUnit_injective : Function.Injective
    (scriptUnit : Unit crate → CustomBuild.Unit (PackageId (SourceId crate)) Setting) := by
  rintro ⟨pkg, target, profile, kind, mode⟩ ⟨pkg', target', profile', kind', mode'⟩ h
  simp only [scriptUnit, CustomBuild.Unit.mk.injEq, Prod.mk.injEq] at h
  obtain ⟨rfl, -, rfl, rfl, rfl, rfl⟩ := h
  rfl

/-- The context with the graph of the units, before the build scripts are propagated. -/
def scriptContext (bcx : BuildContext crate R) (ho : HashOrder (Unit crate))
    (t : SuccTable (Unit crate)) (overrides : String × Kind → Option O) :
    CustomBuild.Context (PackageId (SourceId crate)) Setting O where
  package id := ⟨(bcx.package id).links, (bcx.package id).targets.map scriptTarget⟩
  unitDependencies := renameTable ho scriptUnit t
  overrides
  outputs _ := none
  buildScriptOverridden := ∅
  buildScripts _ := none

section Graph

variable {bcx : BuildContext crate R} {ho : HashOrder (Unit crate)}
  {overrides : String × Kind → Option O} {t : SuccTable (Unit crate)}

theorem lookup_scriptContext {x : CustomBuild.Unit (PackageId (SourceId crate)) Setting}
    {l' : List (CustomBuild.Unit (PackageId (SourceId crate)) Setting)} :
    (scriptContext bcx ho t overrides).unitDependencies.lookup x = some l' ↔
      ∃ u l, t.lookup u = some l ∧ scriptUnit u = x ∧ l.map scriptUnit = l' :=
  lookup_renameTable ho scriptUnit_injective

theorem mem_scriptContext {u : Unit crate} (hu : u ∈ t) :
    scriptUnit u ∈ (scriptContext bcx ho t overrides).unitDependencies := by
  obtain ⟨l, hl⟩ := Finmap.mem_iff.mp hu
  exact Finmap.mem_of_lookup_eq_some (lookup_scriptContext.mpr ⟨u, l, hl, rfl, rfl⟩)

theorem next_of_dependsOn {x y : CustomBuild.Unit (PackageId (SourceId crate)) Setting}
    (h : (scriptContext bcx ho t overrides).DependsOn x y) :
    ∃ u d, scriptUnit u = x ∧ scriptUnit d = y ∧ Next t u d := by
  unfold CustomBuild.Context.DependsOn CustomBuild.Context.dependencies at h
  split_ifs at h with hover
  · cases h
  · cases hl : (scriptContext bcx ho t overrides).unitDependencies.lookup x with
    | none =>
      rw [hl] at h
      cases h
    | some l' =>
      rw [hl] at h
      obtain ⟨u, l, hu, rfl, rfl⟩ := lookup_scriptContext.mp hl
      obtain ⟨d, hd, rfl⟩ := List.mem_map.mp h
      exact ⟨u, d, rfl, rfl, l, hu, hd⟩

/-- The unit that is seen as `x`. -/
def unitOf (x : CustomBuild.Unit (PackageId (SourceId crate)) Setting) : Unit crate :=
  ⟨x.pkg, x.setting.1, x.setting.2.1, x.kind, x.setting.2.2⟩

theorem wellFormed_scriptContext (hacyclic : Acyclic (Next t))
    (hclosed : ∀ u d, Next t u d → d ∈ t) :
    (scriptContext bcx ho t overrides).WellFormed where
  acyclic := by
    refine acyclic_of_rank (fun x => reachRank (Next t) t.keys (unitOf x)) ?_
    intro x y h
    obtain ⟨u, d, rfl, rfl, hnext⟩ := next_of_dependsOn h
    exact hacyclic.reachRank_lt hnext (Finmap.mem_keys.mpr (hclosed u d hnext))
  closed x y h := by
    obtain ⟨u, d, -, rfl, hnext⟩ := next_of_dependsOn h
    exact mem_scriptContext (hclosed u d hnext)

end Graph

/-! ### Both views of the graph -/

section Views

variable {cx : Context crate R W σ E} {ho : HashOrder (Unit crate)}
  {overrides : String × Kind → Option O} {roots : List (Unit crate)} {u d : Unit crate}

/-- The scripts that are not run are those that will be noted so. -/
def Agrees (cx : Context crate R W σ E) (ho : HashOrder (Unit crate))
    (overrides : String × Kind → Option O) (u : Unit crate) : Prop :=
  (u.pkg, u.kind) ∈ cx.buildScriptOverridden ↔
    (scriptContext cx.bcx ho cx.unitDependencies overrides).overridden (u.pkg, u.kind) = true

theorem dependsOn_iff (h : Agrees cx ho overrides u)
    {y : CustomBuild.Unit (PackageId (SourceId crate)) Setting} :
    (scriptContext cx.bcx ho cx.unitDependencies overrides).DependsOn (scriptUnit u) y ↔
      ∃ d ∈ cx.deps u, scriptUnit d = y := by
  by_cases hover : u.target.isCustomBuild = true ∧ (u.pkg, u.kind) ∈ cx.buildScriptOverridden
  · have hnone : cx.deps u = [] := by
      unfold Context.deps Context.depTargets
      rw [if_pos hover]
    have hnone' : (scriptContext cx.bcx ho cx.unitDependencies overrides).dependencies
        (scriptUnit u) = [] := by
      unfold CustomBuild.Context.dependencies
      exact if_pos ⟨hover.1, h.mp hover.2⟩
    simp [CustomBuild.Context.DependsOn, hnone, hnone']
  · have hdeps : (scriptContext cx.bcx ho cx.unitDependencies overrides).dependencies
        (scriptUnit u) = ((scriptContext cx.bcx ho cx.unitDependencies
          overrides).unitDependencies.lookup (scriptUnit u)).getD [] := by
      unfold CustomBuild.Context.dependencies
      exact if_neg fun hover' => hover ⟨hover'.1, h.mpr hover'.2⟩
    constructor
    · intro hy
      obtain ⟨u', d, hu', rfl, hnext⟩ := next_of_dependsOn hy
      obtain rfl := scriptUnit_injective hu'
      exact ⟨d, (Context.mem_deps hover).mpr hnext, rfl⟩
    · rintro ⟨d, hd, rfl⟩
      obtain ⟨l, hl, hmem⟩ := (Context.mem_deps hover).mp hd
      unfold CustomBuild.Context.DependsOn
      rw [hdeps, lookup_scriptContext.mpr ⟨u, l, hl, rfl, rfl⟩]
      exact List.mem_map_of_mem hmem

/-- What can be reached in one view can be reached in the other. -/
theorem reached_of_compiles
    (h : ∀ u, (scriptContext cx.bcx ho cx.unitDependencies overrides).Reached
      (roots.map scriptUnit) (scriptUnit u) → Agrees cx ho overrides u)
    (hu : cx.Compiles roots u) :
    (scriptContext cx.bcx ho cx.unitDependencies overrides).Reached (roots.map scriptUnit)
      (scriptUnit u) := by
  obtain ⟨root, hroot, hpath⟩ := hu
  induction hpath with
  | refl => exact ⟨_, List.mem_map_of_mem hroot, .refl⟩
  | tail _ hstep ih =>
    obtain ⟨start, hstart, hreach⟩ := ih
    refine ⟨start, hstart, hreach.tail ?_⟩
    exact (dependsOn_iff (h _ ⟨start, hstart, hreach⟩)).mpr ⟨_, hstep, rfl⟩

/-- What is linked into a unit is reached over libraries. -/
theorem path_of_links (h : ∀ u, cx.Compiles roots u → Agrees cx ho overrides u)
    (hu : cx.Compiles roots u) {y : CustomBuild.Unit (PackageId (SourceId crate)) Setting}
    (hpath : ReflTransGen (scriptContext cx.bcx ho cx.unitDependencies overrides).Links
      (scriptUnit u) y) :
    ∃ v, scriptUnit v = y ∧ cx.Compiles roots v ∧
      ReflTransGen (fun a b => b ∈ cx.deps a ∧ b.target.linkable = true) u v := by
  induction hpath with
  | refl => exact ⟨u, rfl, hu, .refl⟩
  | tail _ hstep ih =>
    obtain ⟨v, rfl, hv, hpath⟩ := ih
    obtain ⟨hdepends, hlinkable, -⟩ := hstep
    obtain ⟨d, hd, rfl⟩ := (dependsOn_iff (h v hv)).mp hdepends
    obtain ⟨root, hroot, hreach⟩ := hv
    exact ⟨d, rfl, ⟨root, hroot, hreach.tail hd⟩, hpath.tail ⟨hd, hlinkable⟩⟩

end Views

/-! ### Runs of build scripts in the graph -/

section Table

variable {bcx : BuildContext crate R} {ho : HashOrder (PackageId (SourceId crate))}
  {ho' : HashOrder (Unit crate)} {roots : List (Unit crate)} {base : SuccTable (Unit crate)}
  {u d : Unit crate}

/-- What a run depends on are build scripts, which are not linked. -/
theorem Built.isCustomBuild_of_run (h : Built bcx ho roots base)
    (hu : u.mode.isRunCustomBuild = true) (htarget : u.target.isCustomBuild = true)
    (hnext : Next (connectRunCustomBuildDeps bcx ho' base) u d) :
    d.target.isCustomBuild = true := by
  rcases next_connect.mp hnext with hnext | ⟨-, -, parent, other, -, -, -, -, -, hd⟩
  · obtain ⟨uf, uf', -, hdep⟩ := h.dep_of_next hnext
    cases hdep with
    | script _ hd =>
      obtain ⟨profile, -, rfl⟩ := newUnit_eq_ok.mp hd
      exact htarget
    | run hrun _ _ | lib hrun _ _ _ _ | own hrun _ _ _ =>
      rw [hu] at hrun
      cases hrun
    | doc hdoc _ _ _ _ =>
      have hmode : u.mode = .runCustomBuild := of_decide_eq_true hu
      simp [Unit.documented, hmode, CompileMode.isDoc] at hdoc
    | bin htest _ _ _ _ _ =>
      rw [isRunCustomBuild_of_isAnyTest htest.2] at hu
      cases hu
  · obtain ⟨target, htarget', rfl⟩ := depBuildScript_eq_some.mp hd
    exact List.find?_some htarget'

/-- What is run are build scripts, if no root is run. -/
theorem Built.isCustomBuild_of_isRun (h : Built bcx ho roots base)
    (hroots : ∀ u ∈ roots, u.mode.isRunCustomBuild = false) (hu : u ∈ base)
    (hrun : u.mode.isRunCustomBuild = true) : u.target.isCustomBuild = true := by
  obtain ⟨r, hr, hpath⟩ := h.ofNothing.reached u hu Finmap.notMem_empty
  rcases hpath.cases_tail with heq | ⟨parent, -, hnext⟩
  · rw [heq, hroots r hr] at hrun
    cases hrun
  · obtain ⟨uf, uf', -, hdep⟩ := h.dep_of_next hnext
    exact isCustomBuild_of_dep hdep hrun

/-- A unit that has to be on the host is for the host, if something depends on it. -/
theorem Built.kind_of_forHost_connect (h : Built bcx ho roots base)
    (hnext : Next (connectRunCustomBuildDeps bcx ho' base) u d)
    (hrun : d.mode.isRunCustomBuild = false) (hhost : d.target.forHost = true) :
    d.kind = .host := by
  rcases next_connect.mp hnext with hnext | ⟨-, -, parent, other, -, -, -, -, -, hd⟩
  · obtain ⟨uf, uf', -, hdep⟩ := h.dep_of_next hnext
    exact hdep.kind_of_forHost hrun hhost
  · obtain ⟨target, -, rfl⟩ := depBuildScript_eq_some.mp hd
    cases hrun

/-- A unit of a package with a build script, which it is not itself, depends on its run. -/
theorem Built.exists_run (h : Built bcx ho roots base)
    (hroots : ∀ u ∈ roots, u.mode.isRunCustomBuild = false) (hu : u ∈ base)
    (htarget : u.target.isCustomBuild = false)
    (hscript : (bcx.package u.pkg).targets.any Target.isCustomBuild = true) :
    ∃ run, Next (connectRunCustomBuildDeps bcx ho' base) u run ∧ run.mode = .runCustomBuild ∧
      run.pkg = u.pkg ∧ run.kind = u.kind ∧ run.target.isCustomBuild = true := by
  have hrun : u.mode.isRunCustomBuild = false := by
    by_contra hrun
    rw [h.isCustomBuild_of_isRun hroots hu (by simpa using hrun)] at htarget
    cases htarget
  obtain ⟨target, hfind⟩ : ∃ target,
      (bcx.package u.pkg).targets.find? Target.isCustomBuild = some target := by
    rw [← Option.isSome_iff_exists, List.find?_isSome]
    exact List.any_eq_true.mp hscript
  obtain ⟨l, hl⟩ := Finmap.mem_iff.mp hu
  obtain ⟨uf, next, -, hplain, rfl⟩ := h.ofNothing.entry u l hl Finmap.notMem_empty
  have hd := depBuildScript_eq_some.mpr ⟨target, hfind, rfl⟩
  have hmem := run_mem_plainDeps hplain hrun htarget hd
  exact ⟨_, next_connect.mpr (.inl ⟨_, hl, List.mem_map_of_mem hmem⟩), rfl, rfl, rfl,
    List.find?_some hfind⟩

end Table

theorem isBin_of_linkable {target : Target} (h : target.linkable = true) :
    target.isBin = false := by
  unfold Target.linkable at h
  unfold Target.isBin
  split at h
  · rename_i hkind
    simp [hkind]
  · cases h

theorem isBin_of_isCustomBuild {target : Target} (h : target.isCustomBuild = true) :
    target.isBin = false := by
  have hkind : target.kind = .customBuild := of_decide_eq_true h
  simp [Target.isBin, hkind]

/-! ### Outputs that are there -/

/-- The output of a build script is configured, or the script has been run. -/
def OutputKnown (cx' : CustomBuild.Context (PackageId (SourceId crate)) Setting O)
    (log : List (JobEvent (Unit crate) (Job W) F)) (key : PackageId (SourceId crate) × Kind) :
    Prop :=
  (cx'.outputs key).isSome = true ∨ key ∉ cx'.buildScriptOverridden ∧
    ∃ task ∈ succeededTasks log, task.key.mode = .runCustomBuild ∧
      (task.key.pkg, task.key.kind) = key

section Known

variable {cx : Context crate R W σ E} {roots : List (Unit crate)} {u d : Unit crate}

/-- What a unit needs over libraries comes before it. -/
theorem dependsOn_of_path {v : Unit crate}
    (hpath : ReflTransGen (fun a b => b ∈ cx.deps a ∧ b.target.linkable = true) u v) :
    ReflTransGen cx.units.DependsOn v u := by
  induction hpath with
  | refl => exact .refl
  | tail _ hstep ih =>
    refine .head (List.mem_filter.mpr ⟨hstep.1, ?_⟩) ih
    simp [isBin_of_linkable hstep.2]

variable {cx' : CustomBuild.Context (PackageId (SourceId crate)) Setting O}
  {ho : HashOrder (PackageId (SourceId crate))} {ho' : HashOrder (Unit crate)}
  {base : SuccTable (Unit crate)}
  {s : Drain (Unit crate) (Job W) (PackageId (SourceId crate)) F}
  {pre post : List (JobEvent (Unit crate) (Job W) F)} {task : Task (Unit crate) (Job W)}

/-- The graph has the units of the table that it is made from. -/
theorem mem_base (hbase : connectRunCustomBuildDeps cx.bcx ho' base = cx.unitDependencies) :
    u ∈ base ↔ u ∈ cx.unitDependencies := by
  rw [← hbase]
  exact mem_connect.symm

/-- A run that comes before a unit has ended before the unit is compiled. -/
theorem outputKnown_of_run (hnoted : cx'.Noted) (horder : BuildsInOrder cx roots s)
    (hlog : s.log = pre ++ .started task :: post) {run : Unit crate}
    (hrun : TransGen cx.units.DependsOn run task.key) (hmode : run.mode = .runCustomBuild) :
    OutputKnown cx' pre (run.pkg, run.kind) := by
  by_cases hover : (run.pkg, run.kind) ∈ cx'.buildScriptOverridden
  · exact .inl (hnoted _ hover)
  · obtain ⟨dep, hdep, rfl⟩ := horder.deps_first pre task post hlog run hrun
    exact .inr ⟨hover, dep, hdep, hmode, rfl⟩

/-- What is linked into a unit that is compiled has its output. -/
theorem outputKnown_of_path (hbuilt : Built cx.bcx ho roots base)
    (hbase : connectRunCustomBuildDeps cx.bcx ho' base = cx.unitDependencies)
    (hsound : cx.Sound) (hroots : ∀ u ∈ roots, u.mode.isRunCustomBuild = false)
    (hnoted : cx'.Noted) (horder : BuildsInOrder cx roots s)
    (hlog : s.log = pre ++ .started task :: post) {v : Unit crate}
    (hbefore : ReflTransGen cx.units.DependsOn v task.key) (hv : cx.Compiles roots v)
    (htarget : v.target.isCustomBuild = false)
    (hscript : (cx.bcx.package v.pkg).targets.any Target.isCustomBuild = true) :
    OutputKnown cx' pre (v.pkg, v.kind) := by
  have hmem : v ∈ base := (mem_base hbase).mpr
    (hv.mem hsound fun u hu => (mem_base hbase).mp (hbuilt.entered u hu))
  obtain ⟨run, hnext, hmode, hpkg, hkind, hrunTarget⟩ :=
    hbuilt.exists_run hroots hmem htarget hscript
  rw [hbase] at hnext
  have hdeps : run ∈ cx.deps v := (Context.mem_deps (by simp [htarget])).mpr hnext
  have hdepends : cx.units.DependsOn run v := by
    refine List.mem_filter.mpr ⟨hdeps, ?_⟩
    simp [isBin_of_isCustomBuild hrunTarget]
  rw [← hpkg, ← hkind]
  exact outputKnown_of_run hnoted horder hlog (.head' hdepends hbefore) hmode

variable [Ord (PackageId (SourceId crate))]
  [Ord (CustomBuild.Unit (PackageId (SourceId crate)) Setting)] {ho₂ : HashOrder (Unit crate)}
  {overrides : String × Kind → Option O}

/-- What is listed for a unit that comes before the one that is compiled, or is it. A run has no
list, and that of a unit on the host is for the host. -/
theorem outputKnown_of_toLink (hbuilt : Built cx.bcx ho roots base)
    (hbase : connectRunCustomBuildDeps cx.bcx ho' base = cx.unitDependencies)
    (hsound : cx.Sound) (hroots : ∀ u ∈ roots, u.mode.isRunCustomBuild = false)
    (hnoted : cx'.Noted) (horder : BuildsInOrder cx roots s)
    (hlog : s.log = pre ++ .started task :: post)
    (hwell : (scriptContext cx.bcx ho₂ cx.unitDependencies overrides).WellFormed)
    (hagrees : ∀ u, cx.Compiles roots u → Agrees cx ho₂ overrides u)
    (hu : cx.Compiles roots u) {key : PackageId (SourceId crate) × Kind}
    (hkey : key ∈ (CustomBuild.Context.scripts hwell (scriptUnit u)).toLink) :
    (ReflTransGen cx.units.DependsOn u task.key → OutputKnown cx' pre key) ∧
      u.mode.isRunCustomBuild = false ∧ (u.kind = .host → key.2 = .host) := by
  have hmem : ∀ {v}, cx.Compiles roots v → v ∈ base := fun hv => (mem_base hbase).mpr
    (hv.mem hsound fun u hu => (mem_base hbase).mp (hbuilt.entered u hu))
  obtain ⟨x, hlinks, hcontributes, rfl⟩ := (CustomBuild.Context.mem_toLink_scripts hwell).mp hkey
  obtain ⟨v, rfl, hv, hpath⟩ := path_of_links hagrees hu hlinks
  rw [CustomBuild.Context.contributes, Bool.and_eq_true] at hcontributes
  obtain ⟨hnot, hany⟩ := hcontributes
  rw [Bool.not_eq_true'] at hnot
  have htarget : v.target.isCustomBuild = false := hnot
  have hscript : (cx.bcx.package v.pkg).targets.any Target.isCustomBuild = true := by
    have hmap := List.any_map (l := (cx.bcx.package v.pkg).targets) (f := scriptTarget)
      (p := CustomBuild.Target.isCustomBuild)
    exact hmap ▸ hany
  have hnext : ∀ {a b}, b ∈ cx.deps a →
      Next (connectRunCustomBuildDeps cx.bcx ho' base) a b := by
    intro a b hb
    rw [hbase]
    exact Context.next_of_mem_deps hb
  refine ⟨fun hbefore => ?_, ?_, fun hhost => ?_⟩
  · exact outputKnown_of_path hbuilt hbase hsound hroots hnoted horder hlog
      ((dependsOn_of_path hpath).trans hbefore) hv htarget hscript
  · by_contra hrun
    rw [Bool.not_eq_false] at hrun
    -- a run leads to the unit that compiles its script only, which is not linked
    have hcustom := hbuilt.isCustomBuild_of_isRun hroots (hmem hu) hrun
    rcases hpath.cases_head with rfl | ⟨d, ⟨hd, hlinkable⟩, -⟩
    · rw [hcustom] at htarget
      cases htarget
    · have hd' := hbuilt.isCustomBuild_of_run hrun hcustom (hnext hd)
      rw [not_isCustomBuild_of_linkable hlinkable] at hd'
      cases hd'
  · change v.kind = .host
    clear hkey hlinks hany hnot htarget hscript hv
    induction hpath with
    | refl => exact hhost
    | tail _ hstep ih => exact hbuilt.kind_host_of_connect (hnext hstep.1) ih

end Known

/-- In every run of a build, when a unit is compiled, all the outputs of build scripts are there
that are looked up: those that are linked into it, those of what it runs on the host, and, for the
run of a build script, those of the scripts that it links to for the same kind. A test does not
wait for a binary, so that nothing is said of what the test runs if that is a binary. -/
theorem outputs_known [Ord (PackageId (SourceId crate))]
    [Ord (CustomBuild.Unit (PackageId (SourceId crate)) Setting)] (cx : Context crate R W σ E)
    (net : Network crate) (ho : HashOrder (PackageId (SourceId crate)))
    (ho₁ ho₂ ho₃ : HashOrder (Unit crate)) (fuel fuel' : ℕ) (roots : List (Unit crate))
    (hroots : ∀ u ∈ roots, u.mode.isRunCustomBuild = false)
    (pkgs : Finset (PackageId (SourceId crate))) (packages : List (PackageId (SourceId crate)))
    (h : Complete cx.bcx roots packages) (hacyclic : Acyclic (Before cx.bcx))
    (ht : buildUnitDependencies cx.bcx net ho ho₁ fuel roots pkgs = .ok cx.unitDependencies)
    (overrides : String × Kind → Option O)
    (cx' : CustomBuild.Context (PackageId (SourceId crate)) Setting O)
    (hmap : CustomBuild.buildMap (scriptContext cx.bcx ho₂ cx.unitDependencies overrides)
      (roots.map scriptUnit) = .ok cx')
    (hover : cx.buildScriptOverridden = cx'.buildScriptOverridden) (forceRebuild : Bool) (rest : σ)
    (s : Entered (Compiling crate W σ) (Unit crate))
    (hok : cx.compile fuel' roots forceRebuild rest = .ok s) :
    ∃ s₀ : Drain (Unit crate) (Job W) (PackageId (SourceId crate)) F,
      s.rest.jobs.execute ho₃ = .ok s₀ ∧ ∀ s', Drain.Reachable cx.units s₀ s' →
        ∀ pre task post, s'.log = pre ++ .started task :: post →
          ∃ scripts, cx'.buildScripts (scriptUnit task.key) = some scripts ∧
            (∀ key ∈ scripts.toLink, OutputKnown cx' pre key) ∧
            ((∀ d ∈ cx.deps task.key, d.target.forHost = true → d.target.isBin = false) →
              ∀ id ∈ scripts.plugins, OutputKnown cx' pre (id, .host)) ∧
            ∀ d ∈ cx.deps task.key, d.mode.isRunCustomBuild = true → d.kind = task.key.kind →
              OutputKnown cx' pre (d.pkg, task.key.kind) := by
  have hsound := sound_of_build h hacyclic ht
  obtain ⟨jobs, -, -, s₀, hexec, hruns⟩ := hsound.runs hok ho₃
  refine ⟨s₀, hexec, fun s' hreach pre task post hlog => ?_⟩
  obtain ⟨-, horder⟩ := hruns s' hreach
  obtain ⟨base, hpasses, hconnect⟩ := bind_eq_ok.mp ht
  have hbase : connectRunCustomBuildDeps cx.bcx ho₁ base = cx.unitDependencies :=
    Except.ok.inj hconnect
  have hbuilt := built_of_lower (lower_of_passes hpasses)
  -- the lists are those of the units that can be reached
  have hwell : (scriptContext cx.bcx ho₂ cx.unitDependencies overrides).WellFormed :=
    wellFormed_scriptContext hsound.acyclic hsound.closed
  have hstart : ∀ x ∈ roots.map scriptUnit,
      x ∈ (scriptContext cx.bcx ho₂ cx.unitDependencies overrides).unitDependencies := by
    intro x hx
    obtain ⟨u, hu, rfl⟩ := List.mem_map.mp hx
    exact mem_scriptContext (mem_of_root ht hu)
  obtain ⟨hscripts, hoverridden, hnoted⟩ := CustomBuild.Context.buildMap_ok hwell hstart
    (by intro key hkey; cases hkey) hmap
  have hagreesOf : ∀ u, (scriptContext cx.bcx ho₂ cx.unitDependencies overrides).Reached
      (roots.map scriptUnit) (scriptUnit u) → Agrees cx ho₂ overrides u := by
    intro u hu
    unfold Agrees
    rw [hover]
    exact hoverridden _ hu
  have hagrees : ∀ u, cx.Compiles roots u → Agrees cx ho₂ overrides u :=
    fun u hu => hagreesOf u (reached_of_compiles hagreesOf hu)
  have hcompiles : cx.Compiles roots task.key := by
    refine horder.needed task ?_
    rw [hlog]
    simp [startedTasks]
  have hdep : ∀ {d}, d ∈ cx.deps task.key → cx.Compiles roots d := by
    obtain ⟨root, hroot, hpath⟩ := hcompiles
    exact fun hd => ⟨root, hroot, hpath.tail hd⟩
  have hbefore : ∀ {d}, d ∈ cx.deps task.key → d.target.isBin = false →
      cx.units.DependsOn d task.key :=
    fun hd hbin => List.mem_filter.mpr ⟨hd, by simp [hbin]⟩
  refine ⟨_, hscripts _ (reached_of_compiles hagreesOf hcompiles), fun key hkey => ?_,
    fun hplugins id hid => ?_, fun d hd hrun hkind => ?_⟩
  · exact (outputKnown_of_toLink hbuilt hbase hsound hroots hnoted horder hlog hwell hagrees
      hcompiles hkey).1 .refl
  · obtain ⟨y, hy, hhost, kind, hkey⟩ := (CustomBuild.Context.mem_plugins_scripts hwell).mp hid
    obtain ⟨d, hd, rfl⟩ := (dependsOn_iff (hagrees _ hcompiles)).mp hy
    obtain ⟨hknown, hrun, hkind⟩ := outputKnown_of_toLink hbuilt hbase hsound hroots hnoted horder
      hlog hwell hagrees (hdep hd) hkey
    have hnext := Context.next_of_mem_deps hd
    rw [← hbase] at hnext
    obtain rfl : kind = .host := hkind (hbuilt.kind_of_forHost_connect hnext hrun hhost)
    exact hknown (.single (hbefore hd (hplugins d hd hhost)))
  · have hmem : d ∈ base := (mem_base hbase).mpr
      ((hdep hd).mem hsound fun u hu => mem_of_root ht hu)
    have hcustom := hbuilt.isCustomBuild_of_isRun hroots hmem hrun
    rw [← hkind]
    exact outputKnown_of_run hnoted horder hlog
      (.single (hbefore hd (isBin_of_isCustomBuild hcustom))) (of_decide_eq_true hrun)

/-! ### The binary of `foo` -/

instance : Ord (PackageId (SourceId (.plain fun text => .ok ⟨text⟩))) :=
  ⟨fun a b => compare a.name b.name⟩

instance : Ord (CustomBuild.Unit (PackageId (SourceId (.plain fun text => .ok ⟨text⟩))) Setting) :=
  ⟨fun a b => compare a.target.name b.target.name⟩

theorem exampleCompile_buildMap {t : SuccTable (Unit (.plain fun text => .ok ⟨text⟩))} {fuel : ℕ}
    (ht : buildUnitDependencies exampleContext exampleNetwork
      (.following [exampleFoo, exampleBar]) (.following [exampleRoot]) fuel [exampleRoot] ∅ =
        .ok t) :
    ∃ cx', CustomBuild.buildMap (scriptContext exampleContext (.following [exampleRoot]) t
      fun _ => (none : Option String)) [scriptUnit exampleRoot] = .ok cx' := by
  have ht' : buildUnitDependencies (exampleCompile t ∅ false).bcx exampleNetwork
      (.following [exampleFoo, exampleBar]) (.following [exampleRoot]) fuel [exampleRoot] ∅ =
        .ok (exampleCompile t ∅ false).unitDependencies := ht
  have hsound := sound_of_build exampleContext_complete exampleContext_acyclic_before ht'
  have hwell : (scriptContext exampleContext (.following [exampleRoot]) t
      fun _ => (none : Option String)).WellFormed :=
    wellFormed_scriptContext hsound.acyclic hsound.closed
  have hroot : exampleRoot ∈ t := mem_of_root ht' (List.mem_singleton_self _)
  have hroots : ∀ x ∈ [scriptUnit exampleRoot], x ∈ (scriptContext exampleContext
      (.following [exampleRoot]) t fun _ => (none : Option String)).unitDependencies := by
    intro x hx
    obtain rfl := List.mem_singleton.mp hx
    exact mem_scriptContext hroot
  obtain ⟨cx', hmap, -⟩ := CustomBuild.Context.buildMap_eq hwell hroots
  exact ⟨cx', hmap⟩

/-- The binary of `foo` is linked to `bar`, which has a build script. -/
theorem outputs_known_foo : ∃ fuel t cx' s,
    buildUnitDependencies exampleContext exampleNetwork (.following [exampleFoo, exampleBar])
      (.following [exampleRoot]) fuel [exampleRoot] ∅ = .ok t ∧
    CustomBuild.buildMap (scriptContext exampleContext (.following [exampleRoot]) t
      fun _ => (none : Option String)) [scriptUnit exampleRoot] = .ok cx' ∧
    (exampleCompile t cx'.buildScriptOverridden false).compile t.keys.card [exampleRoot] false
      ⟨⟩ = .ok s ∧
    ∃ s₀ : Drain (Unit (.plain fun text => .ok ⟨text⟩)) (Job (List String))
        (PackageId (SourceId (.plain fun text => .ok ⟨text⟩))) String,
      s.rest.jobs.execute (.following [exampleRoot]) = .ok s₀ ∧ ∀ s', Drain.Reachable
          (exampleCompile t cx'.buildScriptOverridden false).units s₀ s' →
        ∀ pre task post, s'.log = pre ++ .started task :: post →
          ∃ scripts, cx'.buildScripts (scriptUnit task.key) = some scripts ∧
            (∀ key ∈ scripts.toLink, OutputKnown cx' pre key) ∧
            ((∀ d ∈ (exampleCompile t cx'.buildScriptOverridden false).deps task.key,
                d.target.forHost = true → d.target.isBin = false) →
              ∀ id ∈ scripts.plugins, OutputKnown cx' pre (id, .host)) ∧
            ∀ d ∈ (exampleCompile t cx'.buildScriptOverridden false).deps task.key,
              d.mode.isRunCustomBuild = true → d.kind = task.key.kind →
                OutputKnown cx' pre (d.pkg, task.key.kind) := by
  obtain ⟨fuel, t, ht⟩ := exampleGraph
  obtain ⟨cx', hmap⟩ := exampleCompile_buildMap ht
  obtain ⟨s, hs⟩ := exampleCompile_build ht cx'.buildScriptOverridden
  have hroots : ∀ u ∈ [exampleRoot], u.mode.isRunCustomBuild = false := by
    intro u hu
    obtain rfl := List.mem_singleton.mp hu
    rfl
  exact ⟨fuel, t, cx', s, ht, hmap, hs, outputs_known
    (exampleCompile t cx'.buildScriptOverridden false) exampleNetwork _ _ (.following [exampleRoot])
    _ fuel t.keys.card [exampleRoot] hroots ∅ [exampleFoo, exampleBar] exampleContext_complete
    exampleContext_acyclic_before ht (fun _ => none) cx' hmap rfl false ⟨⟩ s hs⟩

end Cargo.Compiler.UnitDependencies
