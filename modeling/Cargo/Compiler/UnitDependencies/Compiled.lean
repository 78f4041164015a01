import Cargo.Compiler.JobQueue.Tasks
import Cargo.Compiler.UnitDependencies.Compile
import Cargo.Compiler.UnitDependencies.Graph

/-!
# What is enqueued

On a graph without cycles the visit enqueues the units that can be reached from the roots, each of
them once. It fails only if making the work of a unit fails, or if there is something wrong with
the native libraries: two packages link to one, or a package that does has no build script. In a
plan, all that a unit depends on comes before it.

## Main definitions

* `Context.Sound`, `Context.Compiles` — the graph, and what can be reached
* `Enqueues`, `Linked`, `Planned` — what holds of the queue, of the libraries and of the plan
* `LinksOnce` — nothing is wrong with the native libraries

## Main results

* `compile_enqueues` — each unit that can be reached has one job
* `compile_links` — the visit fails for a reason
* `compile_plan` — the plan is in order
-/

set_option autoImplicit false

namespace Cargo.Compiler.UnitDependencies

open Relation
open Cargo.Core hiding Kind
open Cargo.Math Cargo.Resolver Cargo.Util
open Cargo.Compiler.CustomBuild (Kind)

variable {crate : UrlCrate} {R W σ E : Type}

namespace Context

variable {cx : Context crate R W σ E} {u d : Unit crate}

/-- The graph has no cycle, and has the units that others depend on. -/
structure Sound (cx : Context crate R W σ E) : Prop where
  acyclic : Acyclic (Next cx.unitDependencies)
  closed : ∀ u d, Next cx.unitDependencies u d → d ∈ cx.unitDependencies

/-- The units that can be reached from the roots. -/
def Compiles (cx : Context crate R W σ E) (roots : List (Unit crate)) (u : Unit crate) : Prop :=
  ∃ root ∈ roots, ReflTransGen (fun u d => d ∈ cx.deps u) root u

theorem next_of_mem_deps (h : d ∈ cx.deps u) : Next cx.unitDependencies u d := by
  unfold deps depTargets at h
  split_ifs at h with hover
  · cases h
  · cases hl : cx.unitDependencies.lookup u with
    | none =>
      rw [hl] at h
      cases h
    | some l =>
      rw [hl] at h
      exact ⟨l, hl, List.mem_mergeSort.mp h⟩

/-- A unit of which the graph has the dependencies. -/
theorem depTargets_eq (hu : u ∈ cx.unitDependencies) : cx.depTargets u = .ok (cx.deps u) := by
  obtain ⟨l, hl⟩ := Finmap.mem_iff.mp hu
  unfold deps depTargets
  split_ifs with hover
  · rfl
  · simp only [hl]

/-- What a unit depends on, if it is not a build script that is not run. -/
theorem mem_deps (h : ¬ (u.target.isCustomBuild = true ∧
    (u.pkg, u.kind) ∈ cx.buildScriptOverridden)) :
    d ∈ cx.deps u ↔ Next cx.unitDependencies u d := by
  refine ⟨next_of_mem_deps, ?_⟩
  rintro ⟨l, hl, hd⟩
  unfold deps depTargets
  rw [if_neg h]
  simp only [hl]
  exact List.mem_mergeSort.mpr hd

theorem Compiles.mem (h : cx.Sound) {roots : List (Unit crate)}
    (hroots : ∀ u ∈ roots, u ∈ cx.unitDependencies) (hu : cx.Compiles roots u) :
    u ∈ cx.unitDependencies := by
  obtain ⟨root, hroot, hpath⟩ := hu
  rcases hpath.cases_tail with rfl | ⟨v, -, hstep⟩
  · exact hroots u hroot
  · exact h.closed v u (next_of_mem_deps hstep)

/-- How many units are below a unit. -/
noncomputable def height (cx : Context crate R W σ E) : Unit crate → ℕ :=
  reachRank (Next cx.unitDependencies) cx.unitDependencies.keys

theorem Sound.height_lt (h : cx.Sound) (hd : d ∈ cx.deps u) : cx.height d < cx.height u :=
  have hnext := next_of_mem_deps hd
  h.acyclic.reachRank_lt hnext (Finmap.mem_keys.mpr (h.closed u d hnext))

theorem Sound.height_lt_card (h : cx.Sound) (hu : u ∈ cx.unitDependencies) :
    cx.height u < cx.unitDependencies.keys.card :=
  h.acyclic.reachRank_lt_card (Finmap.mem_keys.mpr hu)

/-! ### One unit -/

/-- Entering a unit checks what its package links to, and enqueues the unit. -/
theorem enter_eq_ok {item : Unit crate × Bool} {s s' : Compiling crate W σ}
    {next : List (Unit crate × Bool)} (h : cx.enter item s = .ok (next, s')) :
    ∃ links job freshness rest, s.links.validate cx.bcx cx.ho item.1 = .ok links ∧
      next = (cx.deps item.1).map (fun dep => (dep, false)) ∧
      s' = ⟨links, s.jobs.enqueue cx.units item.1 job freshness, s.plan, rest⟩ := by
  obtain ⟨rest, -, h⟩ := bind_eq_ok.mp h
  obtain ⟨links, hlinks, h⟩ := bind_eq_ok.mp h
  obtain ⟨work, -, h⟩ := bind_eq_ok.mp h
  obtain ⟨deps, hdeps, h⟩ := bind_eq_ok.mp h
  cases h
  refine ⟨links, work.1.1, work.1.2, work.2, mapError_eq_ok.mp hlinks, ?_, rfl⟩
  simp only [Context.deps, hdeps]

/-- Leaving a unit adds it to the plan, if there is to be one. -/
theorem leave_eq_ok {item : Unit crate × Bool} {s s' : Compiling crate W σ}
    (h : cx.leave item s = .ok s') :
    cx.buildPlan = false ∧ s' = s ∨ cx.buildPlan = true ∧ ∃ plan,
      s.plan.add cx.buildkey item.1 (cx.deps item.1) =
        (.ok plan : Except (CompileError crate E) _) ∧
        s' = { s with plan } := by
  unfold leave at h
  split_ifs at h with hplan
  · obtain ⟨deps, hdeps, h⟩ := bind_eq_ok.mp h
    obtain ⟨plan, hadd, h⟩ := bind_eq_ok.mp h
    cases h
    refine .inr ⟨hplan, plan, ?_, rfl⟩
    simpa only [Context.deps, hdeps] using hadd
  · cases h
    exact .inl ⟨by simpa using hplan, rfl⟩

/-- An invariant of the visit is kept when a unit is enqueued and when one is left. -/
theorem Sound.visitInvariant (h : cx.Sound) (roots : List (Unit crate))
    {I : Finset (Unit crate) → Finset (Unit crate) → Compiling crate W σ → Prop}
    (henter : ∀ u entered left s links job freshness rest, cx.Compiles roots u →
      I entered left s → u ∉ entered → s.links.validate cx.bcx cx.ho u = .ok links →
        I (insert u entered) left ⟨links, s.jobs.enqueue cx.units u job freshness, s.plan, rest⟩)
    (hkeep : cx.buildPlan = false → ∀ u entered left s, I entered left s →
      I entered (insert u left) s)
    (hleave : cx.buildPlan = true → ∀ u entered left s plan, cx.Compiles roots u →
      I entered left s → u ∉ left → (∀ d ∈ cx.deps u, d ∈ left) →
      s.plan.add cx.buildkey u (cx.deps u) = (.ok plan : Except (CompileError crate E) _) →
        I entered (insert u left) { s with plan }) :
    VisitInvariant Prod.fst cx.enter cx.leave cx.deps cx.height
      (fun item => cx.Compiles roots item.1) I where
  rank_lt _ _ _ hd := h.height_lt hd
  items item entered left s next s' hitem _ hstep := by
    obtain ⟨links, job, freshness, rest, -, rfl, -⟩ := enter_eq_ok hstep
    constructor
    · simp [Function.comp_def]
    · intro b hb
      obtain ⟨d, hd, rfl⟩ := List.mem_map.mp hb
      obtain ⟨root, hroot, hpath⟩ := hitem
      exact ⟨root, hroot, hpath.tail hd⟩
  enter item entered left s next s' hitem hs hnot _ hstep := by
    obtain ⟨links, job, freshness, rest, hlinks, -, rfl⟩ := enter_eq_ok hstep
    exact henter item.1 entered left s links job freshness rest hitem hs hnot hlinks
  leave item entered left s s' hitem hs _ hnot hsucc _ hstep := by
    rcases leave_eq_ok hstep with ⟨hplan, rfl⟩ | ⟨hplan, plan, hadd, rfl⟩
    · exact hkeep hplan item.1 entered left s' hs
    · exact hleave hplan item.1 entered left s plan hitem hs hnot hsucc hadd

end Context

/-! ### The queue -/

section Enqueues

variable {cx : Context crate R W σ E}

/-- The queue has one job for each of the units. -/
def Enqueues (cx : Context crate R W σ E) (entered : Finset (Unit crate))
    (jobs : List (Unit crate × Job W × Freshness))
    (queue : JobQueue (Unit crate) (Job W) (PackageId (SourceId crate))) : Prop :=
  queue = JobQueue.enqueueAll cx.units jobs ∧ (jobs.map Prod.fst).Nodup ∧
    ∀ u, u ∈ jobs.map Prod.fst ↔ u ∈ entered

theorem Enqueues.enqueue {entered : Finset (Unit crate)}
    {jobs : List (Unit crate × Job W × Freshness)}
    {queue : JobQueue (Unit crate) (Job W) (PackageId (SourceId crate))}
    (h : Enqueues cx entered jobs queue) {u : Unit crate} (hu : u ∉ entered) (job : Job W)
    (freshness : Freshness) : Enqueues cx (insert u entered) (jobs ++ [(u, job, freshness)])
      (queue.enqueue cx.units u job freshness) := by
  obtain ⟨rfl, hnodup, hmem⟩ := h
  refine ⟨?_, ?_, ?_⟩
  · simp [JobQueue.enqueueAll]
  · rw [List.map_append]
    refine List.Nodup.append hnodup (List.nodup_singleton _) (List.disjoint_singleton.mpr ?_)
    exact mt (hmem u).mp hu
  · intro v
    rw [List.map_append, List.mem_append, hmem v, Finset.mem_insert, or_comm]
    simp

theorem visitInvariant_enqueues (h : cx.Sound) (roots : List (Unit crate)) :
    VisitInvariant Prod.fst cx.enter cx.leave cx.deps cx.height
      (fun item => cx.Compiles roots item.1)
      fun entered _ s => ∃ jobs, Enqueues cx entered jobs s.jobs := by
  refine h.visitInvariant roots ?_ (fun _ _ _ _ _ hs => hs) fun _ _ _ _ _ _ _ hs _ _ _ => hs
  rintro u entered left s links job freshness rest - ⟨jobs, hs⟩ hu -
  exact ⟨_, hs.enqueue hu job freshness⟩

end Enqueues

/-! ### Native libraries -/

section Links

variable {cx : Context crate R W σ E}

/-- What is known of the libraries once the packages of some units have been checked. -/
structure Linked (bcx : BuildContext crate R) (entered : Finset (Unit crate))
    (links : Context.Links crate) : Prop where
  validated : ∀ p, p ∈ links.validated ↔ ∃ u ∈ entered, u.pkg = p
  lookup : ∀ lib p, links.links.lookup lib = some p ↔
    p ∈ links.validated ∧ (bcx.package p).links = some lib
  script : ∀ p ∈ links.validated, (bcx.package p).links.isSome = true →
    (bcx.package p).targets.any Target.isCustomBuild = true

/-- Nothing is wrong with the native libraries of some packages. -/
structure LinksOnce (bcx : BuildContext crate R) (packages : PackageId (SourceId crate) → Prop) :
    Prop where
  once : ∀ p q, packages p → packages q → ∀ lib, (bcx.package p).links = some lib →
    (bcx.package q).links = some lib → p = q
  script : ∀ p, packages p → (bcx.package p).links.isSome = true →
    (bcx.package p).targets.any Target.isCustomBuild = true

/-- What an error is about is wrong with the libraries of some packages. The paths that it shows
are paths up. -/
def LinksError.Accounted (bcx : BuildContext crate R)
    (packages : PackageId (SourceId crate) → Prop) : LinksError crate → Prop
  | .multiple lib prev pkg => ∃ p q, packages p ∧ packages q ∧ p ≠ q ∧
      (bcx.package p).links = some lib ∧ (bcx.package q).links = some lib ∧
      prev.head? = some p ∧ pkg.head? = some q ∧
      bcx.resolve.graph.IsPathUp prev ∧ bcx.resolve.graph.IsPathUp pkg
  | .noBuildScript p lib => packages p ∧ (bcx.package p).links = some lib ∧
      (bcx.package p).targets.any Target.isCustomBuild = false

theorem LinksError.Accounted.mono {bcx : BuildContext crate R}
    {packages packages' : PackageId (SourceId crate) → Prop}
    (hsub : ∀ p, packages p → packages' p) {e : LinksError crate} (h : e.Accounted bcx packages) :
    e.Accounted bcx packages' := by
  cases e with
  | multiple lib prev pkg =>
    obtain ⟨p, q, hp, hq, hrest⟩ := h
    exact ⟨p, q, hsub p hp, hsub q hq, hrest⟩
  | noBuildScript p lib => exact ⟨hsub p h.1, h.2⟩

theorem LinksError.Accounted.not_linksOnce {bcx : BuildContext crate R}
    {packages : PackageId (SourceId crate) → Prop} {e : LinksError crate}
    (h : e.Accounted bcx packages) : ¬ LinksOnce bcx packages := by
  intro honce
  cases e with
  | multiple lib prev pkg =>
    obtain ⟨p, q, hp, hq, hne, hlinks, hlinks', -⟩ := h
    exact hne (honce.once p q hp hq lib hlinks hlinks')
  | noBuildScript p lib =>
    obtain ⟨hp, hlinks, hscript⟩ := h
    rw [honce.script p hp (by rw [hlinks]; rfl)] at hscript
    cases hscript

variable {bcx : BuildContext crate R} {entered : Finset (Unit crate)} {links : Context.Links crate}

theorem linked_new : Linked bcx (∅ : Finset (Unit crate)) Context.Links.new where
  validated p := by simp [Context.Links.new]
  lookup lib p := by simp [Context.Links.new]
  script p hp := by simp [Context.Links.new] at hp

theorem Linked.linksOnce (h : Linked bcx entered links) :
    LinksOnce bcx fun p => ∃ u ∈ entered, u.pkg = p where
  once p q hp hq lib hlinks hlinks' := by
    have hp' := (h.lookup lib p).mpr ⟨(h.validated p).mpr hp, hlinks⟩
    have hq' := (h.lookup lib q).mpr ⟨(h.validated q).mpr hq, hlinks'⟩
    exact Option.some.inj (hp'.symm.trans hq')
  script p hp := h.script p ((h.validated p).mpr hp)

/-- One unit more. -/
theorem Linked.mem_insert (h : Linked bcx entered links) (u : Unit crate)
    (p : PackageId (SourceId crate)) :
    p ∈ insert u.pkg links.validated ↔ ∃ v ∈ insert u entered, v.pkg = p := by
  rw [Finset.mem_insert, h.validated]
  simp only [Finset.exists_mem_insert, eq_comm]

/-- A check that succeeds. -/
theorem Linked.validate (h : Linked bcx entered links) {ho : HashOrder (PackageId (SourceId crate))}
    {u : Unit crate} {links' : Context.Links crate} (hok : links.validate bcx ho u = .ok links') :
    Linked bcx (insert u entered) links' := by
  unfold Context.Links.validate at hok
  by_cases hmem : u.pkg ∈ links.validated
  · rw [if_pos hmem] at hok
    cases hok
    refine ⟨fun p => ?_, h.lookup, h.script⟩
    rw [← h.mem_insert, Finset.insert_eq_of_mem hmem]
  rw [if_neg hmem] at hok
  dsimp only at hok
  split at hok
  -- a package that links to nothing changes nothing
  · rename_i hnone
    cases hok
    refine ⟨h.mem_insert u, fun lib p => ?_, ?_⟩
    · rw [h.lookup, Finset.mem_insert, or_and_right, or_iff_right]
      rintro ⟨rfl, hlinks⟩
      rw [hnone] at hlinks
      cases hlinks
    · intro p hp hsome
      rcases Finset.mem_insert.mp hp with rfl | hp
      · rw [hnone] at hsome
        cases hsome
      · exact h.script p hp hsome
  · rename_i lib hlib
    split at hok
    · cases hok
    · rename_i hfree
      split_ifs at hok with hscript
      cases hok
      refine ⟨h.mem_insert u, fun lib' p => ?_, ?_⟩
      -- the library was free, so that its package is the only one
      · by_cases heq : lib' = lib
        · subst heq
          rw [Finmap.lookup_insert, Option.some.injEq, Finset.mem_insert]
          constructor
          · rintro rfl
            exact ⟨.inl rfl, hlib⟩
          · rintro ⟨rfl | hp, hlinks⟩
            · rfl
            · rw [(h.lookup _ p).mpr ⟨hp, hlinks⟩] at hfree
              cases hfree
        · rw [Finmap.lookup_insert_of_ne _ heq, h.lookup, Finset.mem_insert, or_and_right,
            or_iff_right]
          rintro ⟨rfl, hlinks⟩
          exact heq (Option.some.inj (hlinks.symm.trans hlib))
      · intro p hp hsome
        rcases Finset.mem_insert.mp hp with rfl | hp
        · exact hscript
        · exact h.script p hp hsome

/-- A check that fails. -/
theorem Linked.accounted_of_validate (h : Linked bcx entered links)
    {ho : HashOrder (PackageId (SourceId crate))} {u : Unit crate} {e : LinksError crate}
    (herror : links.validate bcx ho u = .error e) :
    e.Accounted bcx fun p => ∃ v ∈ insert u entered, v.pkg = p := by
  have hself : ∃ v ∈ insert u entered, v.pkg = u.pkg := ⟨u, Finset.mem_insert_self _ _, rfl⟩
  have hpath : ∀ p, (bcx.resolve.graph.pathToTop ho p).head? = some p ∧
      bcx.resolve.graph.IsPathUp (bcx.resolve.graph.pathToTop ho p) := by
    intro p
    obtain ⟨rest, top, heq, hup, -⟩ := bcx.resolve.graph.pathToTop_spec ho p
    rw [heq]
    exact ⟨rfl, hup⟩
  unfold Context.Links.validate at herror
  by_cases hmem : u.pkg ∈ links.validated
  · rw [if_pos hmem] at herror
    cases herror
  rw [if_neg hmem] at herror
  dsimp only at herror
  split at herror
  · cases herror
  · rename_i lib hlib
    split at herror
    · rename_i prev hprev
      cases herror
      obtain ⟨hvalidated, hlinks⟩ := (h.lookup lib prev).mp hprev
      obtain ⟨v, hv, rfl⟩ := (h.validated prev).mp hvalidated
      refine ⟨v.pkg, u.pkg, ⟨v, Finset.mem_insert_of_mem hv, rfl⟩, hself, ?_, hlinks, hlib,
        (hpath _).1, (hpath _).1, (hpath _).2, (hpath _).2⟩
      rintro heq
      exact hmem (heq ▸ hvalidated)
    · split_ifs at herror with hscript
      cases herror
      exact ⟨hself, hlib, by simpa using hscript⟩

/-- The units entered can be reached, and their packages have been checked. -/
theorem visitInvariant_linked (h : cx.Sound) (roots : List (Unit crate)) :
    VisitInvariant Prod.fst cx.enter cx.leave cx.deps cx.height
      (fun item => cx.Compiles roots item.1)
      fun entered _ s => (∀ u ∈ entered, cx.Compiles roots u) ∧
        Linked cx.bcx entered s.links := by
  refine h.visitInvariant roots ?_ (fun _ _ _ _ _ hs => hs) fun _ _ _ _ _ _ _ hs _ _ _ => hs
  rintro u entered left s links job freshness rest hu ⟨hentered, hs⟩ - hlinks
  refine ⟨fun v hv => ?_, hs.validate hlinks⟩
  rcases Finset.mem_insert.mp hv with rfl | hv
  · exact hu
  · exact hentered v hv

end Links

/-! ### Plans -/

section Plan

variable {cx : Context crate R W σ E} {left : Finset (Unit crate)} {plan plan' : BuildPlan crate}
  {u : Unit crate}

/-- Where a unit is in a plan. -/
def BuildPlan.At (plan : BuildPlan crate) (i : ℕ) (u : Unit crate) : Prop :=
  ∃ invocation, plan.invocations[i]? = some invocation ∧ invocation.unit = u

/-- The plan has the units that were left, each once and after those that it depends on, whose
positions it knows. -/
structure Planned (cx : Context crate R W σ E) (left : Finset (Unit crate))
    (plan : BuildPlan crate) : Prop where
  nodup : (plan.invocations.map Invocation.unit).Nodup
  mem : ∀ u, u ∈ plan.invocations.map Invocation.unit ↔ u ∈ left
  lookup : ∀ u ∈ left, ∃ i, plan.invocationMap.lookup (cx.buildkey u) = some i ∧ plan.At i u
  deps : ∀ i invocation, plan.invocations[i]? = some invocation →
    List.Forall₂ (fun d j => j < i ∧ plan.At j d) (cx.deps invocation.unit) invocation.deps

theorem planned_new : Planned cx ∅ BuildPlan.new := by
  constructor <;> simp [BuildPlan.new]

theorem position_eq_ok {buildkey : Unit crate → String} {map : Finmap fun _ : String => ℕ}
    {i : ℕ} : BuildPlan.position buildkey map u = (.ok i : Except (CompileError crate E) ℕ) ↔
      map.lookup (buildkey u) = some i := by
  unfold BuildPlan.position
  split <;> simp_all

theorem position_of_isSome {buildkey : Unit crate → String} {map : Finmap fun _ : String => ℕ}
    (h : (map.lookup (buildkey u)).isSome = true) : ∃ i,
      BuildPlan.position buildkey map u = (.ok i : Except (CompileError crate E) ℕ) := by
  obtain ⟨i, hi⟩ := Option.isSome_iff_exists.mp h
  exact ⟨i, position_eq_ok.mpr hi⟩

/-- The plan after one unit more. -/
theorem add_eq_ok (hadd : plan.add cx.buildkey u (cx.deps u) =
    (.ok plan' : Except (CompileError crate E) _)) : ∃ deps,
      plan' = ⟨plan.invocationMap.insert (cx.buildkey u) plan.invocations.length,
        plan.invocations ++ [⟨u, deps⟩]⟩ ∧
      List.Forall₂ (fun d i => (plan.invocationMap.insert (cx.buildkey u)
        plan.invocations.length).lookup (cx.buildkey d) = some i) (cx.deps u) deps := by
  obtain ⟨deps, hdeps, hadd⟩ := bind_eq_ok.mp hadd
  cases hadd
  exact ⟨deps, rfl, (mapM_eq_ok.mp hdeps).imp fun d i hi => position_eq_ok.mp hi⟩

theorem BuildPlan.At.lt {i : ℕ} (h : plan.At i u) : i < plan.invocations.length := by
  obtain ⟨invocation, hi, -⟩ := h
  exact (List.getElem?_eq_some_iff.mp hi).1

theorem BuildPlan.At.append {i : ℕ} (h : plan.At i u) {map : Finmap fun _ : String => ℕ}
    (rest : List (Invocation crate)) :
    BuildPlan.At ⟨map, plan.invocations ++ rest⟩ i u := by
  have hlt := h.lt
  obtain ⟨invocation, hi, hu⟩ := h
  exact ⟨invocation, (List.getElem?_append_left hlt).trans hi, hu⟩

/-- One unit more, whose name is not that of another. -/
theorem Planned.add (h : Planned cx left plan) (hu : u ∉ left)
    (hkey : ∀ d ∈ left, cx.buildkey d ≠ cx.buildkey u) (hdeps : ∀ d ∈ cx.deps u, d ∈ left)
    (hadd : plan.add cx.buildkey u (cx.deps u) =
      (.ok plan' : Except (CompileError crate E) _)) : Planned cx (insert u left) plan' := by
  obtain ⟨deps, rfl, hlookups⟩ := add_eq_ok hadd
  have hother : ∀ d ∈ left, (plan.invocationMap.insert (cx.buildkey u)
      plan.invocations.length).lookup (cx.buildkey d) =
        plan.invocationMap.lookup (cx.buildkey d) :=
    fun d hd => Finmap.lookup_insert_of_ne _ (hkey d hd)
  refine ⟨?_, fun v => ?_, fun v hv => ?_, fun i invocation hi => ?_⟩
  · rw [List.map_append]
    refine List.Nodup.append h.nodup (List.nodup_singleton _) (List.disjoint_singleton.mpr ?_)
    exact mt (h.mem u).mp hu
  · rw [List.map_append, List.mem_append, h.mem, Finset.mem_insert, or_comm]
    simp
  · rcases Finset.mem_insert.mp hv with rfl | hv
    · exact ⟨_, Finmap.lookup_insert _, ⟨v, deps⟩, List.getElem?_concat_length, rfl⟩
    · obtain ⟨i, hi, hat⟩ := h.lookup v hv
      exact ⟨i, (hother v hv).trans hi, hat.append _⟩
  · have happend : ∀ j d, plan.At j d → BuildPlan.At
        ⟨plan.invocationMap.insert (cx.buildkey u) plan.invocations.length,
          plan.invocations ++ [⟨u, deps⟩]⟩ j d := fun j d hat => hat.append _
    rcases Nat.lt_or_ge i plan.invocations.length with hlt | hge
    · have hi' : plan.invocations[i]? = some invocation := by
        rwa [List.getElem?_append_left hlt] at hi
      exact (h.deps i invocation hi').imp fun d j hd => ⟨hd.1, happend j d hd.2⟩
    · -- the unit itself comes last
      have heq : i = plan.invocations.length := by
        have := (List.getElem?_eq_some_iff.mp hi).1
        simp only [List.length_append, List.length_cons, List.length_nil] at this
        omega
      subst heq
      rw [List.getElem?_concat_length] at hi
      cases hi
      refine ((List.forall₂_and_left _ _).mpr ⟨hdeps, hlookups⟩).imp fun d j hd => ?_
      obtain ⟨hleft, hj⟩ := hd
      obtain ⟨j', hj', hat⟩ := h.lookup d hleft
      rw [hother d hleft, hj', Option.some.injEq] at hj
      subst hj
      exact ⟨hat.lt, happend j' d hat⟩

/-- If there is to be a plan, then it knows the positions of the units that were left. -/
theorem visitInvariant_named (h : cx.Sound) (roots : List (Unit crate)) :
    VisitInvariant Prod.fst cx.enter cx.leave cx.deps cx.height
      (fun item => cx.Compiles roots item.1)
      fun _ left s => cx.buildPlan = true → ∀ u ∈ left,
        (s.plan.invocationMap.lookup (cx.buildkey u)).isSome = true := by
  refine h.visitInvariant roots (fun _ _ _ _ _ _ _ _ _ hs _ _ => hs) ?_ ?_
  · intro hplan u entered left s _ hplan'
    rw [hplan] at hplan'
    cases hplan'
  · intro hplan u entered left s plan _ hs _ _ hadd _ v hv
    obtain ⟨deps, rfl, -⟩ := add_eq_ok hadd
    by_cases heq : cx.buildkey v = cx.buildkey u
    · dsimp only
      rw [heq, Finmap.lookup_insert]
      rfl
    · rw [Finmap.lookup_insert_of_ne _ heq]
      rcases Finset.mem_insert.mp hv with rfl | hv
      · exact absurd rfl heq
      · exact hs hplan v hv

/-- If no two units have the same name, then the plan is in order. -/
theorem visitInvariant_planned (h : cx.Sound) (roots : List (Unit crate))
    (hplan : cx.buildPlan = true) (hkey : ∀ u d, cx.Compiles roots u → cx.Compiles roots d →
      cx.buildkey u = cx.buildkey d → u = d) :
    VisitInvariant Prod.fst cx.enter cx.leave cx.deps cx.height
      (fun item => cx.Compiles roots item.1)
      fun _ left s => (∀ u ∈ left, cx.Compiles roots u) ∧ Planned cx left s.plan := by
  refine h.visitInvariant roots (fun _ _ _ _ _ _ _ _ _ hs _ _ => hs) ?_ ?_
  · intro hplan'
    rw [hplan] at hplan'
    cases hplan'
  · rintro - u entered left s plan hu ⟨hleft, hs⟩ hnot hdeps hadd
    refine ⟨fun v hv => ?_, hs.add hnot (fun d hd heq => ?_) hdeps hadd⟩
    · rcases Finset.mem_insert.mp hv with rfl | hv
      · exact hu
      · exact hleft v hv
    · exact hnot (hkey d u (hleft d hd) hu heq ▸ hd)

end Plan

/-! ### The whole visit -/

namespace Context

variable {cx : Context crate R W σ E} {roots : List (Unit crate)} {forceRebuild : Bool} {rest : σ}

theorem Compiles.root {u : Unit crate} (hu : u ∈ roots) : cx.Compiles roots u := ⟨u, hu, .refl⟩

/-- The items that the visit starts from. -/
theorem compiles_of_item {item : Unit crate × Bool}
    (h : item ∈ roots.map fun unit => (unit, forceRebuild)) : cx.Compiles roots item.1 := by
  obtain ⟨u, hu, rfl⟩ := List.mem_map.mp h
  exact .root hu

theorem compiles_iff {u : Unit crate} : cx.Compiles roots u ↔
    ∃ item ∈ roots.map fun unit => (unit, forceRebuild),
      ReflTransGen (Leads cx.deps) item.1 u := by
  simp only [List.mem_map, exists_exists_and_eq_and]
  rfl

/-- An invariant of the visit holds in the end, when all units that can be reached have been
entered and left. -/
theorem compile_ok {I : Finset (Unit crate) → Finset (Unit crate) → Compiling crate W σ → Prop}
    (hinv : VisitInvariant Prod.fst cx.enter cx.leave cx.deps cx.height
      (fun item => cx.Compiles roots item.1) I)
    (hstart : I ∅ ∅ ⟨Context.Links.new, JobQueue.new, BuildPlan.new, rest⟩) {fuel : ℕ}
    {s : Entered (Compiling crate W σ) (Unit crate)}
    (hok : cx.compile fuel roots forceRebuild rest = .ok s) :
    I s.entered s.entered s.rest ∧ ∀ u, u ∈ s.entered ↔ cx.Compiles roots u := by
  obtain ⟨hI, hmem⟩ := visitAll_spec hinv (fun item hitem => compiles_of_item hitem) hstart hok
  exact ⟨hI, fun u => (hmem u).trans compiles_iff.symm⟩

/-- The units that can be reached from the roots are enqueued, each with one job. -/
theorem compile_enqueues (h : cx.Sound) {fuel : ℕ}
    {s : Entered (Compiling crate W σ) (Unit crate)}
    (hok : cx.compile fuel roots forceRebuild rest = .ok s) :
    ∃ jobs, s.rest.jobs = JobQueue.enqueueAll cx.units jobs ∧ (jobs.map Prod.fst).Nodup ∧
      ∀ u, u ∈ jobs.map Prod.fst ↔ cx.Compiles roots u := by
  obtain ⟨⟨jobs, hjobs, hnodup, hmem⟩, hentered⟩ := compile_ok (visitInvariant_enqueues h roots)
    ⟨[], rfl, List.nodup_nil, by simp⟩ hok
  exact ⟨jobs, hjobs, hnodup, fun u => (hmem u).trans (hentered u)⟩

/-- Entering a unit that the graph has fails only if its work cannot be made, or if there is
something wrong with what its package links to. -/
theorem failsAs_enter {item : Unit crate × Bool} {entered : Finset (Unit crate)}
    {s : Compiling crate W σ} (hitem : item.1 ∈ cx.unitDependencies)
    (hs : Linked cx.bcx entered s.links) : FailsAs (fun e => (∃ e', e = .work e') ∨
      ∃ e', e = .links e' ∧
        e'.Accounted cx.bcx fun p => ∃ v ∈ insert item.1 entered, v.pkg = p)
      (cx.enter item s) := by
  have hwork : ∀ {α : Type} (x : Except E α), FailsAs (fun e => (∃ e', e = .work e') ∨
      ∃ e', e = .links e' ∧
        e'.Accounted cx.bcx fun p => ∃ v ∈ insert item.1 entered, v.pkg = p)
      (x.mapError CompileError.work) :=
    fun x => FailsAs.mapError (Q := fun _ => True) (fun _ _ => trivial) fun e _ => .inl ⟨e, rfl⟩
  refine (hwork _).bind fun _ _ => ?_
  refine FailsAs.bind ?_ fun _ _ => (hwork _).bind fun _ _ => ?_
  · refine FailsAs.mapError (fun e he => hs.accounted_of_validate he) fun e he => ?_
    exact .inr ⟨e, rfl, he⟩
  · rw [depTargets_eq hitem]
    exact (failsAs_ok _).bind fun _ _ => failsAs_ok _

/-- Leaving a unit does not fail once the units that it depends on have been left. -/
theorem leave_ok {item : Unit crate × Bool} {left : Finset (Unit crate)}
    {s : Compiling crate W σ} (hitem : item.1 ∈ cx.unitDependencies)
    (hs : cx.buildPlan = true → ∀ u ∈ left,
      (s.plan.invocationMap.lookup (cx.buildkey u)).isSome = true)
    (hdeps : ∀ d ∈ cx.deps item.1, d ∈ left) : ∃ s', cx.leave item s = .ok s' := by
  unfold leave
  split_ifs with hplan
  · rw [depTargets_eq hitem]
    have hmap : ∀ d ∈ cx.deps item.1, ((s.plan.invocationMap.insert (cx.buildkey item.1)
        s.plan.invocations.length).lookup (cx.buildkey d)).isSome = true := by
      intro d hd
      by_cases heq : cx.buildkey d = cx.buildkey item.1
      · rw [heq, Finmap.lookup_insert]
        rfl
      · rw [Finmap.lookup_insert_of_ne _ heq]
        exact hs hplan d (hdeps d hd)
    obtain ⟨ids, hids⟩ := exists_mapM_ok fun d hd => position_of_isSome (hmap d hd)
    exact ⟨_, bind_eq_ok.mpr ⟨_, rfl, bind_eq_ok.mpr ⟨_, bind_eq_ok.mpr ⟨ids, hids, rfl⟩, rfl⟩⟩⟩
  · exact ⟨s, rfl⟩

/-- The packages of the units that can be reached. -/
def packages (cx : Context crate R W σ E) (roots : List (Unit crate))
    (p : PackageId (SourceId crate)) : Prop := ∃ u, cx.Compiles roots u ∧ u.pkg = p

/-- With enough fuel the visit fails only if the work of a unit cannot be made, or if there is
something wrong with a native library. -/
theorem failsAs_compile (h : cx.Sound) (hroots : ∀ u ∈ roots, u ∈ cx.unitDependencies) {fuel : ℕ}
    (hfuel : cx.unitDependencies.keys.card ≤ fuel) :
    FailsAs (fun e => (∃ e', e = .work e') ∨
      ∃ e', e = .links e' ∧ e'.Accounted cx.bcx (cx.packages roots))
      (cx.compile fuel roots forceRebuild rest) := by
  have hinv := (visitInvariant_linked h roots).and (visitInvariant_named h roots)
  have hmem : ∀ {item : Unit crate × Bool}, cx.Compiles roots item.1 →
      item.1 ∈ cx.unitDependencies := fun hitem => hitem.mem h hroots
  refine visitAll_failsAs hinv ?_ ?_ (fun item hitem => compiles_of_item hitem) ?_
    ⟨⟨by simp, linked_new⟩, by simp⟩
  · rintro item entered left s hitem ⟨⟨hentered, hlinked⟩, -⟩ -
    refine (failsAs_enter (hmem hitem) hlinked).mono ?_
    rintro e (hwork | ⟨e', rfl, he'⟩)
    · exact .inl hwork
    · refine .inr ⟨e', rfl, he'.mono ?_⟩
      rintro p ⟨v, hv, rfl⟩
      rcases Finset.mem_insert.mp hv with rfl | hv
      · exact ⟨_, hitem, rfl⟩
      · exact ⟨v, hentered v hv, rfl⟩
  · rintro item entered left s hitem ⟨-, hnamed⟩ - hdeps
    obtain ⟨s', hs'⟩ := leave_ok (hmem hitem) hnamed hdeps
    rw [hs']
    exact failsAs_ok s'
  · intro item hitem
    exact (h.height_lt_card (hmem (compiles_of_item hitem))).trans_le hfuel

/-- If making the work of units never fails, and there is nothing wrong with the native libraries,
then the visit succeeds. -/
theorem exists_compile [IsEmpty E] (h : cx.Sound) (hroots : ∀ u ∈ roots, u ∈ cx.unitDependencies)
    (honce : LinksOnce cx.bcx (cx.packages roots)) (forceRebuild : Bool) (rest : σ) :
    ∃ s, cx.compile cx.unitDependencies.keys.card roots forceRebuild rest = .ok s := by
  cases hres : cx.compile cx.unitDependencies.keys.card roots forceRebuild rest with
  | ok s => exact ⟨s, rfl⟩
  | error e =>
    rcases failsAs_compile h hroots le_rfl e hres with ⟨e', -⟩ | ⟨e', -, he'⟩
    · exact isEmptyElim e'
    · exact absurd honce he'.not_linksOnce

end Context

/-- If the visit succeeds, then no native library is linked by two of the packages, and each that
links to one has a build script. If it fails, then the work of a unit could not be made, or the
error is about such a library and says what is wrong with it. The recursion is not too deep, and
all that is looked up is found. -/
theorem compile_links (cx : Context crate R W σ E) (h : cx.Sound) (roots : List (Unit crate))
    (hroots : ∀ u ∈ roots, u ∈ cx.unitDependencies) (forceRebuild : Bool) (rest : σ) (fuel : ℕ)
    (hfuel : cx.unitDependencies.keys.card ≤ fuel) :
    (∀ s, cx.compile fuel roots forceRebuild rest = .ok s →
      LinksOnce cx.bcx (cx.packages roots)) ∧
    ∀ e, cx.compile fuel roots forceRebuild rest = .error e → (∃ e', e = .work e') ∨
      ∃ e', e = .links e' ∧ e'.Accounted cx.bcx (cx.packages roots) := by
  refine ⟨fun s hok => ?_, Context.failsAs_compile h hroots hfuel⟩
  obtain ⟨⟨-, hlinked⟩, hentered⟩ := Context.compile_ok (visitInvariant_linked h roots)
    ⟨by simp, linked_new⟩ hok
  have hpackages : (fun p => ∃ u ∈ s.entered, u.pkg = p) = cx.packages roots := by
    funext p
    simp only [hentered, Context.packages]
  exact hpackages ▸ hlinked.linksOnce

/-- If no two units have the same name, then the plan has each unit that can be reached once, after
all that it depends on, whose positions it gives in order. -/
theorem compile_plan (cx : Context crate R W σ E) (h : cx.Sound) (hplan : cx.buildPlan = true)
    (roots : List (Unit crate)) (hkey : ∀ u d, cx.Compiles roots u → cx.Compiles roots d →
      cx.buildkey u = cx.buildkey d → u = d) (forceRebuild : Bool) (rest : σ) (fuel : ℕ)
    (s : Entered (Compiling crate W σ) (Unit crate))
    (hok : cx.compile fuel roots forceRebuild rest = .ok s) :
    (s.rest.plan.invocations.map Invocation.unit).Nodup ∧
      (∀ u, u ∈ s.rest.plan.invocations.map Invocation.unit ↔ cx.Compiles roots u) ∧
      (∀ u, cx.Compiles roots u → ∃ i,
        s.rest.plan.invocationMap.lookup (cx.buildkey u) = some i ∧ s.rest.plan.At i u) ∧
      ∀ i invocation, s.rest.plan.invocations[i]? = some invocation →
        List.Forall₂ (fun d j => j < i ∧ s.rest.plan.At j d) (cx.deps invocation.unit)
          invocation.deps := by
  obtain ⟨⟨-, hplanned⟩, hentered⟩ := Context.compile_ok
    (visitInvariant_planned h roots hplan hkey) ⟨by simp, planned_new⟩ hok
  refine ⟨hplanned.nodup, fun u => (hplanned.mem u).trans (hentered u), fun u hu => ?_,
    hplanned.deps⟩
  exact hplanned.lookup u ((hentered u).mpr hu)

/-! ### A binary and its library -/

/-- Work is a list of what is done, and making it never fails. -/
def exampleMaker : WorkMaker (.plain fun text => .ok ⟨text⟩) (List String) PUnit.{1} Empty where
  noop := []
  andThen := List.append
  prepareInit _ s := .ok s
  buildWork _ s := .ok (⟨["run"], ["replay"]⟩, s)
  prepareBuildCmd _ s := .ok ((.dirty, ⟨["write fingerprint"], []⟩), s)
  prepareTarget _ s := .ok ((.dirty, ⟨["write fingerprint"], []⟩), s)
  rustc unit s := .ok (["rustc " ++ unit.target.name], s)
  rustdoc unit s := .ok (["rustdoc " ++ unit.target.name], s)
  linkTargets _ fresh s := .ok (if fresh then [] else ["link"], s)
  forceRebuild _ := false

/-- The context for a graph of units, either to run or to plan. -/
noncomputable def exampleCompile (t : SuccTable (Unit (.plain fun text => .ok ⟨text⟩)))
    (buildScriptOverridden : Finset (PackageId (SourceId (.plain fun text => .ok ⟨text⟩)) × Kind))
    (buildPlan : Bool) :
    Context (.plain fun text => .ok ⟨text⟩) (List Version) (List String) PUnit.{1} Empty where
  bcx := exampleContext
  unitDependencies := t
  buildScriptOverridden
  buildkey unit := if unit.target.isLib then "foo-0000000000000001" else "foo-0000000000000002"
  buildPlan
  maker := exampleMaker
  ho := .following [exampleFoo, exampleBar]

/-- The binary of `foo` and the one unit that it depends on. -/
def pairTable (d : Unit (.plain fun text => .ok ⟨text⟩)) :
    SuccTable (Unit (.plain fun text => .ok ⟨text⟩)) :=
  Finmap.insert exampleRoot [d] (Finmap.singleton d [])

/-- The library that the binary of `foo` depends on. -/
def exampleRootLib : Unit (.plain fun text => .ok ⟨text⟩) :=
  { exampleRoot with target := .libTarget "foo" [.lib] [] .edition2015 }

/-- The binary of `foo` and its library. -/
def exampleTable : SuccTable (Unit (.plain fun text => .ok ⟨text⟩)) :=
  pairTable exampleRootLib

theorem exampleRootLib_ne : exampleRootLib ≠ exampleRoot := by
  intro h
  have htarget := congrArg (fun u => u.target.kind) h
  simp [exampleRootLib, exampleRoot, Target.libTarget, Target.binTarget] at htarget

section Pair

variable {u d e : Unit (.plain fun text => .ok ⟨text⟩)}

theorem pairTable_next : Next (pairTable d) u e ↔ u = exampleRoot ∧ e = d := by
  constructor
  · rintro ⟨l, hl, he⟩
    unfold pairTable at hl
    by_cases hroot : u = exampleRoot
    · subst hroot
      rw [Finmap.lookup_insert] at hl
      cases hl
      exact ⟨rfl, List.mem_singleton.mp he⟩
    · rw [Finmap.lookup_insert_of_ne _ hroot] at hl
      by_cases hd : u = d
      · subst hd
        rw [Finmap.lookup_singleton_eq] at hl
        cases hl
        cases he
      · rw [Finmap.lookup_eq_none.mpr (mt (Finmap.mem_singleton _ _ _).mp hd)] at hl
        cases hl
  · rintro ⟨rfl, rfl⟩
    exact ⟨[e], Finmap.lookup_insert _, List.mem_singleton_self e⟩

variable {cx : Context (.plain fun text => .ok ⟨text⟩) (List Version) (List String) PUnit.{1} Empty}

theorem pairTable_root (hcx : cx.unitDependencies = pairTable d) (hu : u ∈ [exampleRoot]) :
    u ∈ cx.unitDependencies := by
  obtain rfl := List.mem_singleton.mp hu
  rw [hcx]
  exact Finmap.mem_insert.mpr (.inl rfl)

theorem pairTable_sound (hcx : cx.unitDependencies = pairTable d) (hne : d ≠ exampleRoot) :
    cx.Sound where
  acyclic := by
    rw [hcx]
    refine acyclic_of_rank (fun u => if u = exampleRoot then 1 else 0) ?_
    intro u e h
    obtain ⟨rfl, rfl⟩ := pairTable_next.mp h
    simp [hne]
  closed u e h := by
    rw [hcx] at h ⊢
    obtain ⟨-, rfl⟩ := pairTable_next.mp h
    exact Finmap.mem_insert.mpr (.inr ((Finmap.mem_singleton _ _ _).mpr rfl))

theorem pairTable_compiles (hcx : cx.unitDependencies = pairTable d)
    (h : cx.Compiles [exampleRoot] u) : u = exampleRoot ∨ u = d := by
  obtain ⟨root, hroot, hpath⟩ := h
  obtain rfl := List.mem_singleton.mp hroot
  rcases hpath.cases_tail with rfl | ⟨v, -, hstep⟩
  · exact .inl rfl
  · exact .inr (pairTable_next.mp (hcx ▸ Context.next_of_mem_deps hstep)).2

end Pair

/-- The library of `bar`. -/
def exampleBarLib : Unit (.plain fun text => .ok ⟨text⟩) :=
  { exampleRoot with pkg := exampleBar, target := .libTarget "bar" [.lib] [] .edition2015 }

/-- The context in which both packages link to the native library `bar`. -/
noncomputable def clashingCompile :
    Context (.plain fun text => .ok ⟨text⟩) (List Version) (List String) PUnit.{1} Empty :=
  { exampleCompile (pairTable exampleBarLib) ∅ false with
    bcx := { exampleContext with
      package id := { exampleContext.package id with links := some "bar" } } }

/-- The binary of `foo` and the library of `bar` link to one native library, which is an error. -/
theorem compile_links_foo : ∃ fuel e,
    clashingCompile.compile fuel [exampleRoot] false ⟨⟩ = .error (.links e) ∧
      e.Accounted clashingCompile.bcx (clashingCompile.packages [exampleRoot]) := by
  have hne : exampleBarLib ≠ exampleRoot := fun h => absurd (congrArg (fun u => u.pkg.name) h) (by
    decide)
  have hsound : clashingCompile.Sound := pairTable_sound rfl hne
  obtain ⟨honce, herror⟩ := compile_links clashingCompile hsound [exampleRoot]
    (fun _ hu => pairTable_root rfl hu) false ⟨⟩ _ le_rfl
  have hfoo : clashingCompile.packages [exampleRoot] exampleFoo :=
    ⟨exampleRoot, ⟨exampleRoot, List.mem_singleton_self _, .refl⟩, rfl⟩
  have hbar : clashingCompile.packages [exampleRoot] exampleBar := by
    refine ⟨exampleBarLib, ⟨exampleRoot, List.mem_singleton_self _, .single ?_⟩, rfl⟩
    exact (Context.mem_deps (by simp [exampleRoot, Target.binTarget, Target.isCustomBuild])).mpr
      (pairTable_next.mpr ⟨rfl, rfl⟩)
  cases hresult : clashingCompile.compile clashingCompile.unitDependencies.keys.card [exampleRoot]
      false ⟨⟩ with
  | ok s =>
    exact absurd ((honce s hresult).once exampleFoo exampleBar hfoo hbar "bar" rfl rfl) (by decide)
  | error e =>
    rcases herror e hresult with ⟨e', -⟩ | ⟨e', rfl, haccounted⟩
    · exact e'.elim
    · exact ⟨_, e', hresult, haccounted⟩

theorem exampleTable_linksOnce (buildPlan : Bool) : LinksOnce exampleContext
    ((exampleCompile exampleTable ∅ buildPlan).packages [exampleRoot]) := by
  have hfoo : ∀ p, (exampleCompile exampleTable ∅ buildPlan).packages [exampleRoot] p →
      p = exampleFoo := by
    rintro p ⟨u, hu, rfl⟩
    rcases pairTable_compiles rfl hu with rfl | rfl <;> rfl
  constructor
  · intro p q hp hq _ _ _
    exact (hfoo p hp).trans (hfoo q hq).symm
  · intro p hp hsome
    rw [hfoo p hp] at hsome
    cases hsome

/-- The plan for the binary of `foo`. -/
theorem compile_plan_foo : ∃ fuel s,
    (exampleCompile exampleTable ∅ true).compile fuel [exampleRoot] false ⟨⟩ = .ok s ∧
    (s.rest.plan.invocations.map Invocation.unit).Nodup ∧
      (∀ u, u ∈ s.rest.plan.invocations.map Invocation.unit ↔
        (exampleCompile exampleTable ∅ true).Compiles [exampleRoot] u) ∧
      (∀ u, (exampleCompile exampleTable ∅ true).Compiles [exampleRoot] u → ∃ i,
        s.rest.plan.invocationMap.lookup ((exampleCompile exampleTable ∅ true).buildkey u) =
          some i ∧ s.rest.plan.At i u) ∧
      ∀ i invocation, s.rest.plan.invocations[i]? = some invocation →
        List.Forall₂ (fun d j => j < i ∧ s.rest.plan.At j d)
          ((exampleCompile exampleTable ∅ true).deps invocation.unit) invocation.deps := by
  have hsound : (exampleCompile exampleTable ∅ true).Sound := pairTable_sound rfl exampleRootLib_ne
  obtain ⟨s, hs⟩ := Context.exists_compile hsound (fun _ hu => pairTable_root rfl hu)
    (exampleTable_linksOnce true) false ⟨⟩
  refine ⟨_, s, hs, compile_plan _ hsound rfl _ ?_ _ _ _ _ hs⟩
  intro u d hu hd hkey
  rcases pairTable_compiles rfl hu with rfl | rfl <;>
    rcases pairTable_compiles rfl hd with rfl | rfl
  · rfl
  · exact absurd hkey (by decide)
  · exact absurd hkey (by decide)
  · rfl

end Cargo.Compiler.UnitDependencies
