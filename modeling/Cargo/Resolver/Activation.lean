import Cargo.Resolver.Requirements
import Cargo.Resolver.Search

/-!
# What activating a package does

One lemma for each function that changes a context, in terms of the packages that are
active, the features recorded and the graph. The proofs about the search use these and
never unfold the functions again.

## Main definitions

* `Context.Added` — the context after a package was put among the activated ones
* `Context.Expanded` — the context after the dependencies of a package were found

## Main results

* `flagActivated_ok`, `resolveFeatures_ok`, `buildDeps_ok` — the functions of the context
* `activate_ok` — the three outcomes of `activate` without a replacement
-/

set_option autoImplicit false

namespace Cargo.Resolver

open Cargo.Core Cargo.Math

variable {S R : Type} [DecidableEq S]

namespace Context

theorem isActive_iff {cx : Context S R} {id : PackageId S} :
    cx.isActive id = true ↔ ∃ s ∈ cx.active id.slot, s.packageId = id := by
  simp [isActive]

/-- `cx'` is `cx` with `s`, which was not active, among the activated packages. -/
structure Added (cx : Context S R) (s : Summary S R) (cx' : Context S R) : Prop where
  inactive : cx.isActive s.packageId = false
  active : ∀ slot, cx'.active slot =
    if slot = s.packageId.slot then cx.active slot ++ [s] else cx.active slot
  links_free : ∀ link, s.links = some link → cx.links.lookup link = none
  links : ∀ link, cx'.links.lookup link =
    if s.links = some link then some s.packageId else cx.links.lookup link
  graph : cx'.resolveGraph = .add s.packageId :: cx.resolveGraph
  features : cx'.features = cx.features
  replacements : cx'.resolveReplacements = cx.resolveReplacements

/-- `flagActivated` leaves an active package alone and adds any other. -/
theorem flagActivated_ok {cx cx' : Context S R} {s : Summary S R} {method : Method} {b : Bool}
    (h : cx.flagActivated s method = .ok (b, cx')) :
    (cx.isActive s.packageId = true ∧ b = cx.alreadyActivated s method ∧ cx' = cx) ∨
      (b = false ∧ Added cx s cx') := by
  unfold flagActivated at h
  simp only at h
  split at h
  · rename_i hactive
    cases h
    exact Or.inl ⟨hactive, rfl, rfl⟩
  · rename_i hactive
    have hinactive : cx.isActive s.packageId = false := Bool.eq_false_iff.mpr hactive
    -- the package is put into its slot, and the other slots are as before
    have hactive' : ∀ slot, ((cx.activations.insert s.packageId.slot
        (cx.active s.packageId.slot ++ [s])).lookup slot).getD [] =
        if slot = s.packageId.slot then cx.active slot ++ [s] else cx.active slot := by
      intro slot
      split
      · rename_i hslot
        subst hslot
        simp
      · rename_i hslot
        simp [active, Finmap.lookup_insert_of_ne _ hslot]
    split at h
    · rename_i hlinks
      cases h
      refine Or.inr ⟨rfl, hinactive, hactive', by simp [hlinks], ?_, rfl, rfl, rfl⟩
      intro link
      simp [hlinks]
    · rename_i link hlinks
      split at h
      · cases h
      · rename_i hfree
        cases h
        refine Or.inr ⟨rfl, hinactive, hactive', ?_, ?_, rfl, rfl, rfl⟩
        · intro link' hlink'
          rw [hlinks] at hlink'
          cases hlink'
          exact hfree
        · intro link'
          by_cases hl : link' = link
          · subst hl
            simp [hlinks]
          · simp [hlinks, Finmap.lookup_insert_of_ne _ hl, Ne.symm hl]

theorem Added.isActive {cx cx' : Context S R} {s : Summary S R} (h : Added cx s cx')
    (id : PackageId S) : cx'.isActive id = true ↔ cx.isActive id = true ∨ id = s.packageId := by
  rw [isActive_iff, isActive_iff, h.active]
  split
  · simp only [List.mem_append, List.mem_singleton]
    constructor
    · rintro ⟨t, ht | rfl, hid⟩
      · exact Or.inl ⟨t, ht, hid⟩
      · exact Or.inr hid.symm
    · rintro (⟨t, ht, hid⟩ | rfl)
      · exact ⟨t, Or.inl ht, hid⟩
      · exact ⟨s, Or.inr rfl, rfl⟩
  · rename_i hslot
    constructor
    · exact Or.inl
    · rintro (hactive | rfl)
      · exact hactive
      · exact absurd rfl hslot

end Context

/-! ### The dependencies that are enabled -/

omit [DecidableEq S] in
/-- What one turn of the loop over dependencies adds. -/
theorem enableDep_ok {s : Summary S R} {reqs : Requirements} {acc acc' : Enabled S R}
    {dep : Dependency S R} (h : enableDep s reqs acc dep = .ok acc') :
    (dep.optional = true ∧ dep.nameInToml ∉ reqs.deps ∧ acc' = acc) ∨
      ((dep.optional = true → dep.nameInToml ∈ reqs.deps) ∧
        acc'.usedFeatures = insert dep.nameInToml acc.usedFeatures ∧
        acc'.ret = acc.ret ++ [(dep, (reqs.entry dep.nameInToml).2 ++ dep.features)] ∧
        ∀ f ∈ (reqs.entry dep.nameInToml).2 ++ dep.features, '/' ∉ f.toList) := by
  unfold enableDep at h
  split at h
  · rename_i hskip
    cases h
    exact Or.inl ⟨hskip.1, hskip.2, rfl⟩
  · rename_i hskip
    simp only at h
    split at h
    · cases h
    · rename_i hfind
      cases h
      refine Or.inr ⟨fun ho => ?_, rfl, rfl, ?_⟩
      · by_contra hnot
        exact hskip ⟨ho, hnot⟩
      · intro f hf
        have := List.find?_eq_none.mp hfind f hf
        simpa using this

omit [DecidableEq S] in
/-- What the loop over dependencies collects. -/
theorem foldlM_enableDep_ok {s : Summary S R} {reqs : Requirements} {acc acc' : Enabled S R}
    {deps : List (Dependency S R)} (h : deps.foldlM (enableDep s reqs) acc = .ok acc')
    (hret : acc.ret = []) (hused : acc.usedFeatures = ∅) :
    (∀ e, e ∈ acc'.ret ↔ ∃ d ∈ deps, (d.optional = true → d.nameInToml ∈ reqs.deps) ∧
        e = (d, (reqs.entry d.nameInToml).2 ++ d.features)) ∧
      (∀ n, n ∈ acc'.usedFeatures ↔ ∃ d ∈ deps,
        (d.optional = true → d.nameInToml ∈ reqs.deps) ∧ d.nameInToml = n) ∧
      ∀ e ∈ acc'.ret, ∀ f ∈ e.2, '/' ∉ f.toList := by
  refine foldlM_ok_induction
    (P := fun pre (a : Enabled S R) =>
      (∀ e, e ∈ a.ret ↔ ∃ d ∈ pre, (d.optional = true → d.nameInToml ∈ reqs.deps) ∧
        e = (d, (reqs.entry d.nameInToml).2 ++ d.features)) ∧
      (∀ n, n ∈ a.usedFeatures ↔ ∃ d ∈ pre,
        (d.optional = true → d.nameInToml ∈ reqs.deps) ∧ d.nameInToml = n) ∧
      ∀ e ∈ a.ret, ∀ f ∈ e.2, '/' ∉ f.toList) h (by simp [hret, hused]) ?_
  intro pre d post a a' _ ⟨hret, hused, hslash⟩ hstep
  rcases enableDep_ok hstep with ⟨hoptional, hnot, rfl⟩ | ⟨henabled, hused', hret', hslash'⟩
  -- an optional dependency that nothing turns on is skipped
  · refine ⟨?_, ?_, hslash⟩
    · intro e
      rw [hret]
      grind
    · intro n
      rw [hused]
      grind
  · refine ⟨?_, ?_, ?_⟩
    · intro e
      rw [hret', List.mem_append, hret]
      grind
    · intro n
      rw [hused', Finset.mem_insert, hused]
      grind
    · intro e he
      rw [hret'] at he
      rcases List.mem_append.mp he with he | he
      · exact hslash e he
      · obtain rfl := List.mem_singleton.mp he
        exact hslash'

namespace Context

/-- Only what is said is different between the contexts. -/
structure SameButFeatures (cx cx' : Context S R) : Prop where
  activations : cx'.activations = cx.activations
  links : cx'.links = cx.links
  graph : cx'.resolveGraph = cx.resolveGraph
  replacements : cx'.resolveReplacements = cx.resolveReplacements

theorem SameButFeatures.active {cx cx' : Context S R} (h : SameButFeatures cx cx') :
    cx'.active = cx.active := by
  funext slot
  simp [Context.active, h.activations]

theorem SameButFeatures.isActive {cx cx' : Context S R} (h : SameButFeatures cx cx') :
    cx'.isActive = cx.isActive := by
  funext id
  simp [Context.isActive, h.active]

/-- `cx'` is `cx` after the requirements `reqs` of `s` were recorded, and `infos` are the
dependencies they enable. -/
structure Expanded (registry : RegistryQueryer S R) (s : Summary S R) (method : Method)
    (reqs : Requirements) (cx cx' : Context S R) (infos : List (DepInfo S R)) : Prop where
  reqs_eq : buildRequirements s method = .ok reqs
  same : SameButFeatures cx cx'
  features : ∀ id, cx'.features id =
    if id = s.packageId then cx.features id ∪ reqs.used else cx.features id
  named : ∀ n ∈ reqs.deps, ∃ d ∈ s.dependencies, d.nameInToml = n
  mem_infos : ∀ info, info ∈ infos ↔ ∃ d ∈ s.dependencies,
    (d.isTransitive = true ∨ method.devDeps = true) ∧
    (d.optional = true → d.nameInToml ∈ reqs.deps) ∧ info.dep = d ∧
    info.features = (reqs.entry d.nameInToml).2 ++ d.features ∧
    registry.query d = .ok info.candidates
  queried : ∀ d ∈ s.dependencies, (d.isTransitive = true ∨ method.devDeps = true) →
    (d.optional = true → d.nameInToml ∈ reqs.deps) →
    ∃ candidates, registry.query d = .ok candidates
  no_slash : ∀ info ∈ infos, ∀ f ∈ info.features, '/' ∉ f.toList

/-- A candidate that lacks features asked of it is blamed on the parent. -/
structure Lacking (s : Summary S R) (method : Method) (parent : Option (Summary S R))
    (cx cx' : Context S R) (id : PackageId S) : Prop where
  parent : ∃ p, parent = some p ∧ id = p.packageId
  same : SameButFeatures cx cx'
  features : cx'.features = cx.features
  lacking : ∃ reqs, buildRequirements s method = .ok reqs ∧ ∃ n ∈ reqs.deps,
    ∀ d ∈ s.dependencies, (d.isTransitive = true ∨ method.devDeps = true) → d.nameInToml ≠ n

theorem resolveFeatures_ok {ho : SetOrder String} {cx cx' : Context S R}
    {parent : Option (Summary S R)} {s : Summary S R} {method : Method}
    {out : Except (PackageId S × ConflictReason) (List (Dependency S R × List String))}
    (h : cx.resolveFeatures ho parent s method = .ok (cx', out)) :
    (∃ id reason, out = .error (id, reason) ∧ Lacking s method parent cx cx' id) ∨
    ∃ reqs ret, out = .ok ret ∧ buildRequirements s method = .ok reqs ∧
      SameButFeatures cx cx' ∧
      (∀ id, cx'.features id =
        if id = s.packageId then cx.features id ∪ reqs.used else cx.features id) ∧
      (∀ n ∈ reqs.deps, ∃ d ∈ s.dependencies, d.nameInToml = n) ∧
      (∀ e, e ∈ ret ↔ ∃ d ∈ s.dependencies, (d.isTransitive = true ∨ method.devDeps = true) ∧
        (d.optional = true → d.nameInToml ∈ reqs.deps) ∧
        e = (d, (reqs.entry d.nameInToml).2 ++ d.features)) ∧
      ∀ e ∈ ret, ∀ f ∈ e.2, '/' ∉ f.toList := by
  obtain ⟨reqs, hreqs, h⟩ := bind_eq_ok.mp h
  obtain ⟨enabled, henabled, h⟩ := bind_eq_ok.mp h
  obtain ⟨hret, hused, hslash⟩ := foldlM_enableDep_ok henabled rfl rfl
  simp only [List.mem_filter, Bool.or_eq_true] at hret hused
  -- a feature that names no dependency is left over, which only the parent can be blamed for
  by_cases hremaining : (ho.enum reqs.deps.keys).filter (· ∉ enabled.usedFeatures) ≠ []
  · simp only [if_pos hremaining] at h
    cases parent with
    | none => cases h
    | some p =>
      cases h
      refine Or.inl ⟨p.packageId, _, rfl, ⟨p, rfl, rfl⟩, ⟨rfl, rfl, rfl, rfl⟩, rfl, reqs, hreqs, ?_⟩
      obtain ⟨n, hn⟩ := List.exists_mem_of_ne_nil _ hremaining
      simp only [List.mem_filter, SetOrder.mem_enum, Finmap.mem_keys, decide_eq_true_eq,
        hused] at hn
      refine ⟨n, hn.1, ?_⟩
      rintro d hd hwanted rfl
      exact hn.2 ⟨d, ⟨hd, hwanted⟩, fun _ => hn.1, rfl⟩
  · simp only [if_neg hremaining] at h
    have hnamed : ∀ n ∈ reqs.deps, ∃ d ∈ s.dependencies, d.nameInToml = n := by
      intro n hn
      by_contra hnone
      refine hremaining (List.ne_nil_of_mem (a := n) ?_)
      simp only [List.mem_filter, SetOrder.mem_enum, Finmap.mem_keys, decide_eq_true_eq, hused]
      refine ⟨hn, ?_⟩
      rintro ⟨d, ⟨hd, -⟩, -, hname⟩
      exact hnone ⟨d, hd, hname⟩
    have hret' : ∀ e, e ∈ enabled.ret ↔ ∃ d ∈ s.dependencies,
        (d.isTransitive = true ∨ method.devDeps = true) ∧
        (d.optional = true → d.nameInToml ∈ reqs.deps) ∧
        e = (d, (reqs.entry d.nameInToml).2 ++ d.features) := by
      intro e
      rw [hret]
      constructor
      · rintro ⟨d, ⟨hd, hwanted⟩, henabled, he⟩
        exact ⟨d, hd, hwanted, henabled, he⟩
      · rintro ⟨d, hd, hwanted, henabled, he⟩
        exact ⟨d, ⟨hd, hwanted⟩, henabled, he⟩
    split at h
    · rename_i hempty
      cases h
      refine Or.inr ⟨reqs, _, rfl, hreqs, ⟨rfl, rfl, rfl, rfl⟩, ?_, hnamed, hret', hslash⟩
      intro id
      simp [hempty, Context.features]
    · cases h
      refine Or.inr ⟨reqs, _, rfl, hreqs, ⟨rfl, rfl, rfl, rfl⟩, ?_, hnamed, hret', hslash⟩
      intro id
      by_cases hid : id = s.packageId
      · subst hid
        simp [Context.features]
      · simp [Context.features, Finmap.lookup_insert_of_ne _ hid, hid]

theorem buildDeps_ok {ho : SetOrder String} {registry : RegistryQueryer S R}
    {cx cx' : Context S R} {parent : Option (Summary S R)} {s : Summary S R} {method : Method}
    {out : Except (PackageId S × ConflictReason) (List (DepInfo S R))}
    (h : cx.buildDeps ho registry parent s method = .ok (cx', out)) :
    (∃ id reason, out = .error (id, reason) ∧ Lacking s method parent cx cx' id) ∨
    ∃ reqs infos, out = .ok infos ∧ Expanded registry s method reqs cx cx' infos := by
  obtain ⟨⟨cx'', out'⟩, hresolve, h⟩ := bind_eq_ok.mp h
  rcases resolveFeatures_ok hresolve with ⟨id, reason, rfl, hlacking⟩ |
    ⟨reqs, ret, rfl, hreqs, hsame, hfeatures, hnamed, hret, hslash⟩
  · cases h
    exact Or.inl ⟨id, reason, rfl, hlacking⟩
  · obtain ⟨infos, hinfos, h⟩ := bind_eq_ok.mp h
    cases h
    -- sorting by the number of candidates changes the order only
    have hmem : ∀ info, info ∈ infos.insertionSort
        (fun a b => a.candidates.length ≤ b.candidates.length) ↔ ∃ e ∈ ret,
          registry.query e.1 = .ok info.candidates ∧ info.dep = e.1 ∧ info.features = e.2 := by
      intro info
      rw [List.mem_insertionSort, mem_of_mapM_ok hinfos]
      constructor
      · rintro ⟨e, he, hinfo⟩
        obtain ⟨candidates, hquery, hinfo⟩ := bind_eq_ok.mp hinfo
        cases hinfo
        exact ⟨e, he, hquery, rfl, rfl⟩
      · rintro ⟨e, he, hquery, hdep, hfeat⟩
        refine ⟨e, he, ?_⟩
        rw [hquery]
        obtain ⟨dep, candidates, features⟩ := info
        simp_all [bind, Except.bind]
    refine Or.inr ⟨reqs, _, rfl, hreqs, hsame, hfeatures, hnamed, ?_, ?_, ?_⟩
    · intro info
      rw [hmem]
      constructor
      · rintro ⟨e, he, hquery, hdep, hfeat⟩
        obtain ⟨d, hd, hwanted, henabled, rfl⟩ := (hret e).mp he
        exact ⟨d, hd, hwanted, henabled, hdep, hfeat, hquery⟩
      · rintro ⟨d, hd, hwanted, henabled, hdep, hfeat, hquery⟩
        exact ⟨_, (hret _).mpr ⟨d, hd, hwanted, henabled, rfl⟩, hquery, hdep, hfeat⟩
    · intro d hd hwanted henabled
      have hmem' := (hret _).mpr ⟨d, hd, hwanted, henabled, rfl⟩
      obtain ⟨info, -, hinfo⟩ := exists_of_mapM_ok hinfos hmem'
      obtain ⟨candidates, hquery, -⟩ := bind_eq_ok.mp hinfo
      exact ⟨candidates, hquery⟩
    · intro info hinfo
      obtain ⟨e, he, -, -, hfeat⟩ := (hmem info).mp hinfo
      rw [hfeat]
      exact hslash e he

/-- A dependency that is wanted and enabled is among those found. -/
theorem Expanded.exists_info {registry : RegistryQueryer S R} {s : Summary S R} {method : Method}
    {reqs : Requirements} {cx cx' : Context S R} {infos : List (DepInfo S R)}
    (h : Expanded registry s method reqs cx cx' infos) {d : Dependency S R}
    (hd : d ∈ s.dependencies) (hwanted : d.isTransitive = true ∨ method.devDeps = true)
    (henabled : d.optional = true → d.nameInToml ∈ reqs.deps) :
    ∃ info ∈ infos, info.dep = d ∧ info.features = (reqs.entry d.nameInToml).2 ++ d.features := by
  obtain ⟨candidates, hquery⟩ := h.queried d hd hwanted henabled
  refine ⟨⟨d, candidates, (reqs.entry d.nameInToml).2 ++ d.features⟩, ?_, rfl, rfl⟩
  exact (h.mem_infos _).mpr ⟨d, hd, hwanted, henabled, rfl, rfl, hquery⟩

end Context

/-! ### Activation -/

open Context

/-- The context after `s` was flagged: it was active and lacked something asked for, or it
is new. -/
def Flagged (cx : Context S R) (s : Summary S R) (method : Method) (cx' : Context S R) : Prop :=
  (cx.isActive s.packageId = true ∧ cx.alreadyActivated s method = false ∧ cx' = cx) ∨
    Added cx s cx'

/-- The outcomes of activating a candidate that nothing replaces. -/
theorem activate_ok {env : Env S R} {cx cx' : Context S R}
    {parent : Option (Summary S R × Dependency S R)} {candidate : Candidate S R}
    {method : Method} {out : Activation S R}
    (h : activate env cx parent candidate method = .ok (cx', out))
    (hreplace : candidate.replace = none) :
    (out = .already ∧ (cx.link parent candidate).isActive candidate.summary.packageId = true ∧
      (cx.link parent candidate).alreadyActivated candidate.summary method = true ∧
      cx' = cx.link parent candidate) ∨
    (∃ mid reqs infos, Flagged (cx.link parent candidate) candidate.summary method mid ∧
      Expanded env.registry candidate.summary method reqs mid cx' infos ∧
      out = .frame ⟨candidate.summary, false, infos⟩) ∨
    (∃ mid id reason, Flagged (cx.link parent candidate) candidate.summary method mid ∧
      Lacking candidate.summary method (parent.map Prod.fst) mid cx' id ∧
      out = .conflict id reason) := by
  obtain ⟨⟨activated, mid⟩, hflag, h⟩ := bind_eq_ok.mp h
  simp only [hreplace] at h
  split at h
  · rename_i hactivated
    cases h
    subst hactivated
    rcases flagActivated_ok hflag with ⟨hactive, hall, rfl⟩ | ⟨hfalse, -⟩
    · exact Or.inl ⟨rfl, hactive, hall.symm, rfl⟩
    · cases hfalse
  · rename_i hactivated
    have hflagged : Flagged (cx.link parent candidate) candidate.summary method mid := by
      rcases flagActivated_ok hflag with ⟨hactive, hall, rfl⟩ | ⟨-, hadded⟩
      · exact Or.inl ⟨hactive, hall ▸ Bool.eq_false_iff.mpr hactivated, rfl⟩
      · exact Or.inr hadded
    obtain ⟨⟨cx'', out'⟩, hbuild, h⟩ := bind_eq_ok.mp h
    rcases buildDeps_ok hbuild with ⟨id, reason, rfl, hlacking⟩ | ⟨reqs, infos, rfl, hexp⟩
    · cases h
      exact Or.inr (Or.inr ⟨mid, id, reason, hflagged, hlacking, rfl⟩)
    · cases h
      exact Or.inr (Or.inl ⟨mid, reqs, infos, hflagged, hexp, rfl⟩)

end Cargo.Resolver
