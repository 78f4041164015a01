import Cargo.Resolver.Invariant
import Cargo.Resolver.Resolve

/-!
# Soundness of resolution

Whatever `resolve` returns is a solution: every enabled dependency of every package has an
edge to a package that fulfils it, no two packages of one name and source have compatible
versions, `links` values are not shared, every package is reachable from a root, and every
feature asked for along an edge is recorded for the child.

The invariant `Sound` says the same of the search half-way, with what is still missing
listed as pending.

## Main definitions

* `Known`, `Registered`, `Universe` — the summaries that a search can meet, and what is
  assumed of them
* `EnabledIn`, `FeatureAsked` — what recorded features turn on and ask for
* `Sound` — the invariant of the search
* `SoundResolve` — what resolution promises

## Main results

* `Sound.already`, `Sound.expanded` — activation keeps the invariant
* `resolve_sound` — every graph that `resolve` returns is sound
-/

set_option autoImplicit false

namespace Cargo.Resolver

open Cargo.Core Cargo.Math Relation

variable {S R : Type} [DecidableEq S] [VersionReq R]

/-! ### What is enabled -/

/-- `d` counts as a dependency of `s`: it is not a development dependency, or `s` is a root
whose method asks for those. -/
def Wanted (roots : List (Summary S R × Method)) (s : Summary S R) (d : Dependency S R) : Prop :=
  d.isTransitive = true ∨
    ∃ root ∈ roots, root.1.packageId = s.packageId ∧ root.2.devDeps = true

/-- The features `feats` of `s` turn the optional dependency `d` on. -/
def TurnedOn (s : Summary S R) (feats : Finset String) (d : Dependency S R) : Prop :=
  d.nameInToml ∈ feats ∨ ∃ f ∈ feats, ∃ values, s.features.lookup f = some values ∧
    (.crate d.nameInToml ∈ values ∨ ∃ g, .crateFeature d.nameInToml g ∈ values)

/-- With the features `feats` recorded for it, `s` needs `d`. -/
def EnabledIn (roots : List (Summary S R × Method)) (s : Summary S R) (feats : Finset String)
    (d : Dependency S R) : Prop :=
  d ∈ s.dependencies ∧ Wanted roots s d ∧ (d.optional = true → TurnedOn s feats d)

/-- One of the features `feats` of `s` asks for the feature `g` of the dependency named
`n`. -/
def FeatureAsked (s : Summary S R) (feats : Finset String) (n g : String) : Prop :=
  ∃ f ∈ feats, ∃ values, s.features.lookup f = some values ∧ .crateFeature n g ∈ values

/-- The method of a root asks, itself or through a feature of the root, for the feature `g`
of its dependency named `n`. -/
def RootAsks (root : Summary S R × Method) (n g : String) : Prop :=
  ∃ reqs flag fs, buildRequirements root.1 root.2 = .ok reqs ∧
    reqs.deps.lookup n = some (flag, fs) ∧ g ∈ fs

/-- The package `q` fulfils `d`. -/
def Fulfils (d : Dependency S R) (q : PackageId S) : Prop :=
  q.name = d.name ∧ q.sourceId = d.sourceId ∧ VersionReq.accepts d.req q.version = true

/-! ### What the search can meet -/

/-- The summaries of the registry and of the roots. -/
def Known (env : Env S R) (roots : List (Summary S R × Method)) (s : Summary S R) : Prop :=
  (∃ root ∈ roots, root.1 = s) ∨
    ∃ dep summaries, env.registry.registry dep = .ok summaries ∧ s ∈ summaries

/-- What is assumed of a registry and of the summaries in `U`: it answers with summaries in
`U` that fulfil the question, a package id names one summary, and nothing is replaced. -/
structure Registered (env : Env S R) (U : Summary S R → Prop) : Prop where
  coherent : ∀ s t, U s → U t → s.packageId = t.packageId → s = t
  registry : ∀ dep summaries, env.registry.registry dep = .ok summaries →
    ∀ s ∈ summaries, U s ∧ Fulfils dep s.packageId
  replacements : env.registry.replacements = []

/-- In addition, features are not namespaced. -/
structure Universe (env : Env S R) (U : Summary S R → Prop) : Prop extends Registered env U where
  plain : ∀ s, U s → s.namespacedFeatures = false

/-- The candidates for a dependency are the registry's summaries. -/
theorem Registered.candidate {env : Env S R} {U : Summary S R → Prop} (hU : Registered env U)
    {dep : Dependency S R} {candidates : List (Candidate S R)}
    (h : env.registry.query dep = .ok candidates) {c : Candidate S R} (hc : c ∈ candidates) :
    U c.summary ∧ Fulfils dep c.summary.packageId ∧ c.replace = none := by
  obtain ⟨summaries, hregistry, hs, hreplace⟩ := RegistryQueryer.mem_query h hc
  obtain ⟨hUs, hfulfils⟩ := hU.registry dep summaries hregistry _ hs
  rw [RegistryQueryer.override_of_nil hU.replacements] at hreplace
  exact ⟨hUs, hfulfils, (Except.ok.inj hreplace).symm⟩

/-! ### The invariant -/

/-- One package is linked to another. -/
def Linked (cx : Context S R) (p q : PackageId S) : Prop :=
  ∃ d, GraphNode.link p q d ∈ cx.resolveGraph

/-- The edge from `p` to `q` for `d` is in order, and `q` has the features it asks for. -/
def LinkOk (cx : Context S R) (p q : PackageId S) (d : Dependency S R) : Prop :=
  ∃ ps qs, ps ∈ cx.active p.slot ∧ ps.packageId = p ∧ qs ∈ cx.active q.slot ∧ qs.packageId = q ∧
    d ∈ ps.dependencies ∧ Fulfils d q ∧
    (∀ f ∈ d.features, f ≠ "" → f ∈ cx.features q) ∧
    (d.defaultFeatures = true → "default" ∈ qs.features → "default" ∈ cx.features q)

/-- The dependency `d` of `s` has an edge, or is still to be activated. -/
def Covered (cx : Context S R) (pending : Pending S R) (s : Summary S R) (d : Dependency S R) :
    Prop :=
  (∃ q, GraphNode.link s.packageId q d ∈ cx.resolveGraph) ∨
    ∃ info, (s, info) ∈ pending ∧ info.dep = d

/-- The feature `g` asked of `d` by `s` is recorded at the end of an edge for `d`, or will
be asked for. -/
def AskedFor (cx : Context S R) (pending : Pending S R) (s : Summary S R) (d : Dependency S R)
    (g : String) : Prop :=
  (∃ q, GraphNode.link s.packageId q d ∈ cx.resolveGraph ∧ g ∈ cx.features q) ∨
    ∃ info, (s, info) ∈ pending ∧ info.dep = d ∧ g ∈ info.features

/-- The search half-way: `cx` solves everything but what is pending. -/
structure Sound (env : Env S R) (U : Summary S R → Prop) (roots : List (Summary S R × Method))
    (cx : Context S R) (pending : Pending S R) : Prop where
  known : ∀ slot, ∀ s ∈ cx.active slot, U s
  slot : ∀ slot, ∀ s ∈ cx.active slot, s.packageId.slot = slot
  semver : ∀ slot, ∀ s ∈ cx.active slot, ∀ t ∈ cx.active slot,
    compatible s.packageId.version t.packageId.version = true → s.packageId = t.packageId
  links : ∀ slot, ∀ s ∈ cx.active slot, ∀ link, s.links = some link →
    cx.links.lookup link = some s.packageId
  add_iff : ∀ id, GraphNode.add id ∈ cx.resolveGraph ↔ cx.isActive id = true
  link_ok : ∀ p q d, GraphNode.link p q d ∈ cx.resolveGraph → LinkOk cx p q d
  reach : ∀ id, cx.isActive id = true →
    ∃ root ∈ roots, ReflTransGen (Linked cx) root.1.packageId id
  root_active : ∀ root ∈ roots, root.1 ∈ cx.active root.1.packageId.slot
  inactive : ∀ id, cx.isActive id = false → cx.features id = ∅
  closed : ∀ slot, ∀ s ∈ cx.active slot, ∀ f ∈ cx.features s.packageId, ∀ values,
    s.features.lookup f = some values → ∀ n,
    (.crate n ∈ values ∨ ∃ g, .crateFeature n g ∈ values) → n ∈ cx.features s.packageId
  covered : ∀ slot, ∀ s ∈ cx.active slot, ∀ d ∈ s.dependencies, Wanted roots s d →
    (d.optional = true → d.nameInToml ∈ cx.features s.packageId) → Covered cx pending s d
  asked : ∀ slot, ∀ s ∈ cx.active slot, ∀ d ∈ s.dependencies, d.isTransitive = true →
    ∀ g, g ≠ "" → FeatureAsked s (cx.features s.packageId) d.nameInToml g →
    AskedFor cx pending s d g
  root_asked : ∀ root ∈ roots, ∀ d ∈ root.1.dependencies, Wanted roots root.1 d →
    ∀ g, g ≠ "" → RootAsks root d.nameInToml g → AskedFor cx pending root.1 d g
  pending_ok : ∀ e ∈ pending, e.1 ∈ cx.active e.1.packageId.slot ∧ e.2.dep ∈ e.1.dependencies ∧
    (∀ f ∈ e.2.dep.features, f ∈ e.2.features) ∧ (∀ f ∈ e.2.features, '/' ∉ f.toList) ∧
    env.registry.query e.2.dep = .ok e.2.candidates

/-! ### Activation keeps the invariant -/

/-- How a successful activation of `s` changes a context: `s` is active, the nodes `edges`
are new, and `used` is recorded for `s`. -/
structure Changed (cx cx' : Context S R) (s : Summary S R) (edges : List (GraphNode S R))
    (used : Finset String) : Prop where
  mem_active : ∀ slot t, t ∈ cx'.active slot ↔
    t ∈ cx.active slot ∨ slot = s.packageId.slot ∧ t = s
  links : ∀ slot, ∀ t ∈ cx'.active slot, ∀ link, t.links = some link →
    cx'.links.lookup link = some t.packageId
  graph : ∀ node, node ∈ cx'.resolveGraph ↔
    node ∈ cx.resolveGraph ∨ node ∈ edges ∨ node = .add s.packageId
  features : ∀ id, cx'.features id =
    if id = s.packageId then cx.features id ∪ used else cx.features id

section Changed

variable {env : Env S R} {U : Summary S R → Prop} {roots roots' : List (Summary S R × Method)}
  {cx cx' : Context S R} {pending pending' : Pending S R} {s : Summary S R}
  {edges : List (GraphNode S R)} {used : Finset String}

omit [VersionReq R] in
theorem Changed.features_mono (hc : Changed cx cx' s edges used) (id : PackageId S) :
    cx.features id ⊆ cx'.features id := by
  rw [hc.features]
  split
  · exact Finset.subset_union_left
  · exact subset_rfl

omit [VersionReq R] in
theorem Changed.isActive (hc : Changed cx cx' s edges used) (id : PackageId S) :
    cx'.isActive id = true ↔ cx.isActive id = true ∨ id = s.packageId := by
  simp only [Context.isActive_iff, hc.mem_active]
  constructor
  · rintro ⟨t, ht | ⟨-, rfl⟩, hid⟩
    · exact Or.inl ⟨t, ht, hid⟩
    · exact Or.inr hid.symm
  · rintro (⟨t, ht, hid⟩ | rfl)
    · exact ⟨t, Or.inl ht, hid⟩
    · exact ⟨s, Or.inr ⟨rfl, rfl⟩, rfl⟩

/-- What was pending is pending still, or was dealt with by an edge to `s`. -/
def Moves (cx' : Context S R) (s : Summary S R) (edges : List (GraphNode S R))
    (pending pending' : Pending S R) : Prop :=
  ∀ e ∈ pending, e ∈ pending' ∨
    (GraphNode.link e.1.packageId s.packageId e.2.dep ∈ edges ∧
      ∀ g ∈ e.2.features, g ≠ "" → g ∈ cx'.features s.packageId)

omit [VersionReq R] in
theorem Covered.mono (hc : Changed cx cx' s edges used)
    (hmoves : Moves cx' s edges pending pending') {t : Summary S R} {d : Dependency S R}
    (h : Covered cx pending t d) : Covered cx' pending' t d := by
  rcases h with ⟨q, hq⟩ | ⟨info, hinfo, rfl⟩
  · exact Or.inl ⟨q, (hc.graph _).mpr (Or.inl hq)⟩
  · rcases hmoves _ hinfo with hmem | ⟨hedge, -⟩
    · exact Or.inr ⟨info, hmem, rfl⟩
    · exact Or.inl ⟨s.packageId, (hc.graph _).mpr (Or.inr (Or.inl hedge))⟩

omit [VersionReq R] in
theorem AskedFor.mono (hc : Changed cx cx' s edges used)
    (hmoves : Moves cx' s edges pending pending') {t : Summary S R} {d : Dependency S R}
    {g : String} (hg : g ≠ "") (h : AskedFor cx pending t d g) : AskedFor cx' pending' t d g := by
  rcases h with ⟨q, hq, hfeat⟩ | ⟨info, hinfo, rfl, hfeat⟩
  · exact Or.inl ⟨q, (hc.graph _).mpr (Or.inl hq), hc.features_mono q hfeat⟩
  · rcases hmoves _ hinfo with hmem | ⟨hedge, hrecorded⟩
    · exact Or.inr ⟨info, hmem, rfl, hfeat⟩
    · exact Or.inl ⟨s.packageId, (hc.graph _).mpr (Or.inr (Or.inl hedge)), hrecorded g hfeat hg⟩

theorem LinkOk.mono (hc : Changed cx cx' s edges used) {p q : PackageId S} {d : Dependency S R}
    (h : LinkOk cx p q d) : LinkOk cx' p q d := by
  obtain ⟨ps, qs, hps, hp, hqs, hq, hd, hfulfils, hfeat, hdefault⟩ := h
  exact ⟨ps, qs, (hc.mem_active _ _).mpr (Or.inl hps), hp, (hc.mem_active _ _).mpr (Or.inl hqs), hq,
    hd, hfulfils, fun f hf hne => hc.features_mono q (hfeat f hf hne),
    fun hd hq' => hc.features_mono q (hdefault hd hq')⟩

/-- The invariant after a change. What the change adds for `s` itself is left to the
caller; everything else carries over. -/
theorem Sound.changed (hU : Universe env U) (h : Sound env U roots cx pending)
    (hc : Changed cx cx' s edges used) (hmoves : Moves cx' s edges pending pending')
    (hknown : U s)
    (hsemver : ∀ t ∈ cx.active s.packageId.slot,
      compatible t.packageId.version s.packageId.version = true → t.packageId = s.packageId)
    (hedges : ∀ node ∈ edges, ∃ p d, node = .link p s.packageId d ∧ cx.isActive p = true ∧
      LinkOk cx' p s.packageId d)
    (hsub : ∀ root ∈ roots, root ∈ roots')
    (hsuper : ∀ root ∈ roots', root ∈ roots ∨ root.1 = s)
    (hreached : cx.isActive s.packageId = true ∨ (∃ root ∈ roots', root.1 = s) ∨
      ∃ p d, GraphNode.link p s.packageId d ∈ edges)
    (hclosed : ∀ f ∈ used, ∀ values, s.features.lookup f = some values → ∀ n,
      (.crate n ∈ values ∨ ∃ g, .crateFeature n g ∈ values) → n ∈ used)
    (hwanted : ∀ t, t ≠ s → U t → ∀ d, Wanted roots' t d → Wanted roots t d)
    (hcovered : ∀ d ∈ s.dependencies, Wanted roots' s d →
      (d.optional = true → d.nameInToml ∈ cx'.features s.packageId) → Covered cx' pending' s d)
    (hasked : ∀ d ∈ s.dependencies, d.isTransitive = true → ∀ g, g ≠ "" →
      FeatureAsked s (cx'.features s.packageId) d.nameInToml g → AskedFor cx' pending' s d g)
    (hrootAsked : ∀ root ∈ roots', root.1 = s → ∀ d ∈ s.dependencies, Wanted roots' s d →
      ∀ g, g ≠ "" → RootAsks root d.nameInToml g → AskedFor cx' pending' s d g)
    (hpending : ∀ e ∈ pending', e ∈ pending ∨ e.1 = s ∧ e.2.dep ∈ s.dependencies ∧
      (∀ f ∈ e.2.dep.features, f ∈ e.2.features) ∧ (∀ f ∈ e.2.features, '/' ∉ f.toList) ∧
      env.registry.query e.2.dep = .ok e.2.candidates) :
    Sound env U roots' cx' pending' := by
  -- Any other active package keeps its features.
  have hother : ∀ slot, ∀ t ∈ cx.active slot, t ≠ s →
      cx'.features t.packageId = cx.features t.packageId := by
    intro slot t ht hne
    rw [hc.features, if_neg]
    exact fun hid => hne (hU.coherent t s (h.known slot t ht) hknown hid)
  refine ⟨?_, ?_, ?_, hc.links, ?_, ?_, ?_, ?_, ?_, ?_, ?_, ?_, ?_, ?_⟩
  · intro slot t ht
    rcases (hc.mem_active slot t).mp ht with ht | ⟨-, rfl⟩
    · exact h.known slot t ht
    · exact hknown
  · intro slot t ht
    rcases (hc.mem_active slot t).mp ht with ht | ⟨hslot, rfl⟩
    · exact h.slot slot t ht
    · exact hslot.symm
  · intro slot t ht t' ht' hcompat
    rcases (hc.mem_active slot t).mp ht with ht | ⟨hslot, rfl⟩ <;>
      rcases (hc.mem_active slot t').mp ht' with ht' | ⟨hslot', rfl⟩
    · exact h.semver slot t ht t' ht' hcompat
    · exact hsemver t (hslot' ▸ ht) hcompat
    · exact (hsemver t' (hslot ▸ ht') (compatible_symm hcompat)).symm
    · rfl
  · intro id
    rw [hc.graph, hc.isActive, h.add_iff]
    constructor
    · rintro (hid | hid | hid)
      · exact Or.inl hid
      · obtain ⟨p, d, hnode, -⟩ := hedges _ hid
        cases hnode
      · cases hid
        exact Or.inr rfl
    · rintro (hid | rfl)
      · exact Or.inl hid
      · exact Or.inr (Or.inr rfl)
  · intro p q d hnode
    rcases (hc.graph _).mp hnode with hnode | hnode | hnode
    · exact (h.link_ok p q d hnode).mono hc
    · obtain ⟨p', d', hnode', -, hok⟩ := hedges _ hnode
      cases hnode'
      exact hok
    · cases hnode
  · have hmono : ∀ a b, Linked cx a b → Linked cx' a b := fun a b ⟨d, hd⟩ =>
      ⟨d, (hc.graph _).mpr (Or.inl hd)⟩
    have hold : ∀ id, cx.isActive id = true →
        ∃ root ∈ roots', ReflTransGen (Linked cx') root.1.packageId id := by
      intro id hid
      obtain ⟨root, hroot, hpath⟩ := h.reach id hid
      exact ⟨root, hsub root hroot, ReflTransGen.mono hmono _ _ hpath⟩
    intro id hid
    rcases (hc.isActive id).mp hid with hid | rfl
    · exact hold id hid
    · rcases hreached with hactive | ⟨root, hroot, rfl⟩ | ⟨p, d, hedge⟩
      · exact hold _ hactive
      · exact ⟨root, hroot, .refl⟩
      · obtain ⟨p', d', hnode, hactive, -⟩ := hedges _ hedge
        cases hnode
        obtain ⟨root, hroot, hpath⟩ := hold p hactive
        exact ⟨root, hroot, hpath.tail ⟨d, (hc.graph _).mpr (Or.inr (Or.inl hedge))⟩⟩
  · intro root hroot
    rcases hsuper root hroot with hroot | rfl
    · exact (hc.mem_active _ _).mpr (Or.inl (h.root_active root hroot))
    · exact (hc.mem_active _ _).mpr (Or.inr ⟨rfl, rfl⟩)
  · intro id hid
    have hnot := Bool.eq_false_iff.mp hid
    rw [Ne, hc.isActive, not_or] at hnot
    rw [hc.features, if_neg hnot.2]
    exact h.inactive id (Bool.eq_false_iff.mpr hnot.1)
  · intro slot t ht f hf values hvalues n hn
    by_cases hts : t = s
    · subst hts
      rw [hc.features, if_pos rfl] at hf ⊢
      rcases Finset.mem_union.mp hf with hf | hf
      · rcases (hc.mem_active slot t).mp ht with ht | ⟨-, -⟩
        · exact Finset.mem_union_left _ (h.closed slot t ht f hf values hvalues n hn)
        · by_cases hactive : cx.isActive t.packageId = true
          · obtain ⟨t', ht', hid⟩ := Context.isActive_iff.mp hactive
            obtain rfl := hU.coherent t' t (h.known _ t' ht') hknown hid
            exact Finset.mem_union_left _ (h.closed _ t' ht' f hf values hvalues n hn)
          · rw [h.inactive _ (Bool.eq_false_iff.mpr hactive)] at hf
            cases hf
      · exact Finset.mem_union_right _ (hclosed f hf values hvalues n hn)
    · have ht' := ((hc.mem_active slot t).mp ht).resolve_right fun hs => hts hs.2
      rw [hother slot t ht' hts] at hf ⊢
      exact h.closed slot t ht' f hf values hvalues n hn
  · intro slot t ht d hd hw hopt
    by_cases hts : t = s
    · subst hts
      exact hcovered d hd hw hopt
    · have ht' := ((hc.mem_active slot t).mp ht).resolve_right fun hs => hts hs.2
      rw [hother slot t ht' hts] at hopt
      exact (h.covered slot t ht' d hd (hwanted t hts (h.known slot t ht') d hw) hopt).mono
        hc hmoves
  · intro slot t ht d hd htrans g hg hfeat
    by_cases hts : t = s
    · subst hts
      exact hasked d hd htrans g hg hfeat
    · have ht' := ((hc.mem_active slot t).mp ht).resolve_right fun hs => hts hs.2
      rw [hother slot t ht' hts] at hfeat
      exact (h.asked slot t ht' d hd htrans g hg hfeat).mono hc hmoves hg
  · intro root hroot d hd hw g hg hasks
    by_cases hrs : root.1 = s
    · rw [hrs] at hd hw ⊢
      exact hrootAsked root hroot hrs d hd hw g hg hasks
    · have hroot' := (hsuper root hroot).resolve_right hrs
      have hUroot := h.known _ _ (h.root_active root hroot')
      exact (h.root_asked root hroot' d hd (hwanted _ hrs hUroot d hw) g hg hasks).mono hc hmoves hg
  · intro e he
    rcases hpending e he with he | ⟨hs, hrest⟩
    · obtain ⟨hactive, hrest⟩ := h.pending_ok e he
      exact ⟨(hc.mem_active _ _).mpr (Or.inl hactive), hrest⟩
    · rw [hs]
      exact ⟨(hc.mem_active _ _).mpr (Or.inr ⟨rfl, rfl⟩), hrest⟩

end Changed

/-! ### The two ways to activate a package -/

/-- The edge that `activate` notes. -/
def edgesOf (parent : Option (Summary S R × Dependency S R)) (candidate : Candidate S R) :
    List (GraphNode S R) :=
  match parent with
  | none => []
  | some (p, d) => [.link p.packageId candidate.summary.packageId d]

section Activate

variable {env : Env S R} {U : Summary S R → Prop} {roots : List (Summary S R × Method)}
  {cx cx' mid : Context S R} {pending : Pending S R} {method : Method} {reqs : Requirements}
  {infos : List (DepInfo S R)} {c : Candidate S R}
  {parent : Option (Summary S R × Dependency S R)}

omit [VersionReq R] in
theorem link_active : (cx.link parent c).active = cx.active := by
  cases parent <;> rfl

omit [VersionReq R] in
theorem link_isActive : (cx.link parent c).isActive = cx.isActive := by
  cases parent <;> rfl

omit [VersionReq R] in
theorem link_features : (cx.link parent c).features = cx.features := by
  cases parent <;> rfl

omit [DecidableEq S] [VersionReq R] in
theorem link_links : (cx.link parent c).links = cx.links := by
  cases parent <;> rfl

omit [DecidableEq S] [VersionReq R] in
theorem mem_link_graph {node : GraphNode S R} :
    node ∈ (cx.link parent c).resolveGraph ↔ node ∈ edgesOf parent c ∨ node ∈ cx.resolveGraph := by
  cases parent <;> simp [Context.link, edgesOf]

/-- A summary whose package is active is active itself. -/
theorem Sound.mem_active (hU : Universe env U) (h : Sound env U roots cx pending)
    {s : Summary S R} (hs : U s) (hactive : cx.isActive s.packageId = true) :
    s ∈ cx.active s.packageId.slot := by
  obtain ⟨t, ht, hid⟩ := Context.isActive_iff.mp hactive
  exact hU.coherent t s (h.known _ t ht) hs hid ▸ ht

/-- Noting the edge to an active package changes nothing else. -/
theorem Sound.changed_already (hU : Universe env U) (h : Sound env U roots cx pending)
    (parent : Option (Summary S R × Dependency S R)) (hs : U c.summary)
    (hactive : cx.isActive c.summary.packageId = true) :
    Changed cx (cx.link parent c) c.summary (edgesOf parent c) ∅ := by
  refine ⟨?_, ?_, ?_, ?_⟩
  · intro slot t
    rw [link_active]
    refine ⟨Or.inl, ?_⟩
    rintro (ht | ⟨rfl, rfl⟩)
    · exact ht
    · exact h.mem_active hU hs hactive
  · rw [link_active, link_links]
    exact h.links
  · intro node
    rw [mem_link_graph]
    constructor
    · rintro (hnode | hnode)
      · exact Or.inr (Or.inl hnode)
      · exact Or.inl hnode
    · rintro (hnode | hnode | rfl)
      · exact Or.inr hnode
      · exact Or.inl hnode
      · exact Or.inr ((h.add_iff _).mpr hactive)
  · intro id
    rw [link_features]
    split <;> simp

/-- Flagging a package and finding its dependencies is a change as described. -/
theorem Sound.changed_expanded (hU : Universe env U) (h : Sound env U roots cx pending)
    (hs : U c.summary) (hflag : Flagged (cx.link parent c) c.summary method mid)
    (hexp : Context.Expanded env.registry c.summary method reqs mid cx' infos) :
    Changed cx cx' c.summary (edgesOf parent c) reqs.used := by
  rcases hflag with ⟨hactive, -, rfl⟩ | hadded
  -- the package was active before: only its features and edges are new
  · rw [link_isActive] at hactive
    have hold := h.changed_already hU parent hs hactive
    refine ⟨?_, ?_, ?_, ?_⟩
    · rw [hexp.same.active]
      exact hold.mem_active
    · rw [hexp.same.active, hexp.same.links]
      exact hold.links
    · rw [hexp.same.graph]
      exact hold.graph
    · intro id
      rw [hexp.features, link_features]
  · refine ⟨?_, ?_, ?_, ?_⟩
    · intro slot t
      rw [hexp.same.active, hadded.active, link_active]
      split
      · rename_i hslot
        simp [hslot]
      · rename_i hslot
        simp [hslot]
    · intro slot t ht link hlink
      rw [hexp.same.active, hadded.active, link_active] at ht
      -- the value of a package that was active is not that of the new one
      have hold : ∀ t ∈ cx.active slot, t.links = some link →
          mid.links.lookup link = some t.packageId := by
        intro t ht hlink
        have hlookup := h.links slot t ht link hlink
        rw [hadded.links, link_links, if_neg, hlookup]
        intro hs'
        have hfree := hadded.links_free link hs'
        rw [link_links, hlookup] at hfree
        cases hfree
      rw [hexp.same.links]
      split at ht
      · rcases List.mem_append.mp ht with ht | ht
        · exact hold t ht hlink
        · obtain rfl := List.mem_singleton.mp ht
          rw [hadded.links, if_pos hlink]
      · exact hold t ht hlink
    · intro node
      rw [hexp.same.graph, hadded.graph, List.mem_cons, mem_link_graph]
      tauto
    · intro id
      rw [hexp.features, hadded.features, link_features]

/-- The requirements of a package without namespaced features are closed, and every name
among them is the name of a feature or of a dependency that is needed. -/
theorem closed_of_expanded (hU : Universe env U) (hs : U c.summary)
    (hexp : Context.Expanded env.registry c.summary method reqs mid cx' infos) :
    (∀ f ∈ reqs.used, ∀ values, c.summary.features.lookup f = some values → ∀ v ∈ values,
      reqs.Satisfies v) ∧
    ∀ d ∈ c.summary.dependencies, d.nameInToml ∈ reqs.used → d.nameInToml ∈ reqs.deps := by
  have hgrows := buildRequirements_grows hexp.reqs_eq
  have hdisjoint := c.summary.names_disjoint (hU.plain _ hs)
  refine ⟨?_, ?_⟩
  · intro f hf values hvalues
    rcases hgrows.complete f hf (by simp [Requirements.new]) with hdeps | ⟨-, hcomplete⟩
    · obtain ⟨d, hd, rfl⟩ := hexp.named f hdeps
      exact absurd (Finmap.mem_of_lookup_eq_some hvalues) (hdisjoint d hd)
    · exact hcomplete values hvalues
  · intro d hd hused
    rcases hgrows.complete _ hused (by simp [Requirements.new]) with hdeps | ⟨hfeature, -⟩
    · exact hdeps
    · exact absurd hfeature (hdisjoint d hd)

omit [VersionReq R] in
/-- A candidate that is not refused is compatible with no other active package. -/
theorem refusal_eq_none {dep : Dependency S R} (h : refusal cx dep c = none) :
    ∀ a, (cx.prevActive dep).find?
      (fun a => compatible a.packageId.version c.summary.packageId.version) = some a →
      a.packageId = c.summary.packageId := by
  intro a ha
  by_contra hne
  unfold refusal at h
  simp only [ha, if_pos hne] at h
  split at h
  · cases h
  · split at h
    · split at h
      · cases h
      · cases h
    · cases h

/-- With the invariant, a candidate that is not refused is the only compatible package of
its slot. -/
theorem Sound.semver_of_refusal (h : Sound env U roots cx pending) {dep : Dependency S R}
    (hslot : dep.slot = c.summary.packageId.slot) (hvalid : refusal cx dep c = none) :
    ∀ t ∈ cx.active c.summary.packageId.slot,
      compatible t.packageId.version c.summary.packageId.version = true →
      t.packageId = c.summary.packageId := by
  intro t ht hcompat
  cases hfind : (cx.prevActive dep).find?
      (fun a => compatible a.packageId.version c.summary.packageId.version) with
  | none =>
    have hnot := List.find?_eq_none.mp hfind t (by rw [Context.prevActive, hslot]; exact ht)
    exact absurd hcompat hnot
  | some a =>
    have hid := refusal_eq_none hvalid a hfind
    have hmem : a ∈ cx.active c.summary.packageId.slot := by
      have := List.mem_of_find?_eq_some hfind
      rwa [Context.prevActive, hslot] at this
    have hta := h.semver _ t ht a hmem (by rw [hid]; exact hcompat)
    rw [hta, hid]

omit [VersionReq R] in
theorem mem_features_of_already {s : Summary S R} {devDeps usesDefault : Bool}
    {requested : List String}
    (h : cx.alreadyActivated s (.required devDeps requested false usesDefault) = true) :
    (∀ f ∈ requested, f ∈ cx.features s.packageId) ∧
      (usesDefault = true → "default" ∈ s.features → "default" ∈ cx.features s.packageId) := by
  simp only [Context.alreadyActivated, Bool.and_eq_true, List.all_eq_true, decide_eq_true_eq,
    Bool.or_eq_true, Bool.not_eq_true'] at h
  refine ⟨h.1, ?_⟩
  intro huses hmem
  rcases h.2 with (hno | hyes) | hnot
  · rw [huses] at hno
    cases hno
  · exact hyes
  · exact absurd hmem hnot

/-- The new edge of a dependency is in order once the features asked for are recorded. -/
theorem linkOk_new {cx' : Context S R} (h : Sound env U roots cx pending)
    {p : Summary S R} {info : DepInfo S R} (he : (p, info) ∈ pending)
    {edges : List (GraphNode S R)} {used : Finset String}
    (hc : Changed cx cx' c.summary edges used)
    (hfulfils : Fulfils info.dep c.summary.packageId)
    (hfeat : ∀ f ∈ info.features, f ≠ "" → f ∈ cx'.features c.summary.packageId)
    (hdefault : info.dep.defaultFeatures = true → "default" ∈ c.summary.features →
      "default" ∈ cx'.features c.summary.packageId) :
    LinkOk cx' p.packageId c.summary.packageId info.dep := by
  obtain ⟨hactive, hdep, hsub, -, -⟩ := h.pending_ok _ he
  refine ⟨p, c.summary, (hc.mem_active _ _).mpr (Or.inl hactive), rfl,
    (hc.mem_active _ _).mpr (Or.inr ⟨rfl, rfl⟩), rfl, hdep, hfulfils, ?_, hdefault⟩
  exact fun f hf hne => hfeat f (hsub f hf) hne

omit [DecidableEq S] in
theorem Fulfils.slot_eq {d : Dependency S R} {q : PackageId S} (h : Fulfils d q) :
    d.slot = q.slot := by
  simp [Dependency.slot, PackageId.slot, h.1, h.2.1]

/-- A package with everything asked of it recorded only gains an edge. -/
theorem Sound.already (hU : Universe env U) {p : Summary S R} {info : DepInfo S R}
    (h : Sound env U roots cx ((p, info) :: pending)) (hs : U c.summary)
    (hfulfils : Fulfils info.dep c.summary.packageId)
    (hvalid : refusal cx info.dep c = none)
    (hactive : cx.isActive c.summary.packageId = true)
    (hall : cx.alreadyActivated c.summary
      (.required false info.features false info.dep.defaultFeatures) = true) :
    Sound env U roots (cx.link (some (p, info.dep)) c) pending := by
  obtain ⟨hfeat, hdefault⟩ := mem_features_of_already hall
  have hc := h.changed_already hU (some (p, info.dep)) hs hactive
  have hmem := h.mem_active hU hs hactive
  -- the dependency at hand is served by the new edge, the others wait as before
  have hmoves : Moves (cx.link (some (p, info.dep)) c) c.summary
      (edgesOf (some (p, info.dep)) c) ((p, info) :: pending) pending := by
    intro e he
    rcases List.mem_cons.mp he with rfl | he
    · refine Or.inr ⟨by simp [edgesOf], ?_⟩
      intro g hg _
      rw [link_features]
      exact hfeat g hg
    · exact Or.inl he
  have hparent : cx.isActive p.packageId = true :=
    Context.isActive_iff.mpr ⟨p, (h.pending_ok (p, info) (by simp)).1, rfl⟩
  refine h.changed hU hc hmoves hs (h.semver_of_refusal hfulfils.slot_eq hvalid) ?_
    (fun _ hr => hr) (fun _ hr => Or.inl hr) (Or.inl hactive) (by simp) (fun _ _ _ _ hw => hw)
    ?_ ?_ ?_ (fun e he => Or.inl (by simp [he]))
  · intro node hnode
    obtain rfl := List.mem_singleton.mp hnode
    refine ⟨p.packageId, info.dep, rfl, hparent, linkOk_new h (by simp) hc hfulfils ?_ ?_⟩
    · rw [link_features]
      exact fun f hf _ => hfeat f hf
    · rw [link_features]
      exact hdefault
  · intro d hd hw hopt
    rw [link_features] at hopt
    exact (h.covered _ _ hmem d hd hw hopt).mono hc hmoves
  · intro d hd htrans g hg hask
    rw [link_features] at hask
    exact (h.asked _ _ hmem d hd htrans g hg hask).mono hc hmoves hg
  · intro root hroot hroots d hd hw g hg hasks
    rw [← hroots] at hd hw ⊢
    exact (h.root_asked root hroot d hd hw g hg hasks).mono hc hmoves hg

/-- A package that is expanded gains an edge and features, and its dependencies become
pending. The roots may grow by the package itself. -/
theorem Sound.expanded (roots' : List (Summary S R × Method)) (pending : Pending S R)
    {pending₀ : Pending S R}
    (hU : Universe env U) (h : Sound env U roots cx pending₀) (hs : U c.summary)
    (hflag : Flagged (cx.link parent c) c.summary method mid)
    (hexp : Context.Expanded env.registry c.summary method reqs mid cx' infos)
    (hsemver : ∀ t ∈ cx.active c.summary.packageId.slot,
      compatible t.packageId.version c.summary.packageId.version = true →
      t.packageId = c.summary.packageId)
    (hmoves : Moves cx' c.summary (edgesOf parent c) pending₀
      (infos.map (fun info => (c.summary, info)) ++ pending))
    (hsub : ∀ e ∈ pending, e ∈ pending₀)
    (hedges : ∀ node ∈ edgesOf parent c, ∃ p d, node = .link p c.summary.packageId d ∧
      cx.isActive p = true ∧ LinkOk cx' p c.summary.packageId d)
    (hroots : ∀ root ∈ roots, root ∈ roots')
    (hroots' : ∀ root ∈ roots', root ∈ roots ∨ root.1 = c.summary)
    (hreached : (∃ root ∈ roots', root.1 = c.summary) ∨
      ∃ p d, GraphNode.link p c.summary.packageId d ∈ edgesOf parent c)
    (hwanted : ∀ t, t ≠ c.summary → U t → ∀ d, Wanted roots' t d → Wanted roots t d)
    (hself : ∀ d, Wanted roots' c.summary d → (d.isTransitive = true ∨ method.devDeps = true) ∨
      (cx.isActive c.summary.packageId = true ∧ Wanted roots c.summary d))
    (hrootAsked : ∀ root ∈ roots', root.1 = c.summary → ∀ d ∈ c.summary.dependencies,
      Wanted roots' c.summary d → ∀ g, g ≠ "" → RootAsks root d.nameInToml g →
      AskedFor cx' (infos.map (fun info => (c.summary, info)) ++ pending) c.summary d g) :
    Sound env U roots' cx' (infos.map (fun info => (c.summary, info)) ++ pending) := by
  have hc := h.changed_expanded hU hs hflag hexp
  obtain ⟨hclosed, hnamed⟩ := closed_of_expanded hU hs hexp
  have hfeatures : cx'.features c.summary.packageId =
      cx.features c.summary.packageId ∪ reqs.used := by
    rw [hc.features, if_pos rfl]
  -- A feature recorded before means that the package was active before.
  have hold : ∀ f ∈ cx.features c.summary.packageId,
      c.summary ∈ cx.active c.summary.packageId.slot := by
    intro f hf
    by_cases hactive : cx.isActive c.summary.packageId = true
    · exact h.mem_active hU hs hactive
    · rw [h.inactive _ (Bool.eq_false_iff.mpr hactive)] at hf
      cases hf
  have hinfo : ∀ d ∈ c.summary.dependencies, (d.isTransitive = true ∨ method.devDeps = true) →
      (d.optional = true → d.nameInToml ∈ reqs.deps) →
      Covered cx' (infos.map (fun info => (c.summary, info)) ++ pending) c.summary d := by
    intro d hd hw henabled
    obtain ⟨info, hinfo, hdep, -⟩ := hexp.exists_info hd hw henabled
    exact Or.inr ⟨info, by simp [hinfo], hdep⟩
  refine h.changed hU hc hmoves hs hsemver hedges hroots hroots' (Or.inr hreached) ?_ hwanted
    ?_ ?_ hrootAsked ?_
  · intro f hf values hvalues n hn
    rcases hn with hn | ⟨g, hn⟩
    · exact hclosed f hf values hvalues _ hn
    · exact (hclosed f hf values hvalues _ hn).1
  · intro d hd hw hopt
    by_cases hoptional : d.optional = true
    · have htrans := c.summary.optional_transitive d hd hoptional
      have hname := hopt hoptional
      rw [hfeatures] at hname
      rcases Finset.mem_union.mp hname with hname | hname
      · have hmem := hold _ hname
        exact (h.covered _ _ hmem d hd (Or.inl htrans) fun _ => hname).mono hc hmoves
      · exact hinfo d hd (Or.inl htrans) fun _ => hnamed d hd hname
    · rcases hself d hw with hw | ⟨hactive, hw⟩
      · exact hinfo d hd hw fun ho => absurd ho hoptional
      · have hmem := h.mem_active hU hs hactive
        exact (h.covered _ _ hmem d hd hw fun ho => absurd ho hoptional).mono hc hmoves
  · rintro d hd htrans g hg ⟨f, hf, values, hvalues, hv⟩
    rw [hfeatures] at hf
    rcases Finset.mem_union.mp hf with hf | hf
    · exact (h.asked _ _ (hold f hf) d hd htrans g hg ⟨f, hf, values, hvalues, hv⟩).mono
        hc hmoves hg
    · obtain ⟨-, flag, fs, hlookup, hgs⟩ := hclosed f hf values hvalues _ hv
      have hdeps := Finmap.mem_of_lookup_eq_some hlookup
      obtain ⟨info, hinfo, hdep, hfs⟩ := hexp.exists_info hd (Or.inl htrans) fun _ => hdeps
      refine Or.inr ⟨info, by simp [hinfo], hdep, ?_⟩
      rw [hfs, Requirements.entry_eq hlookup]
      simp [hgs]
  · intro e he
    rcases List.mem_append.mp he with he | he
    · obtain ⟨info, hinfo, rfl⟩ := List.mem_map.mp he
      obtain ⟨d, hd, -, -, hdep, hfs, hquery⟩ := (hexp.mem_infos info).mp hinfo
      refine Or.inr ⟨rfl, hdep ▸ hd, ?_, hexp.no_slash info hinfo, hdep ▸ hquery⟩
      intro f hf
      rw [hfs]
      exact List.mem_append_right _ (hdep ▸ hf)
    · exact Or.inl (hsub e he)

/-- The features asked for are recorded by an expansion. -/
theorem recorded_of_expanded (hU : Universe env U) (h : Sound env U roots cx pending)
    (hs : U c.summary) {requested : List String} {devDeps usesDefault : Bool}
    (hflag : Flagged (cx.link parent c) c.summary
      (.required devDeps requested false usesDefault) mid)
    (hexp : Context.Expanded env.registry c.summary
      (.required devDeps requested false usesDefault) reqs mid cx' infos)
    (hslash : ∀ f ∈ requested, '/' ∉ f.toList) :
    (∀ f ∈ requested, f ≠ "" → f ∈ cx'.features c.summary.packageId) ∧
      (usesDefault = true → "default" ∈ c.summary.features →
        "default" ∈ cx'.features c.summary.packageId) := by
  have hc := h.changed_expanded hU hs hflag hexp
  have hfeatures : cx'.features c.summary.packageId =
      cx.features c.summary.packageId ∪ reqs.used := by
    rw [hc.features, if_pos rfl]
  rw [hfeatures]
  refine ⟨?_, ?_⟩
  · intro f hf hne
    exact Finset.mem_union_right _
      (mem_used_of_requested (hU.plain _ hs) hexp.reqs_eq hf (hslash f hf) hne)
  · intro huses hmem
    exact Finset.mem_union_right _ (buildRequirements_default hexp.reqs_eq huses hmem)

/-- The invariant is kept by the search. -/
theorem Sound.kept (hU : Universe env U) : Kept env (Sound env U roots) where
  perm := by
    intro cx l l' hperm h
    have hcov : ∀ s d, Covered cx l s d → Covered cx l' s d := fun s d hd =>
      hd.imp_right fun ⟨info, hinfo, hdep⟩ => ⟨info, hperm.mem_iff.mp hinfo, hdep⟩
    have hask : ∀ s d g, AskedFor cx l s d g → AskedFor cx l' s d g := fun s d g hd =>
      hd.imp_right fun ⟨info, hinfo, hdep⟩ => ⟨info, hperm.mem_iff.mp hinfo, hdep⟩
    exact { h with
      covered := fun slot s hs d hd hw hopt => hcov s d (h.covered slot s hs d hd hw hopt)
      asked := fun slot s hs d hd ht g hg hf => hask s d g (h.asked slot s hs d hd ht g hg hf)
      root_asked := fun root hroot d hd hw g hg hr =>
        hask root.1 d g (h.root_asked root hroot d hd hw g hg hr)
      pending_ok := fun e he => h.pending_ok e (hperm.mem_iff.mpr he) }
  already := by
    intro cx cx' p info rest c h hc hvalid hactivate
    obtain ⟨-, -, -, -, hquery⟩ := h.pending_ok (p, info) (by simp)
    obtain ⟨hs, hfulfils, hreplace⟩ := hU.candidate hquery hc
    rcases activate_ok hactivate hreplace with ⟨-, hactive, hall, rfl⟩ |
      ⟨_, _, _, -, -, hout⟩ | ⟨_, _, _, -, -, hout⟩
    · exact h.already hU hs hfulfils hvalid hactive hall
    · cases hout
    · cases hout
  frame := by
    intro cx cx' p info rest c frame h hc hvalid hactivate
    obtain ⟨hpactive, -, -, hslash, hquery⟩ := h.pending_ok (p, info) (by simp)
    obtain ⟨hs, hfulfils, hreplace⟩ := hU.candidate hquery hc
    rcases activate_ok hactivate hreplace with ⟨hout, -⟩ |
      ⟨mid, reqs, infos, hflag, hexp, hout⟩ | ⟨_, _, _, -, -, hout⟩
    · cases hout
    · cases hout
      have hchanged := h.changed_expanded hU hs hflag hexp
      -- what was pending for the dependency is now recorded on the new link
      obtain ⟨hfeat, hdefault⟩ := recorded_of_expanded hU h hs hflag hexp hslash
      have hmoves : Moves cx' c.summary (edgesOf (some (p, info.dep)) c) ((p, info) :: rest)
          (infos.map (fun info => (c.summary, info)) ++ rest) := by
        intro e he
        rcases List.mem_cons.mp he with rfl | he
        · exact Or.inr ⟨by simp [edgesOf], hfeat⟩
        · exact Or.inl (by simp [he])
      refine h.expanded roots rest hU hs hflag hexp
        (h.semver_of_refusal hfulfils.slot_eq hvalid) hmoves
        (fun e he => by simp [he]) ?_ (fun _ hr => hr) (fun _ hr => Or.inl hr)
        (Or.inr ⟨p.packageId, info.dep, by simp [edgesOf]⟩) (fun _ _ _ _ hw => hw) ?_ ?_
      · intro node hnode
        obtain rfl := List.mem_singleton.mp hnode
        exact ⟨p.packageId, info.dep, rfl, Context.isActive_iff.mpr ⟨p, hpactive, rfl⟩,
          linkOk_new h (by simp) hchanged hfulfils hfeat hdefault⟩
      · rintro d (htrans | ⟨root, hroot, hid, hdev⟩)
        · exact Or.inl (Or.inl htrans)
        · refine Or.inr ⟨?_, Or.inr ⟨root, hroot, hid, hdev⟩⟩
          rw [← hid]
          exact Context.isActive_iff.mpr ⟨root.1, h.root_active root hroot, rfl⟩
      · intro root hroot hroots d hd hw g hg hasks
        have hold : AskedFor cx ((p, info) :: rest) root.1 d g :=
          h.root_asked root hroot d (hroots ▸ hd) (hroots ▸ hw) g hg hasks
        rw [hroots] at hold
        exact hold.mono hchanged hmoves hg
    · cases hout

end Activate

/-! ### The roots -/

section Roots

variable {env : Env S R} {U : Summary S R → Prop} {roots : List (Summary S R × Method)}

/-- The invariant while the roots are activated: only roots are active. -/
def RootsSound (env : Env S R) (U : Summary S R → Prop) (roots : List (Summary S R × Method))
    (state : Context S R × RemainingDeps S R) : Prop :=
  Sound env U roots state.1 state.2.pending ∧
    ∀ slot, ∀ s ∈ state.1.active slot, ∃ root ∈ roots, root.1 = s

theorem rootsSound_nil : RootsSound env U [] (Context.new, []) := by
  have hnone : ∀ slot, (Context.new : Context S R).active slot = [] := fun _ => rfl
  have hactive : ∀ id, (Context.new : Context S R).isActive id = false := fun _ => rfl
  have hgraph : (Context.new : Context S R).resolveGraph = [] := rfl
  have hfeatures : ∀ id, (Context.new : Context S R).features id = ∅ := fun _ => rfl
  refine ⟨⟨?_, ?_, ?_, ?_, ?_, ?_, ?_, ?_, ?_, ?_, ?_, ?_, ?_, ?_⟩, ?_⟩
  all_goals simp [hnone, hactive, hgraph, hfeatures, RemainingDeps.pending]

/-- Activating the next root keeps the invariant. -/
theorem rootsSound_activateRoot (hU : Universe env U) {root : Summary S R × Method}
    {state state' : Context S R × RemainingDeps S R} (h : RootsSound env U roots state)
    (hroot : U root.1) (hslots : ∀ r ∈ roots, r.1.packageId.slot ≠ root.1.packageId.slot)
    (hactivate : activateRoot env state root = .ok state') :
    RootsSound env U (roots ++ [root]) state' := by
  obtain ⟨hsound, honly⟩ := h
  obtain ⟨cx, remaining⟩ := state
  obtain ⟨⟨cx', out⟩, hact, hactivate⟩ := bind_eq_ok.mp hactivate
  have hempty : cx.active root.1.packageId.slot = [] := by
    refine List.eq_nil_iff_forall_not_mem.mpr ?_
    intro s hs
    obtain ⟨r, hr, rfl⟩ := honly _ s hs
    exact hslots r hr (hsound.slot _ _ hs)
  have hinactive : ¬cx.isActive root.1.packageId = true := by
    rw [Context.isActive_iff, hempty]
    simp
  -- no root shares a slot with another, so that this one is new
  rcases activate_ok hact rfl with ⟨-, hactive, -⟩ | ⟨mid, reqs, infos, hflag, hexp, hout⟩ |
    ⟨_, _, _, -, hlacking, -⟩
  · exact absurd hactive hinactive
  · subst hout
    cases hactivate
    have hnew : ∀ r ∈ roots ++ [root], r.1.packageId = root.1.packageId → r = root := by
      intro r hr hid
      rcases List.mem_append.mp hr with hr | hr
      · exact absurd (congrArg PackageId.slot hid) (hslots r hr)
      · exact List.mem_singleton.mp hr
    have hself : ∀ d, Wanted (roots ++ [root]) root.1 d →
        d.isTransitive = true ∨ root.2.devDeps = true := by
      rintro d (htrans | ⟨r, hr, hid, hdev⟩)
      · exact Or.inl htrans
      · exact Or.inr (hnew r hr hid ▸ hdev)
    have hchanged := hsound.changed_expanded hU (c := ⟨root.1, none⟩) hroot hflag hexp
    have hexpanded := hsound.expanded (c := ⟨root.1, none⟩) (roots ++ [root]) remaining.pending hU
      hroot hflag hexp (by simp [hempty])
      (fun e he => Or.inl (by simp [he])) (fun e he => he) (by simp [edgesOf])
      (fun r hr => by simp [hr])
      (fun r hr => by
        rcases List.mem_append.mp hr with hr | hr
        · exact Or.inl hr
        · exact Or.inr (by rw [List.mem_singleton.mp hr]))
      (Or.inl ⟨root, by simp, rfl⟩)
      (fun t hne ht d hw => hw.imp_right fun ⟨r, hr, hid, hdev⟩ => by
        rcases List.mem_append.mp hr with hr | hr
        · exact ⟨r, hr, hid, hdev⟩
        · obtain rfl := List.mem_singleton.mp hr
          exact absurd (hU.coherent _ _ ht hroot hid.symm) hne)
      (fun d hw => Or.inl (hself d hw))
      (by
        rintro r hr heq d hd hw g hg ⟨reqs', flag, fs, hreqs', hlookup, hgs⟩
        obtain rfl := hnew r hr (congrArg Summary.packageId heq)
        obtain rfl : reqs' = reqs := Except.ok.inj (hreqs'.symm.trans hexp.reqs_eq)
        have hdeps := Finmap.mem_of_lookup_eq_some hlookup
        obtain ⟨info, hinfo, hdep, hfs⟩ := hexp.exists_info hd (hself d hw) fun _ => hdeps
        refine Or.inr ⟨info, by simp [hinfo], hdep, ?_⟩
        rw [hfs, Requirements.entry_eq hlookup]
        simp [hgs])
    refine ⟨(Sound.kept hU).perm _ _ _ (perm_pending (env.heap.push_perm _ _)).symm hexpanded, ?_⟩
    intro slot s hs
    rcases (hchanged.mem_active slot s).mp hs with hs | ⟨-, rfl⟩
    · obtain ⟨r, hr, hrs⟩ := honly slot s hs
      exact ⟨r, by simp [hr], hrs⟩
    · exact ⟨root, by simp, rfl⟩
  · obtain ⟨p, hp, -⟩ := hlacking.parent
    cases hp

/-- The invariant holds when the main loop is entered. -/
theorem sound_start (hU : Universe env U) (hroots : ∀ root ∈ roots, U root.1)
    (hslots : (roots.map (·.1.packageId.slot)).Nodup) :
    MachineOk (Sound env U roots) (start env roots) := by
  unfold start
  split
  · trivial
  · rename_i cx remaining hfold
    have hsound : RootsSound env U roots (cx, remaining) := by
      refine foldlM_ok_induction (P := fun pre state => RootsSound env U pre state) hfold
        rootsSound_nil ?_
      intro pre root post state state' hl ih hstep
      refine rootsSound_activateRoot hU ih (hroots root (by rw [hl]; simp)) ?_ hstep
      intro r hr heq
      rw [hl, List.map_append, List.map_cons] at hslots
      exact List.disjoint_of_nodup_append hslots (List.mem_map_of_mem hr) (by rw [heq]; simp)
    exact ⟨hsound.1, by simp⟩

/-- Whatever the search returns is a solution with nothing pending. -/
theorem sound_of_returns [DecidableEq R] (hU : Universe env U) (hroots : ∀ root ∈ roots, U root.1)
    (hslots : (roots.map (·.1.packageId.slot)).Nodup) {cx : Context S R}
    (h : Returns env roots (.ok cx)) : Sound env U roots cx [] :=
  machineOk_of_reaches (Sound.kept hU) (sound_start hU hroots hslots) h

end Roots

/-! ### The result -/

/-- What resolution promises of the graph `r` for the roots. -/
structure SoundResolve (env : Env S R) (roots : List (Summary S R × Method)) (r : Resolve S R) :
    Prop where
  /-- The roots are packages of `r`, and every package of `r` is known. -/
  roots_mem : ∀ root ∈ roots, root.1.packageId ∈ r.graph.nodes
  known : ∀ p ∈ r.graph.nodes, ∃ s, Known env roots s ∧ s.packageId = p
  /-- Every enabled dependency has an edge to a package that fulfils it. -/
  enabled : ∀ s, Known env roots s → s.packageId ∈ r.graph.nodes →
    ∀ d, EnabledIn roots s (r.featuresOf s.packageId) d →
    ∃ q ∈ r.graph.nodes, r.Edge s.packageId q d ∧ d.matchesId q = true
  /-- Compatible versions of one package do not coexist. -/
  semver : ∀ p ∈ r.graph.nodes, ∀ q ∈ r.graph.nodes, p.name = q.name → p.sourceId = q.sourceId →
    compatible p.version q.version = true → p = q
  /-- No `links` value is declared by two packages. -/
  links : ∀ s t, Known env roots s → Known env roots t → s.packageId ∈ r.graph.nodes →
    t.packageId ∈ r.graph.nodes → ∀ link, s.links = some link → t.links = some link →
    s.packageId = t.packageId
  /-- Every package is reachable from a root. -/
  reachable : ∀ p ∈ r.graph.nodes,
    ∃ root ∈ roots, ReflTransGen (fun a b => ∃ d, r.Edge a b d) root.1.packageId p
  /-- Every edge is for a dependency of its package and ends in a package of `r`. -/
  edges : ∀ p q d, r.Edge p q d → q ∈ r.graph.nodes ∧ d.matchesId q = true ∧
    ∃ s, Known env roots s ∧ s.packageId = p ∧ d ∈ s.dependencies
  /-- The features that an edge asks for are recorded. -/
  edge_features : ∀ p q d, r.Edge p q d → ∀ f ∈ d.features, f ≠ "" → f ∈ r.featuresOf q
  edge_default : ∀ p q d, r.Edge p q d → d.defaultFeatures = true →
    ∀ t, Known env roots t → t.packageId = q → "default" ∈ t.features →
    "default" ∈ r.featuresOf q
  /-- So are those that a recorded feature `f = ["n/g"]` asks for. -/
  feature_asked : ∀ s, Known env roots s → s.packageId ∈ r.graph.nodes →
    ∀ d ∈ s.dependencies, d.isTransitive = true → ∀ g, g ≠ "" →
    FeatureAsked s (r.featuresOf s.packageId) d.nameInToml g →
    ∃ q, r.Edge s.packageId q d ∧ g ∈ r.featuresOf q
  /-- So are those that the method of a root asks for. -/
  root_asked : ∀ root ∈ roots, ∀ d ∈ root.1.dependencies, Wanted roots root.1 d → ∀ g, g ≠ "" →
    RootAsks root d.nameInToml g → ∃ q, r.Edge root.1.packageId q d ∧ g ∈ r.featuresOf q

section Result

variable {env : Env S R} {roots : List (Summary S R × Method)} {cx : Context S R}

theorem Fulfils.matchesId {d : Dependency S R} {q : PackageId S} (h : Fulfils d q) :
    d.matchesId q = true := by
  simp [Dependency.matchesId, h.1, h.2.1, h.2.2]

/-- The packages of the result are the active ones. -/
theorem Sound.mem_nodes {U : Summary S R → Prop} (h : Sound env U roots cx []) {p : PackageId S} :
    p ∈ cx.toResolve.graph.nodes ↔ cx.isActive p = true := by
  rw [Context.mem_toResolve, h.add_iff, or_iff_left_of_imp]
  rintro ⟨q, d, hlink⟩
  obtain ⟨ps, -, hps, rfl, -⟩ := h.link_ok p q d hlink
  exact Context.isActive_iff.mpr ⟨ps, hps, rfl⟩

/-- What a recorded feature turns on is recorded too. -/
theorem Sound.turnedOn {U : Summary S R → Prop} (h : Sound env U roots cx []) {s : Summary S R}
    (hs : s ∈ cx.active s.packageId.slot) {d : Dependency S R}
    (hd : TurnedOn s (cx.features s.packageId) d) : d.nameInToml ∈ cx.features s.packageId := by
  rcases hd with hd | ⟨f, hf, values, hvalues, hd⟩
  · exact hd
  · exact h.closed _ s hs f hf values hvalues _ hd

/-- A search that has nothing pending has found a solution. -/
theorem Sound.toResolve (hU : Universe env (Known env roots))
    (h : Sound env (Known env roots) roots cx []) : SoundResolve env roots cx.toResolve := by
  have hmem : ∀ s, Known env roots s → s.packageId ∈ cx.toResolve.graph.nodes →
      s ∈ cx.active s.packageId.slot := fun s hs hnode => h.mem_active hU hs (h.mem_nodes.mp hnode)
  have hactive : ∀ s slot, s ∈ cx.active slot → s.packageId ∈ cx.toResolve.graph.nodes :=
    fun s slot hs => h.mem_nodes.mpr
      (Context.isActive_iff.mpr ⟨s, (h.slot slot s hs).symm ▸ hs, rfl⟩)
  have hedge : ∀ p q d, cx.toResolve.Edge p q d → LinkOk cx p q d := fun p q d hpq =>
    h.link_ok p q d (Context.edge_toResolve.mp hpq)
  -- nothing is pending any more, so that what is asked for has been recorded
  constructor
  case roots_mem => exact fun root hroot => hactive _ _ (h.root_active root hroot)
  case known =>
    intro p hp
    obtain ⟨s, hs, hid⟩ := Context.isActive_iff.mp (h.mem_nodes.mp hp)
    exact ⟨s, h.known _ s hs, hid⟩
  case enabled =>
    rintro s hs hnode d ⟨hd, hw, hopt⟩
    have hsmem := hmem s hs hnode
    rcases h.covered _ s hsmem d hd hw fun ho => h.turnedOn hsmem (hopt ho) with
      ⟨q, hq⟩ | ⟨info, hinfo, -⟩
    · obtain ⟨ps, qs, -, -, hqs, rfl, -, hfulfils, -⟩ := h.link_ok _ _ _ hq
      exact ⟨qs.packageId, hactive _ _ hqs, Context.edge_toResolve.mpr hq, hfulfils.matchesId⟩
    · cases hinfo
  case semver =>
    intro p hp q hq hname hsource hcompat
    obtain ⟨s, hs, rfl⟩ := Context.isActive_iff.mp (h.mem_nodes.mp hp)
    obtain ⟨t, ht, rfl⟩ := Context.isActive_iff.mp (h.mem_nodes.mp hq)
    have hslot : t.packageId.slot = s.packageId.slot := by
      simp [PackageId.slot, hname, hsource]
    exact h.semver _ s hs t (hslot ▸ ht) hcompat
  case links =>
    intro s t hs ht hsnode htnode link hslink htlink
    have hsl := h.links _ s (hmem s hs hsnode) link hslink
    have htl := h.links _ t (hmem t ht htnode) link htlink
    exact Option.some.inj (hsl.symm.trans htl)
  case reachable =>
    intro p hp
    obtain ⟨root, hroot, hpath⟩ := h.reach p (h.mem_nodes.mp hp)
    refine ⟨root, hroot, ReflTransGen.mono ?_ _ _ hpath⟩
    rintro a b ⟨d, hd⟩
    exact ⟨d, Context.edge_toResolve.mpr hd⟩
  case edges =>
    intro p q d hpq
    obtain ⟨ps, qs, hps, hp, hqs, rfl, hd, hfulfils, -⟩ := hedge p q d hpq
    exact ⟨hactive _ _ hqs, hfulfils.matchesId, ps, h.known _ ps hps, hp, hd⟩
  case edge_features =>
    intro p q d hpq
    obtain ⟨ps, qs, -, -, -, -, -, -, hfeat, -⟩ := hedge p q d hpq
    exact hfeat
  case edge_default =>
    rintro p q d hpq hdefault t ht rfl hmemt
    obtain ⟨ps, qs, -, -, hqs, hid, -, -, -, hrec⟩ := hedge p _ d hpq
    obtain rfl := hU.coherent qs t (h.known _ qs hqs) ht hid
    exact hrec hdefault hmemt
  case feature_asked =>
    intro s hs hnode d hd htrans g hg hasked
    rcases h.asked _ s (hmem s hs hnode) d hd htrans g hg hasked with
      ⟨q, hq, hgq⟩ | ⟨info, hinfo, -⟩
    · exact ⟨q, Context.edge_toResolve.mpr hq, hgq⟩
    · cases hinfo
  case root_asked =>
    intro root hroot d hd hw g hg hasks
    rcases h.root_asked root hroot d hd hw g hg hasks with ⟨q, hq, hgq⟩ | ⟨info, hinfo, -⟩
    · exact ⟨q, Context.edge_toResolve.mpr hq, hgq⟩
    · cases hinfo

/-- Every graph that `resolve` returns is a solution. -/
theorem resolve_sound [DecidableEq R] {L : Type} [DecidableEq L] {env : Env S R}
    {sorted edgeOrder : HashOrder (PackageId S)} {lockSource : S → Option L}
    {roots : List (Summary S R × Method)} {r : Resolve S R}
    (hU : Universe env (Known env roots)) (hslots : (roots.map (·.1.packageId.slot)).Nodup)
    (h : Resolves env sorted edgeOrder lockSource roots r) : SoundResolve env roots r := by
  obtain ⟨cx, hreturns, rfl, -⟩ := h
  have hroots : ∀ root ∈ roots, Known env roots root.1 := fun root hroot =>
    Or.inl ⟨root, hroot, rfl⟩
  exact (sound_of_returns hU hroots hslots hreturns).toResolve hU

end Result

/-! ### An example -/

section Example

/-- What a registry given as a list answers. -/
theorem answer_ofList {env : Env S R} {packages : List (Summary S R)}
    (hregistry : env.registry = .ofList packages) {dep : Dependency S R}
    {summaries : List (Summary S R)} (hdep : env.registry.registry dep = .ok summaries)
    {s : Summary S R} (hs : s ∈ summaries) : s ∈ packages ∧ Fulfils dep s.packageId := by
  rw [hregistry] at hdep
  cases hdep
  simp only [List.mem_filter, Bool.and_eq_true, decide_eq_true_eq] at hs
  obtain ⟨hmem, hslot, haccepts⟩ := hs
  exact ⟨hmem, congrArg Prod.fst hslot, congrArg Prod.snd hslot, haccepts⟩

theorem mem_of_known {env : Env S R} {roots : List (Summary S R × Method)}
    {packages : List (Summary S R)} (hregistry : env.registry = .ofList packages)
    {s : Summary S R} (hs : Known env roots s) : s ∈ roots.map Prod.fst ++ packages := by
  rcases hs with ⟨root, hroot, rfl⟩ | ⟨dep, summaries, hdep, hs⟩
  · exact List.mem_append_left _ (List.mem_map_of_mem hroot)
  · exact List.mem_append_right _ (answer_ofList hregistry hdep hs).1

/-- A registry given as a list, in which every id occurs once, is as assumed. -/
theorem universe_ofList {env : Env S R} {roots : List (Summary S R × Method)}
    {packages : List (Summary S R)} (hregistry : env.registry = .ofList packages)
    (hids : ((roots.map Prod.fst ++ packages).map Summary.packageId).Nodup)
    (hplain : ∀ s ∈ roots.map Prod.fst ++ packages, s.namespacedFeatures = false) :
    Universe env (Known env roots) := by
  have hknown : ∀ s, Known env roots s → s ∈ roots.map Prod.fst ++ packages :=
    fun s hs => mem_of_known hregistry hs
  refine ⟨⟨?_, ?_, by rw [hregistry]; rfl⟩, ?_⟩
  · intro s t hs ht hid
    exact List.inj_on_of_nodup_map hids (hknown s hs) (hknown t ht) hid
  · intro dep summaries hdep s hs
    exact ⟨Or.inr ⟨dep, summaries, hdep, hs⟩, (answer_ofList hregistry hdep hs).2⟩
  · exact fun s hs => hplain s (hknown s hs)

/-- Running the search and the checks shows that `resolve` returns. -/
theorem exists_resolves [DecidableEq R] {L : Type} [DecidableEq L] (env : Env S R)
    (sorted edgeOrder : HashOrder (PackageId S)) (lockSource : S → Option L)
    (roots : List (Summary S R × Method)) (n : ℕ)
    (h : ((step env)^[n] (start env roots)).foundWith (fun cx =>
      (checkCycles sorted edgeOrder cx.toResolve cx.summaryOf).isOk &&
        checkDuplicatePkgsInLockfile lockSource cx.toResolve) = true) :
    ∃ r, Resolves env sorted edgeOrder lockSource roots r := by
  obtain ⟨cx, hrun, h⟩ := Machine.exists_of_foundWith h
  rw [Bool.and_eq_true] at h
  refine ⟨cx.toResolve, cx, ⟨n, hrun⟩, rfl, ?_, h.2⟩
  cases hcycles : checkCycles sorted edgeOrder cx.toResolve cx.summaryOf with
  | ok checked => exact ⟨checked, rfl⟩
  | error e =>
    rw [hcycles] at h
    cases h.1

/-- Version `1.0.0`. -/
def sampleVersion : Version := ⟨1, 0, 0, []⟩

/-- A package with a feature `std`. -/
def sampleLog : Summary ℕ (List Version) where
  packageId := ⟨"log", sampleVersion, 0⟩
  dependencies := []
  features := Finmap.singleton "std" []
  checksum := none
  links := none
  namespacedFeatures := false
  names_disjoint := by decide
  optional_transitive := by decide

/-- A package whose feature `verbose` turns on `log` with its feature `std`. -/
def sampleRand : Summary ℕ (List Version) where
  packageId := ⟨"rand", sampleVersion, 0⟩
  dependencies := [{ Dependency.parse "log" [sampleVersion] 0 with optional := true }]
  features := Finmap.singleton "verbose" [.crateFeature "log" "std"]
  checksum := none
  links := none
  namespacedFeatures := false
  names_disjoint := by decide
  optional_transitive := by decide

/-- A root that asks for `rand` with its feature `verbose`. -/
def sampleRoot : Summary ℕ (List Version) where
  packageId := ⟨"root", sampleVersion, 0⟩
  dependencies := [{ Dependency.parse "rand" [sampleVersion] 0 with features := ["verbose"] }]
  features := ∅
  checksum := none
  links := none
  namespacedFeatures := false
  names_disjoint := by decide
  optional_transitive := by decide

/-- The order in which the example's package ids are enumerated. -/
noncomputable def sampleIds : HashOrder (PackageId ℕ) :=
  .following [sampleRoot.packageId, sampleRand.packageId, sampleLog.packageId]

/-- The two packages as a registry. -/
noncomputable def sampleEnv : Env ℕ (List Version) where
  registry := .ofList [sampleRand, sampleLog]
  heap := .simple
  names _ _ := .following ["verbose", "std", "log"]
  ids _ := sampleIds.toSetOrder

/-- Resolving the example gives a sound graph. -/
theorem resolve_sound_sample : ∃ r,
    Resolves sampleEnv sampleIds sampleIds some [(sampleRoot, .required true [] false true)] r ∧
      SoundResolve sampleEnv [(sampleRoot, .required true [] false true)] r := by
  obtain ⟨r, hr⟩ := exists_resolves sampleEnv sampleIds sampleIds some
    [(sampleRoot, .required true [] false true)] 6 (by decide +kernel)
  exact ⟨r, hr, resolve_sound (universe_ofList rfl (by decide) (by decide)) (by decide) hr⟩

end Example

end Cargo.Resolver
