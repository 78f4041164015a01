import Mathlib.Data.List.Nodup
import Mathlib.Tactic.Common

/-!
# Gathering by a depth-first walk

A walk goes through a list of places. A place that is new and may join is put at the end of the
list of those gathered, and the places next to it are walked before the rest. Whether a place may
join can depend on how it was come by, so a place may be refused at first and join later. At the
end exactly those places are gathered that a chain of places that may join leads to.

## Main definitions

* `Walk` — a walk from the places gathered before it to those gathered after it
* `Gathered` — the least set of places that the walk has to gather

## Main results

* `Walk.nodup` — no place is gathered twice
* `Walk.mem_iff` — a walk gathers the least set
-/

set_option autoImplicit false

namespace Cargo.Math

variable {K P : Type*}

/-- Where a walk may go: whether a place that is come by in some way may join, and the places
next to one that has joined, with the way to come by them. -/
structure Terrain (K P : Type*) where
  admits : K → P → Prop
  next : P → List (K × P)

namespace Terrain

variable (t : Terrain K P)

/-- A walk through a list of places. -/
inductive Walk : List (K × P) → List P → List P → Prop
  | nil (acc : List P) : Walk [] acc acc
  /-- The place has joined before. -/
  | met {k : K} {p : P} {rest : List (K × P)} {acc acc' : List P} (hmem : p ∈ acc)
    (hrest : Walk rest acc acc') : Walk ((k, p) :: rest) acc acc'
  | refused {k : K} {p : P} {rest : List (K × P)} {acc acc' : List P} (hnew : p ∉ acc)
    (hrefused : ¬t.admits k p) (hrest : Walk rest acc acc') : Walk ((k, p) :: rest) acc acc'
  | joined {k : K} {p : P} {rest : List (K × P)} {acc mid acc' : List P} (hnew : p ∉ acc)
    (hadmits : t.admits k p) (hnext : Walk (t.next p) (acc ++ [p]) mid)
    (hrest : Walk rest mid acc') : Walk ((k, p) :: rest) acc acc'

/-- What has to be gathered: the places to start from that may join, and with every place those
next to it that may join. -/
inductive Gathered (starts : List (K × P)) : P → Prop
  | start {k : K} {p : P} (hmem : (k, p) ∈ starts) (hadmits : t.admits k p) : Gathered starts p
  | next {k : K} {p q : P} (hp : Gathered starts p) (hmem : (k, q) ∈ t.next p)
    (hadmits : t.admits k q) : Gathered starts q

variable {t}

theorem Gathered.mono {starts starts' : List (K × P)} (hsub : ∀ s ∈ starts, s ∈ starts') {p : P}
    (h : t.Gathered starts p) : t.Gathered starts' p := by
  induction h with
  | start hmem hadmits => exact .start (hsub _ hmem) hadmits
  | next _ hmem hadmits ih => exact .next ih hmem hadmits

namespace Walk

variable {work : List (K × P)} {acc acc' : List P}

/-- Walks one after the other. -/
theorem append {work' : List (K × P)} {mid : List P} (h : t.Walk work acc mid)
    (h' : t.Walk work' mid acc') : t.Walk (work ++ work') acc acc' := by
  induction h with
  | nil acc => exact h'
  | met hmem _ ih => exact .met hmem (ih h')
  | refused hnew hrefused _ ih => exact .refused hnew hrefused (ih h')
  | joined hnew hadmits hnext _ _ ih => exact .joined hnew hadmits hnext (ih h')

/-- What was gathered stays. -/
theorem subset (h : t.Walk work acc acc') : acc ⊆ acc' := by
  induction h with
  | nil acc => exact List.Subset.refl acc
  | met _ _ ih => exact ih
  | refused _ _ _ ih => exact ih
  | joined _ _ _ _ ihnext ihrest =>
    exact fun q hq => ihrest (ihnext (List.mem_append_left _ hq))

/-- No place is gathered twice. -/
theorem nodup (h : t.Walk work acc acc') (hacc : acc.Nodup) : acc'.Nodup := by
  induction h with
  | nil acc => exact hacc
  | met _ _ ih => exact ih hacc
  | refused _ _ _ ih => exact ih hacc
  | joined hnew _ _ _ ihnext ihrest =>
    apply ihrest
    apply ihnext
    rw [List.nodup_append]
    refine ⟨hacc, List.nodup_singleton _, fun a ha b hb => ?_⟩
    rw [List.mem_singleton.mp hb]
    exact fun heq => hnew (heq ▸ ha)

/-- A place on the list that may join has joined in the end. -/
theorem mem_of_admits (h : t.Walk work acc acc') {k : K} {p : P} (hmem : (k, p) ∈ work)
    (hadmits : t.admits k p) : p ∈ acc' := by
  induction h with
  | nil acc => cases hmem
  | met hacc hrest ih =>
    rcases List.mem_cons.mp hmem with heq | hmem
    · cases heq
      exact hrest.subset hacc
    · exact ih hmem
  | refused _ hrefused _ ih =>
    rcases List.mem_cons.mp hmem with heq | hmem
    · cases heq
      exact absurd hadmits hrefused
    · exact ih hmem
  | joined _ _ hnext hrest _ ihrest =>
    rcases List.mem_cons.mp hmem with heq | hmem
    · cases heq
      exact hrest.subset (hnext.subset (List.mem_append_right _ (List.mem_singleton.mpr rfl)))
    · exact ihrest hmem

/-- What has joined on the walk has its neighbours with it. -/
theorem closed (h : t.Walk work acc acc') {p : P} (hp : p ∈ acc') (hnew : p ∉ acc) {k : K} {q : P}
    (hmem : (k, q) ∈ t.next p) (hadmits : t.admits k q) : q ∈ acc' := by
  induction h with
  | nil acc => exact absurd hp hnew
  | met _ _ ih => exact ih hp hnew
  | refused _ _ _ ih => exact ih hp hnew
  | @joined _ p' _ acc mid _ _ _ hnext hrest ihnext ihrest =>
    -- either the place is the one that joins here, or it joins on one of the two walks
    by_cases hmid : p ∈ mid
    · apply hrest.subset
      by_cases heq : p = p'
      · subst heq
        exact hnext.mem_of_admits hmem hadmits
      · apply ihnext hmid
        rw [List.mem_append, List.mem_singleton]
        exact not_or.mpr ⟨hnew, heq⟩
    · exact ihrest hp hmid

/-- Only what has to be gathered joins. -/
theorem gathered (h : t.Walk work acc acc') {starts : List (K × P)}
    (hacc : ∀ p ∈ acc, t.Gathered starts p)
    (hwork : ∀ k p, (k, p) ∈ work → t.admits k p → t.Gathered starts p) :
    ∀ p ∈ acc', t.Gathered starts p := by
  induction h with
  | nil acc => exact hacc
  | met _ _ ih => exact ih hacc fun k p hmem => hwork k p (List.mem_cons_of_mem _ hmem)
  | refused _ _ _ ih => exact ih hacc fun k p hmem => hwork k p (List.mem_cons_of_mem _ hmem)
  | @joined k p _ _ _ _ _ hadmits _ _ ihnext ihrest =>
    have hp : t.Gathered starts p := hwork k p List.mem_cons_self hadmits
    refine ihrest (ihnext ?_ ?_) fun k p hmem => hwork k p (List.mem_cons_of_mem _ hmem)
    · intro q hq
      rcases List.mem_append.mp hq with hq | hq
      · exact hacc q hq
      · exact List.mem_singleton.mp hq ▸ hp
    · exact fun k q hmem hq => .next hp hmem hq

/-- A walk that begins with nothing gathers exactly what has to be gathered. -/
theorem mem_iff (h : t.Walk work [] acc') {p : P} : p ∈ acc' ↔ t.Gathered work p := by
  constructor
  · exact h.gathered (fun p hp => absurd hp List.not_mem_nil)
      (fun k p hmem hadmits => .start hmem hadmits) p
  · intro hp
    induction hp with
    | start hmem hadmits => exact h.mem_of_admits hmem hadmits
    | next _ hmem hadmits ih => exact h.closed ih List.not_mem_nil hmem hadmits

end Walk

end Terrain

end Cargo.Math
