import Cargo.Math.Iteration
import Mathlib.Data.Finmap
import Mathlib.Data.Finset.Card
import Mathlib.Data.List.Chain

/-!
# Labelled graphs

The graph of a resolution: nodes, and for each node its successors with a label. Messages about a
node show a path up from it, on which every node has the one before it as a successor.

## Main definitions

* `Graph`, `Graph.add`, `Graph.link`
* `Graph.edges`, `Graph.edge` — the successors of a node, and the label of an edge
* `Graph.pathToTop` — a path up

## Main results

* `Graph.pathToTop_spec` — the path repeats nothing and cannot be continued
-/

set_option autoImplicit false

namespace Cargo.Util

open Cargo.Math

/-- A graph with nodes in `N` and labels in `E`. -/
structure Graph (N E : Type) where
  nodes : Finmap fun _ : N => Finmap fun _ : N => E

namespace Graph

variable {N E : Type} [DecidableEq N]

/-- The graph without nodes. -/
def new : Graph N E := ⟨∅⟩

/-- The successors of a node with their labels. -/
def edges (g : Graph N E) (node : N) : Finmap fun _ : N => E := (g.nodes.lookup node).getD ∅

/-- The label of an edge. -/
def edge (g : Graph N E) (source target : N) : Option E := (g.edges source).lookup target

/-- Add a node. -/
def add (g : Graph N E) (node : N) : Graph N E := ⟨g.nodes.insert node (g.edges node)⟩

/-- Add an edge if there is none, and change its label. -/
def link [Inhabited E] (g : Graph N E) (node child : N) (f : E → E) : Graph N E :=
  ⟨g.nodes.insert node
    ((g.edges node).insert child (f (((g.edges node).lookup child).getD default)))⟩

@[simp] theorem mem_add {g : Graph N E} {node a : N} :
    a ∈ (g.add node).nodes ↔ a = node ∨ a ∈ g.nodes := Finmap.mem_insert

@[simp] theorem mem_link [Inhabited E] {g : Graph N E} {node child a : N} {f : E → E} :
    a ∈ (g.link node child f).nodes ↔ a = node ∨ a ∈ g.nodes := Finmap.mem_insert

@[simp] theorem edges_add {g : Graph N E} {node : N} : (g.add node).edges = g.edges := by
  funext a
  by_cases h : a = node
  · subst h
    simp [edges, add]
  · simp [edges, add, Finmap.lookup_insert_of_ne _ h]

theorem edges_link_self [Inhabited E] {g : Graph N E} {node child : N} {f : E → E} :
    (g.link node child f).edges node =
      (g.edges node).insert child (f (((g.edges node).lookup child).getD default)) := by
  simp [edges, link]

theorem edges_link_of_ne [Inhabited E] {g : Graph N E} {node child a : N} {f : E → E}
    (h : a ≠ node) : (g.link node child f).edges a = g.edges a := by
  simp [edges, link, Finmap.lookup_insert_of_ne _ h]

/-! ### Paths up -/

/-- The first node met that has `node` as a successor and is not on the path. -/
def firstDependingOn (ho : HashOrder N) (g : Graph N E) (node : N) (path : List N) : Option N :=
  (ho.enum g.nodes.keys).find? fun parent => decide (node ∈ g.edges parent ∧ parent ∉ path)

/-- Go on from the last node of a path. -/
def extendToTop (ho : HashOrder N) (g : Graph N E) : ℕ → N → List N → List N
  | 0, _, path => path
  | n + 1, node, path =>
    match firstDependingOn ho g node path with
    | none => path
    | some parent => extendToTop ho g n parent (path ++ [parent])

/-- One of the paths from a node up to a root. Every turn but the last takes a new node. -/
def pathToTop (ho : HashOrder N) (g : Graph N E) (node : N) : List N :=
  extendToTop ho g (g.nodes.keys.card + 1) node [node]

section PathToTop

variable {ho : HashOrder N} {g : Graph N E} {node : N} {path : List N}

theorem firstDependingOn_eq_some {parent : N}
    (h : firstDependingOn ho g node path = some parent) :
    parent ∈ g.nodes ∧ node ∈ g.edges parent ∧ parent ∉ path := by
  have hmem := List.mem_of_find?_eq_some h
  have hsome := List.find?_some h
  rw [SetOrder.mem_enum, Finmap.mem_keys] at hmem
  exact ⟨hmem, of_decide_eq_true hsome⟩

theorem mem_of_mem_edges {parent : N} (h : node ∈ g.edges parent) : parent ∈ g.nodes := by
  by_contra hnot
  rw [edges, Finmap.lookup_eq_none.mpr hnot] at h
  exact Finmap.notMem_empty h

theorem firstDependingOn_eq_none (h : firstDependingOn ho g node path = none) {parent : N}
    (hedge : node ∈ g.edges parent) : parent ∈ path := by
  have hnone := List.find?_eq_none.mp h parent
    (SetOrder.mem_enum _ |>.mpr (Finmap.mem_keys.mpr (mem_of_mem_edges hedge)))
  by_contra hnot
  exact hnone (decide_eq_true ⟨hedge, hnot⟩)

/-- A path up: every node has the one before it as a successor, and none is met twice. -/
structure IsPathUp (g : Graph N E) (path : List N) : Prop where
  isChain : path.IsChain fun node parent => node ∈ g.edges parent
  nodup : path.Nodup

theorem IsPathUp.concat (h : IsPathUp g path) {parent : N} (hlast : path.getLast? = some node)
    (hedge : node ∈ g.edges parent) (hnot : parent ∉ path) : IsPathUp g (path ++ [parent]) where
  isChain := by
    refine List.IsChain.append h.isChain (List.isChain_singleton _) ?_
    intro a ha b hb
    rw [hlast, Option.mem_some_iff] at ha
    rw [List.head?_cons, Option.mem_some_iff] at hb
    exact ha ▸ hb ▸ hedge
  nodup := List.Nodup.append h.nodup (List.nodup_singleton _)
    (List.disjoint_singleton.mpr hnot)

/-- With enough turns the path goes on until there is no way on. -/
theorem extendToTop_spec {n : ℕ} (h : IsPathUp g path) (hlast : path.getLast? = some node)
    (hn : (g.nodes.keys \ path.toFinset).card < n) :
    ∃ rest top, extendToTop ho g n node path = path ++ rest ∧ IsPathUp g (path ++ rest) ∧
      (path ++ rest).getLast? = some top ∧
        ∀ parent, top ∈ g.edges parent → parent ∈ path ++ rest := by
  induction n generalizing node path with
  | zero => exact absurd hn (Nat.not_lt_zero _)
  | succ n ih =>
    rw [extendToTop]
    cases hfirst : firstDependingOn ho g node path with
    | none =>
      refine ⟨[], node, by simp, by simpa using h, by simpa using hlast, ?_⟩
      intro parent hparent
      simpa using firstDependingOn_eq_none hfirst hparent
    | some parent =>
      obtain ⟨hmem, hedge, hnot⟩ := firstDependingOn_eq_some hfirst
      have hlt : (g.nodes.keys \ (path ++ [parent]).toFinset).card < n := by
        refine Nat.lt_of_lt_of_le (Finset.card_lt_card ?_) (Nat.le_of_lt_succ hn)
        rw [Finset.ssubset_iff_of_subset]
        · refine ⟨parent, ?_, ?_⟩
          · exact Finset.mem_sdiff.mpr ⟨Finmap.mem_keys.mpr hmem, by simpa using hnot⟩
          · exact fun hmem => (Finset.mem_sdiff.mp hmem).2 (by simp)
        · intro k hk
          simp only [Finset.mem_sdiff, List.mem_toFinset, List.mem_append, not_or] at hk ⊢
          exact ⟨hk.1, hk.2.1⟩
      have hlast' : (path ++ [parent]).getLast? = some parent := List.getLast?_concat
      obtain ⟨rest, top, heq, hpath, htop, hmax⟩ := ih (h.concat hlast hedge hnot) hlast' hlt
      simp only [List.append_assoc] at heq hpath htop hmax
      exact ⟨[parent] ++ rest, top, heq, hpath, htop, hmax⟩

/-- The path starts at the node, goes up without repetition, and ends where every way on leads
back to it. -/
theorem pathToTop_spec (ho : HashOrder N) (g : Graph N E) (node : N) :
    ∃ rest top, pathToTop ho g node = node :: rest ∧ IsPathUp g (node :: rest) ∧
      (node :: rest).getLast? = some top ∧
        ∀ parent, top ∈ g.edges parent → parent ∈ node :: rest := by
  have hstart : IsPathUp g [node] := ⟨List.isChain_singleton _, List.nodup_singleton _⟩
  have hlt : (g.nodes.keys \ [node].toFinset).card < g.nodes.keys.card + 1 :=
    Nat.lt_succ_of_le (Finset.card_le_card Finset.sdiff_subset)
  exact extendToTop_spec hstart rfl hlt

end PathToTop

end Graph

end Cargo.Util
