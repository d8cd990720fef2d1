import Mathlib.Data.Finset.Card
import PugContracts.Proofs.Graph.Dependents

/-!
# Graphs as sets of pairs

A graph is used through a handful of operations, and whoever uses it thinks of a set of pairs: an
edge that is added is a pair that is put in, and a file that is cleared takes away all pairs in
which it comes first. Here the two are run side by side. After any operations the edges of the graph
are the pairs of the set (`pairs_ofOperations`), and every answer can be read off the set
(`answers_ofOperations`). Paths are put in as they are spelled; the pairs are those of their normal
forms.

## Main results

* `pairs_ofOperations` — the edges after any operations
* `answers_ofOperations` — what a graph answers after any operations
-/

namespace PugContracts

namespace DependencyGraph

open Relation

variable {g : DependencyGraph} {p q : Path}

/-! ### The set of pairs -/

/-- The edges as a set of pairs. -/
def pairs (g : DependencyGraph) : Finset (Path × Path) :=
  g.edges.toFinset

theorem mem_pairs : (p, q) ∈ g.pairs ↔ g.Edge p q := by
  rw [pairs, List.mem_toFinset, Edge]

/-- A change of a graph. -/
inductive Operation where
  /-- Record that a file depends on another one. -/
  | add (file dependency : Path)
  /-- Forget what a file depends on. -/
  | clear (file : Path)

/-- The graph after an operation. -/
def Operation.apply (g : DependencyGraph) : Operation → DependencyGraph
  | add file dependency => g.add file dependency
  | clear file => g.clear file

/-- The pairs after an operation. -/
def Operation.onPairs (pairs : Finset (Path × Path)) : Operation → Finset (Path × Path)
  | add file dependency => insert (file.normalize, dependency.normalize) pairs
  | clear file => pairs.filter fun pair => pair.1 ≠ file.normalize

/-- **An operation does to the edges what it does to the pairs.** -/
theorem pairs_apply (g : DependencyGraph) (operation : Operation) :
    (operation.apply g).pairs = operation.onPairs g.pairs := by
  ext ⟨p, q⟩
  cases operation with
  | add file dependency =>
    rw [Operation.apply, Operation.onPairs, mem_pairs, edge_add, Finset.mem_insert, mem_pairs]
  | clear file =>
    rw [Operation.apply, Operation.onPairs, mem_pairs, edge_clear, Finset.mem_filter, mem_pairs,
      and_comm]

/-- The graph after operations on the empty one. -/
def ofOperations (operations : List Operation) : DependencyGraph :=
  operations.foldl Operation.apply empty

/-- The pairs after operations on the empty set. -/
def pairsOf (operations : List Operation) : Finset (Path × Path) :=
  operations.foldl Operation.onPairs ∅

/-- **The edges after any operations** are the pairs after these operations. -/
theorem pairs_ofOperations (operations : List Operation) :
    (ofOperations operations).pairs = pairsOf operations := by
  have hrun : ∀ g : DependencyGraph, (operations.foldl Operation.apply g).pairs =
      operations.foldl Operation.onPairs g.pairs := by
    induction operations with
    | nil => exact fun _ => rfl
    | cons operation rest ih =>
      intro g
      rw [List.foldl_cons, List.foldl_cons, ih, pairs_apply]
  exact hrun empty

/-! ### What the answers say of the pairs -/

/-- A pair is an arc between the numbers of its files. -/
theorem mem_pairs_iff_arc {file dependency : Path} :
    (file.normalize, dependency.normalize) ∈ g.pairs ↔
      ∃ i j, g.node? file = some i ∧ g.node? dependency = some j ∧ g.graph.Arc i j := by
  rw [mem_pairs, edge_iff]
  constructor
  · rintro ⟨i, j, harc, hi, hj⟩
    exact ⟨i, j, node?_eq_some_iff.mpr hi, node?_eq_some_iff.mpr hj, harc⟩
  · rintro ⟨i, j, hi, hj, harc⟩
    exact ⟨i, j, harc, node?_eq_some_iff.mp hi, node?_eq_some_iff.mp hj⟩

/-- There is one arc for each pair. -/
theorem edgeCount_eq_card (g : DependencyGraph) : g.edgeCount = g.pairs.card := by
  have hnodup : g.edges.Nodup := by
    refine g.inStep.unique.filterMap fun arc arc' edge hedge hedge' => ?_
    obtain ⟨hi, hj⟩ := edge?_eq_some_iff.mp hedge
    obtain ⟨hi', hj'⟩ := edge?_eq_some_iff.mp hedge'
    exact Prod.ext (weight?_inj hi hi') (weight?_inj hj hj')
  have hlength : g.edges.length = g.graph.arcs.length := by
    rw [PathGraph.edges, List.length_filterMap_eq_countP, List.countP_eq_length]
    intro arc harc
    obtain ⟨p, q, hedge, -⟩ := exists_edge? harc
    rw [hedge]
    rfl
  rw [edgeCount, ← hlength, pairs, List.toFinset_card_of_nodup hnodup]

/-- A chain of edges is a chain of pairs. -/
theorem transGen_pairs : TransGen (fun a b => (a, b) ∈ g.pairs) p q ↔ TransGen g.Edge p q := by
  have hsame : (fun a b => (a, b) ∈ g.pairs) = g.Edge :=
    funext fun _ => funext fun _ => propext mem_pairs
  rw [hsame]

/-- Pairs are grouped by their first components: each stands once, in the order of paths, with the
second components that it is paired with, in the order of paths. -/
structure Groups (pairs : Finset (Path × Path)) (groups : List (Path × List Path)) : Prop where
  /-- The first components stand in order. -/
  increasing : Path.Increasing (groups.map Prod.fst)
  /-- Each has a second component, and these stand in order. -/
  group : ∀ group ∈ groups, group.2 ≠ [] ∧ Path.Increasing group.2
  /-- What is paired stands together. -/
  mem : ∀ p q, (p, q) ∈ pairs ↔ ∃ group ∈ groups, group.1 = p ∧ q ∈ group.2

/-- **The adjacency groups the pairs.** -/
theorem groups_adjacency (g : DependencyGraph) : Groups g.pairs g.adjacency := by
  refine ⟨g.increasing_adjacency, fun group hgroup => ?_, fun p q => ?_⟩
  · obtain ⟨⟨q, hedge⟩, hget⟩ := mem_adjacency_iff.mp hgroup
    have hq : q ∈ g.get group.1 := mem_get_iff.mpr (hedge.left_normal.symm ▸ hedge)
    rw [hget]
    exact ⟨List.ne_nil_of_mem hq, g.increasing_searchFrom _ _⟩
  · rw [mem_pairs]
    constructor
    · intro hedge
      exact ⟨(p, g.get p), mem_adjacency_iff.mpr ⟨⟨q, hedge⟩, rfl⟩, rfl,
        mem_get_iff.mpr (hedge.left_normal.symm ▸ hedge)⟩
    · rintro ⟨group, hgroup, rfl, hq⟩
      obtain ⟨⟨_, hedge⟩, hget⟩ := mem_adjacency_iff.mp hgroup
      have hq := mem_get_iff.mp (hget ▸ hq)
      rwa [hedge.left_normal] at hq

/-- **A graph answers as its set of pairs does**, after any operations and for every spelling of a
path. Its arcs join the numbers of the files that are paired, whatever nodes were added and arcs
taken out before. What a file depends on is its image under the pairs; edges are counted and listed
pair by pair, and the listing gives the same pairs back. The dependents and the dependencies of a
file are the others from which and to which a chain of pairs leads, on cycles too. Files are always
listed in order, each once. -/
theorem answers_ofOperations (operations : List Operation) :
    (∀ file dependency, (file.normalize, dependency.normalize) ∈ pairsOf operations ↔
      ∃ i j, (ofOperations operations).node? file = some i ∧
        (ofOperations operations).node? dependency = some j ∧
        (ofOperations operations).graph.Arc i j) ∧
    (∀ file, Path.Increasing ((ofOperations operations).get file) ∧
      ∀ q, q ∈ (ofOperations operations).get file ↔ (file.normalize, q) ∈ pairsOf operations) ∧
    (ofOperations operations).edgeCount = (pairsOf operations).card ∧
    Groups (pairsOf operations) (ofOperations operations).adjacency ∧
    (ofAdjacency (ofOperations operations).adjacency).pairs = pairsOf operations ∧
    (∀ file, Path.Increasing ((ofOperations operations).dependentsOf file) ∧
      ∀ p, p ∈ (ofOperations operations).dependentsOf file ↔ p ≠ file.normalize ∧
        TransGen (fun a b => (a, b) ∈ pairsOf operations) p file.normalize) ∧
    (∀ file, Path.Increasing ((ofOperations operations).dependenciesOf file) ∧
      ∀ p, p ∈ (ofOperations operations).dependenciesOf file ↔ p ≠ file.normalize ∧
        TransGen (fun a b => (a, b) ∈ pairsOf operations) file.normalize p) := by
  rw [← pairs_ofOperations]
  generalize ofOperations operations = g
  have hordered := g.increasing_searchFrom
  refine ⟨fun file dependency => mem_pairs_iff_arc, fun file => ⟨hordered file _, fun q => ?_⟩,
    g.edgeCount_eq_card, g.groups_adjacency, ?_, fun file => ⟨hordered file _, fun p => ?_⟩,
    fun file => ⟨hordered file _, fun p => ?_⟩⟩
  · rw [mem_get_iff, mem_pairs]
  · ext ⟨p, q⟩
    rw [mem_pairs, mem_pairs, edge_ofAdjacency_adjacency]
  · rw [mem_dependentsOf_iff, transGen_pairs]
  · rw [mem_dependenciesOf_iff, transGen_pairs]

end DependencyGraph

end PugContracts
