import PugContracts.Graph.Numbered
import PugContracts.Path.Map
import PugContracts.Path.Normal

/-!
# The dependency graph

An edge from `a` to `b` says that `a` depends on `b`: it extends or includes it, or imports a type
from it. When `b` changes, everything from which a chain of edges leads to `b` has to be checked
again.

The files are the weights of a graph with numbered nodes, beside which a map holds the number of
each file. Paths are normalized on the way in, so a file has one node however it is spelled. Graph
and map are changed in different places and have to stay in step: what `PathGraph.InStep` says of
them is kept by every operation, and is part of the type `DependencyGraph`. Clearing a file takes
its arcs out and leaves its node, which is found again when the file is added later. All answers are
in the order of paths.
-/

namespace PugContracts

/-- A graph of files, with the number of each file. -/
structure PathGraph where
  /-- The graph; the weights of its nodes are the files. -/
  graph : NumberedGraph Path
  /-- The numbers of the files. -/
  numbers : PathMap Nat

namespace PathGraph

/-- The graph without files. -/
def empty : PathGraph :=
  ⟨.empty, .empty⟩

/-- The node of a file, which is added if there is none. -/
def ensureNode (g : PathGraph) (file : Path) : PathGraph × Nat :=
  match g.numbers.find? file with
  | some node => (g, node)
  | none =>
    let (graph, node) := g.graph.addNode file
    (⟨graph, g.numbers.insert file node⟩, node)

/-- The node of a file. -/
def node? (g : PathGraph) (file : Path) : Option Nat :=
  g.numbers.find? file.normalize

/-- Record that `file` depends on `dependency`. -/
def add (g : PathGraph) (file dependency : Path) : PathGraph :=
  let (g, source) := g.ensureNode file.normalize
  let (g, target) := g.ensureNode dependency.normalize
  if g.graph.joins source target then g else ⟨g.graph.addArc source target, g.numbers⟩

/-- Forget what `file` depends on. What depends on it stays. -/
def clear (g : PathGraph) (file : Path) : PathGraph :=
  match g.node? file with
  | some node => ⟨g.graph.clearNode node, g.numbers⟩
  | none => g

/-- The files that an arc joins. -/
def edge? (g : PathGraph) (arc : Nat × Nat) : Option (Path × Path) :=
  match g.graph.weight? arc.1, g.graph.weight? arc.2 with
  | some file, some dependency => some (file, dependency)
  | _, _ => none

/-- The edges as pairs of files; the first file depends on the second. -/
def edges (g : PathGraph) : List (Path × Path) :=
  g.graph.arcs.filterMap g.edge?

/-! ### Graph and numbers in step -/

/-- The numbers are those of the nodes, and the arcs join nodes. -/
structure InStep (g : PathGraph) : Prop where
  /-- The files have normal paths. -/
  normal : ∀ file ∈ g.graph.weights, file.normalize = file
  /-- A file is found under the number of its node. -/
  find?_iff : ∀ {file node}, file.normalize = file →
    (g.numbers.find? file = some node ↔ g.graph.weight? node = some file)
  /-- The arcs join nodes. -/
  bounded : ∀ arc ∈ g.graph.arcs,
    arc.1 < g.graph.weights.length ∧ arc.2 < g.graph.weights.length
  /-- No two nodes are joined twice. -/
  unique : g.graph.arcs.Nodup

theorem inStep_empty : InStep empty where
  normal file h := absurd h List.not_mem_nil
  find?_iff _ := by simp [empty, NumberedGraph.empty, NumberedGraph.weight?]
  bounded arc h := absurd h List.not_mem_nil
  unique := List.nodup_nil

variable {g : PathGraph}

/-- A file without a number has no node. -/
theorem InStep.weight?_ne (h : g.InStep) {file : Path} (hfile : file.normalize = file)
    (hnone : g.numbers.find? file = none) (node : Nat) : g.graph.weight? node ≠ some file := by
  intro hnode
  rw [(h.find?_iff hfile).mpr hnode] at hnone
  cases hnone

/-- A file without a number gets that of a new node. -/
theorem InStep.addNode (h : g.InStep) {file : Path} (hfile : file.normalize = file)
    (hnone : g.numbers.find? file = none) :
    InStep ⟨(g.graph.addNode file).1, g.numbers.insert file (g.graph.addNode file).2⟩ where
  normal other hother := by
    rcases List.mem_append.mp hother with hother | hother
    · exact h.normal other hother
    · rw [List.mem_singleton.mp hother, hfile]
  find?_iff {other node} hother := by
    show (g.numbers.insert file g.graph.weights.length).find? other = some node ↔ _
    rw [PathMap.find?_insert, NumberedGraph.weight?_addNode]
    by_cases hsame : other = file
    · rw [hsame, if_pos Std.ReflCmp.compare_self]
      split
      · next heq => rw [heq, eq_self, eq_self]
      · next hne =>
        exact iff_of_false (fun heq => hne (Option.some.inj heq).symm)
          (h.weight?_ne hfile hnone node)
    · rw [if_neg (mt (Path.compare_eq_iff hother hfile).mp hsame), h.find?_iff hother]
      split
      · next heq =>
        refine iff_of_false (fun hnode => ?_) fun heq => hsame (Option.some.inj heq).symm
        exact Nat.lt_irrefl _ (heq ▸ NumberedGraph.lt_of_weight? hnode)
      · rfl
  bounded arc harc := by
    have hbound := h.bounded arc harc
    have hlength := (List.prefix_append g.graph.weights [file]).length_le
    exact ⟨Nat.lt_of_lt_of_le hbound.1 hlength, Nat.lt_of_lt_of_le hbound.2 hlength⟩
  unique := h.unique

/-- **A node is there once it is ensured**: its file is found under its number, the other nodes keep
theirs, and no arc is added. -/
theorem InStep.ensureNode (h : g.InStep) {file : Path} (hfile : file.normalize = file) :
    (g.ensureNode file).1.InStep ∧
      (g.ensureNode file).1.graph.weight? (g.ensureNode file).2 = some file ∧
      (∀ {node other}, g.graph.weight? node = some other →
        (g.ensureNode file).1.graph.weight? node = some other) ∧
      (g.ensureNode file).1.graph.arcs = g.graph.arcs := by
  rw [PathGraph.ensureNode]
  split
  · next node hfound => exact ⟨h, (h.find?_iff hfile).mp hfound, id, rfl⟩
  · next hnone =>
    have hweight := g.graph.weight?_addNode file
    refine ⟨h.addNode hfile hnone, (hweight _).trans (if_pos rfl), fun {node other} hnode => ?_,
      rfl⟩
    exact (hweight node).trans
      ((if_neg (Nat.ne_of_lt (NumberedGraph.lt_of_weight? hnode))).trans hnode)

/-- Adding an edge ensures two nodes and joins them. -/
theorem InStep.add_spec (h : g.InStep) (file dependency : Path) :
    ∃ (ensured : PathGraph) (source target : Nat), ensured.InStep ∧
      ensured.graph.weight? source = some file.normalize ∧
      ensured.graph.weight? target = some dependency.normalize ∧
      (∀ {node other}, g.graph.weight? node = some other →
        ensured.graph.weight? node = some other) ∧
      ensured.graph.arcs = g.graph.arcs ∧
      g.add file dependency =
        if ensured.graph.joins source target then ensured
        else ⟨ensured.graph.addArc source target, ensured.numbers⟩ := by
  obtain ⟨hfirst, hsource, hkeeps, harcs⟩ := h.ensureNode file.normalize_normalize
  obtain ⟨hsecond, htarget, hkeeps', harcs'⟩ := hfirst.ensureNode dependency.normalize_normalize
  exact ⟨_, _, _, hsecond, hkeeps' hsource, htarget, fun hnode => hkeeps' (hkeeps hnode),
    harcs'.trans harcs, rfl⟩

theorem InStep.add (h : g.InStep) (file dependency : Path) : (g.add file dependency).InStep := by
  obtain ⟨ensured, source, target, hensured, hsource, htarget, -, -, hadd⟩ :=
    h.add_spec file dependency
  rw [hadd]
  split
  · exact hensured
  · next hnew =>
    have hnew : (source, target) ∉ ensured.graph.arcs := by simpa [NumberedGraph.joins] using hnew
    refine ⟨hensured.normal, hensured.find?_iff, fun arc harc => ?_,
      List.nodup_append.mpr ⟨hensured.unique, List.pairwise_singleton _ _, ?_⟩⟩
    · rcases List.mem_append.mp harc with harc | harc
      · exact hensured.bounded arc harc
      · rw [List.mem_singleton.mp harc]
        exact ⟨NumberedGraph.lt_of_weight? hsource, NumberedGraph.lt_of_weight? htarget⟩
    · rintro arc harc _ hlast rfl
      exact hnew (List.mem_singleton.mp hlast ▸ harc)

theorem InStep.clear (h : g.InStep) (file : Path) : (g.clear file).InStep := by
  rw [PathGraph.clear]
  split
  · next node _ =>
    obtain ⟨hweights, hperm⟩ := g.graph.clearNode_spec node
    refine ⟨fun other hother => ?_, fun hother => ?_, fun arc harc => ?_, ?_⟩
    · exact h.normal other (hweights ▸ hother)
    · rw [h.find?_iff hother, NumberedGraph.weight?, NumberedGraph.weight?, hweights]
    · rw [hweights]
      exact h.bounded arc (List.mem_filter.mp (hperm.subset harc)).1
    · exact hperm.nodup_iff.mpr (h.unique.filter _)
  · exact h

end PathGraph

/-- Which files depend on which. -/
structure DependencyGraph extends PathGraph where
  /-- The numbers are those of the nodes. -/
  inStep : toPathGraph.InStep

namespace DependencyGraph

/-- The graph without edges. -/
def empty : DependencyGraph :=
  ⟨.empty, PathGraph.inStep_empty⟩

instance : EmptyCollection DependencyGraph := ⟨empty⟩

instance : Inhabited DependencyGraph := ⟨empty⟩

/-- Record that `file` depends on `dependency`. -/
def add (g : DependencyGraph) (file dependency : Path) : DependencyGraph :=
  ⟨g.toPathGraph.add file dependency, g.inStep.add file dependency⟩

/-- Forget what `file` depends on. What depends on it stays. -/
def clear (g : DependencyGraph) (file : Path) : DependencyGraph :=
  ⟨g.toPathGraph.clear file, g.inStep.clear file⟩

/-- Every file with a node. -/
def nodes (g : DependencyGraph) : List Path :=
  g.graph.weights

/-- The number of edges. -/
def edgeCount (g : DependencyGraph) : Nat :=
  g.graph.arcs.length

/-- The files of some nodes, in order. -/
def files (g : DependencyGraph) (nodes : List Nat) : List Path :=
  Path.ordered (nodes.filterMap g.graph.weight?)

theorem files_subset (g : DependencyGraph) (nodes : List Nat) : g.files nodes ⊆ g.nodes := by
  intro file hfile
  obtain ⟨node, -, hweight⟩ := List.mem_filterMap.mp (Path.of_mem_ordered hfile)
  exact List.mem_of_getElem? hweight

/-- The files of the nodes that a search from the node of `file` finds. -/
def searchFrom (g : DependencyGraph) (file : Path) (search : Nat → List Nat) : List Path :=
  match g.node? file with
  | some node => g.files (search node)
  | none => []

theorem searchFrom_subset (g : DependencyGraph) (file : Path) (search : Nat → List Nat) :
    g.searchFrom file search ⊆ g.nodes := by
  rw [searchFrom]
  split
  · exact g.files_subset _
  · exact List.nil_subset _

/-- What `file` depends on directly. -/
def get (g : DependencyGraph) (file : Path) : List Path :=
  g.searchFrom file g.graph.successors

/-- Every file from which a chain of edges leads to `file`, other than `file`. -/
def dependentsOf (g : DependencyGraph) (file : Path) : List Path :=
  g.searchFrom file fun start => (g.graph.above start).filter (· != start)

/-- Every file to which a chain of edges leads from `file`, other than `file`. -/
def dependenciesOf (g : DependencyGraph) (file : Path) : List Path :=
  g.searchFrom file fun start => (g.graph.below start).filter (· != start)

/-- Whether the nodes of a component are on a cycle: if there are several, or the only one is joined
to itself. -/
def isCycle (g : DependencyGraph) (component : List Nat) : Bool :=
  component.length > 1 || component.head?.any fun node => g.graph.joins node node

/-- The files of each component that is a cycle. The files of a cycle are sorted, and so are the
cycles. -/
def cycles (g : DependencyGraph) : List (List Path) :=
  ((g.graph.components.filter g.isCycle).map g.files).mergeSort fun cycle other =>
    (compare cycle other).isLE

/-- The file of a node with what it depends on, if that is anything. -/
def listing? (g : DependencyGraph) (node : Nat) : Option (Path × List Path) :=
  match g.graph.weight? node, g.files (g.graph.successors node) with
  | some file, first :: rest => some (file, first :: rest)
  | _, _ => none

/-- Every file that depends on something, with what it depends on. -/
def adjacency (g : DependencyGraph) : List (Path × List Path) :=
  (PathMap.ofList (g.graph.nodes.filterMap g.listing?)).entries

/-- The graph with the given adjacency. -/
def ofAdjacency (adjacency : List (Path × List Path)) : DependencyGraph :=
  let addAll (g : DependencyGraph) (entry : Path × List Path) : DependencyGraph :=
    entry.2.foldl (fun g dependency => g.add entry.1 dependency) g
  adjacency.foldl addAll empty

end DependencyGraph

end PugContracts
