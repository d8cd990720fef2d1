import PugContracts.Graph.Basic
import PugContracts.Proofs.Graph.Search
import PugContracts.Proofs.Path.Map

/-!
# Edges and the arcs that stand for them

Whoever uses a dependency graph thinks of edges between files. The graph has arcs between numbers,
beside a map from the files to the numbers. Since the two are in step, an edge is an arc between the
numbers of its files (`edge_iff`), and a chain of edges is a chain of arcs
(`transGen_iff_of_weight?`). What the operations do to the arcs can then be said of the edges: one
is added, unless it is there (`edges_add`), or those of one file go (`edges_clear`). A search goes
from number to number, and what it finds are the files with these numbers (`mem_searchFrom_iff`).

## Main results

* `edges_add`, `edges_clear` — the edges after an operation
* `mem_get_iff` — the direct dependencies of a file
-/

namespace PugContracts

namespace DependencyGraph

open Relation

variable {g g' : DependencyGraph} {p q file dependency : Path} {i j : Nat}

/-- The first file depends on the second. -/
def Edge (g : DependencyGraph) (p q : Path) : Prop :=
  (p, q) ∈ g.edges

/-! ### Numbers -/

theorem bounded (g : DependencyGraph) : g.graph.Bounded := fun _ _ harc =>
  (g.inStep.bounded _ harc).imp List.mem_range.mpr List.mem_range.mpr

theorem normal_of_weight? (h : g.graph.weight? i = some p) : p.normalize = p :=
  g.inStep.normal p (List.mem_of_getElem? h)

theorem exists_weight? (h : i ∈ g.graph.nodes) : ∃ p, g.graph.weight? i = some p :=
  ⟨_, List.getElem?_eq_getElem (NumberedGraph.mem_nodes.mp h)⟩

theorem mem_nodes_of_weight? (h : g.graph.weight? i = some p) : i ∈ g.graph.nodes :=
  NumberedGraph.mem_nodes.mpr (NumberedGraph.lt_of_weight? h)

/-- A file has one number. -/
theorem weight?_inj (hi : g.graph.weight? i = some p) (hj : g.graph.weight? j = some p) :
    i = j := by
  have hnormal := normal_of_weight? hi
  have hfound := (g.inStep.find?_iff hnormal).mpr hi
  rw [(g.inStep.find?_iff hnormal).mpr hj] at hfound
  exact (Option.some.inj hfound).symm

theorem node?_eq_some_iff : g.node? p = some i ↔ g.graph.weight? i = some p.normalize :=
  g.inStep.find?_iff p.normalize_normalize

theorem nodup_nodes (g : DependencyGraph) : g.nodes.Nodup := by
  refine List.nodup_iff_injective_get.mpr fun a b heq => Fin.ext ?_
  exact weight?_inj (List.getElem?_eq_getElem a.isLt)
    (heq ▸ List.getElem?_eq_getElem b.isLt : g.nodes[b.val]? = some (g.nodes.get a))

theorem mem_files_iff {nodes : List Nat} :
    p ∈ g.files nodes ↔ ∃ i ∈ nodes, g.graph.weight? i = some p := by
  rw [files, Path.mem_ordered, List.mem_filterMap]
  intro file hfile
  obtain ⟨_, -, hweight⟩ := List.mem_filterMap.mp hfile
  exact normal_of_weight? hweight

/-! ### Arcs and edges -/

theorem edge?_eq_some_iff {graph : PathGraph} :
    graph.edge? (i, j) = some (p, q) ↔
      graph.graph.weight? i = some p ∧ graph.graph.weight? j = some q := by
  rw [PathGraph.edge?]
  dsimp only
  split
  · next file dependency hi hj => simp only [hi, hj, Option.some.injEq, Prod.mk.injEq]
  · next hnone => exact iff_of_false nofun fun ⟨hi, hj⟩ => hnone p q hi hj

theorem edge_iff : g.Edge p q ↔
    ∃ i j, g.graph.Arc i j ∧ g.graph.weight? i = some p ∧ g.graph.weight? j = some q := by
  rw [Edge, PathGraph.edges, List.mem_filterMap]
  constructor
  · rintro ⟨⟨i, j⟩, harc, hedge⟩
    exact ⟨i, j, harc, edge?_eq_some_iff.mp hedge⟩
  · rintro ⟨i, j, harc, hweights⟩
    exact ⟨(i, j), harc, edge?_eq_some_iff.mpr hweights⟩

/-- Every arc joins two files. -/
theorem exists_edge? {arc : Nat × Nat} (h : arc ∈ g.graph.arcs) :
    ∃ p q, g.edge? arc = some (p, q) ∧
      g.graph.weight? arc.1 = some p ∧ g.graph.weight? arc.2 = some q := by
  obtain ⟨hsource, htarget⟩ := g.bounded _ _ h
  obtain ⟨p, hp⟩ := exists_weight? hsource
  obtain ⟨q, hq⟩ := exists_weight? htarget
  exact ⟨p, q, edge?_eq_some_iff.mpr ⟨hp, hq⟩, hp, hq⟩

/-- An edge is an arc between the numbers of its files. -/
theorem edge_iff_of_weight? (hi : g.graph.weight? i = some p) (hj : g.graph.weight? j = some q) :
    g.Edge p q ↔ g.graph.Arc i j := by
  rw [edge_iff]
  constructor
  · rintro ⟨a, b, harc, ha, hb⟩
    rwa [weight?_inj ha hi, weight?_inj hb hj] at harc
  · exact fun harc => ⟨i, j, harc, hi, hj⟩

/-- A chain of edges is a chain of arcs between the numbers of its files. -/
theorem transGen_iff_of_weight? (hi : g.graph.weight? i = some p)
    (hj : g.graph.weight? j = some q) : TransGen g.Edge p q ↔ TransGen g.graph.Arc i j := by
  constructor
  · intro h
    induction h generalizing j with
    | single hedge => exact .single ((edge_iff_of_weight? hi hj).mp hedge)
    | @tail b c _ hedge ih =>
      obtain ⟨k, l, harc, hk, hl⟩ := edge_iff.mp hedge
      rw [weight?_inj hl hj] at harc
      exact (ih hk).tail harc
  · intro h
    induction h generalizing q with
    | single harc => exact .single ((edge_iff_of_weight? hi hj).mpr harc)
    | @tail k l _ harc ih =>
      obtain ⟨b, hb⟩ := exists_weight? (g.bounded _ _ harc).1
      exact (ih hb).tail ((edge_iff_of_weight? hb hj).mpr harc)

/-- Chains of edges are the chains of arcs. -/
theorem transGen_iff : TransGen g.Edge p q ↔
    ∃ i j, g.graph.weight? i = some p ∧ g.graph.weight? j = some q ∧ TransGen g.graph.Arc i j := by
  constructor
  · intro h
    obtain ⟨_, hfirst, -⟩ := TransGen.head'_iff.mp h
    obtain ⟨_, -, hlast⟩ := TransGen.tail'_iff.mp h
    obtain ⟨i, _, -, hi, -⟩ := edge_iff.mp hfirst
    obtain ⟨_, j, -, -, hj⟩ := edge_iff.mp hlast
    exact ⟨i, j, hi, hj, (transGen_iff_of_weight? hi hj).mp h⟩
  · rintro ⟨i, j, hi, hj, hchain⟩
    exact (transGen_iff_of_weight? hi hj).mpr hchain

theorem Edge.left_mem (h : g.Edge p q) : p ∈ g.nodes := by
  obtain ⟨_, _, -, hi, -⟩ := edge_iff.mp h
  exact List.mem_of_getElem? hi

theorem Edge.right_mem (h : g.Edge p q) : q ∈ g.nodes := by
  obtain ⟨_, _, -, -, hj⟩ := edge_iff.mp h
  exact List.mem_of_getElem? hj

theorem Edge.left_normal (h : g.Edge p q) : p.normalize = p := g.inStep.normal p h.left_mem

theorem Edge.right_normal (h : g.Edge p q) : q.normalize = q := g.inStep.normal q h.right_mem

/-- The start of a chain of edges is a normal path. -/
theorem left_normal_of_transGen (h : TransGen g.Edge p q) : p.normalize = p := by
  obtain ⟨_, _, hi, -⟩ := transGen_iff.mp h
  exact normal_of_weight? hi

/-- The end of a chain of edges is a normal path. -/
theorem right_normal_of_transGen (h : TransGen g.Edge p q) : q.normalize = q := by
  obtain ⟨_, _, -, hj, -⟩ := transGen_iff.mp h
  exact normal_of_weight? hj

/-! ### Edges after an operation -/

instance (g : DependencyGraph) (p q : Path) : Decidable (g.Edge p q) :=
  inferInstanceAs (Decidable ((p, q) ∈ g.edges))

/-- Nodes that are added bring no edges. -/
theorem edges_eq_of_keeps {graph : PathGraph}
    (hkeeps : ∀ {node other}, g.graph.weight? node = some other →
      graph.graph.weight? node = some other)
    (harcs : graph.graph.arcs = g.graph.arcs) : graph.edges = g.edges := by
  rw [PathGraph.edges, PathGraph.edges, harcs]
  refine List.filterMap_congr fun arc harc => ?_
  obtain ⟨p, q, hedge, hp, hq⟩ := exists_edge? harc
  rw [hedge]
  exact edge?_eq_some_iff.mpr ⟨hkeeps hp, hkeeps hq⟩

/-- **Adding an edge** puts it behind those that are there, unless it is one of them. -/
theorem edges_add (g : DependencyGraph) (file dependency : Path) :
    (g.add file dependency).edges =
      if g.Edge file.normalize dependency.normalize then g.edges
      else g.edges ++ [(file.normalize, dependency.normalize)] := by
  obtain ⟨ensured, source, target, hensured, hsource, htarget, hkeeps, harcs, hadd⟩ :=
    g.inStep.add_spec file dependency
  have hedges : ensured.edges = g.edges := edges_eq_of_keeps hkeeps harcs
  have hjoins : ensured.graph.joins source target = true ↔
      g.Edge file.normalize dependency.normalize := by
    rw [NumberedGraph.joins_iff, Edge, ← hedges]
    exact (edge_iff_of_weight? (g := ⟨ensured, hensured⟩) hsource htarget).symm
  have hnew : ensured.edge? (source, target) = some (file.normalize, dependency.normalize) :=
    edge?_eq_some_iff.mpr ⟨hsource, htarget⟩
  show (g.toPathGraph.add file dependency).edges = _
  rw [hadd, if_congr hjoins rfl rfl]
  split
  · exact hedges
  · calc (ensured.graph.arcs ++ [(source, target)]).filterMap ensured.edge?
        = ensured.edges ++ [(source, target)].filterMap ensured.edge? := List.filterMap_append
      _ = g.edges ++ [(file.normalize, dependency.normalize)] := by
          rw [hedges, List.filterMap_cons_some hnew, List.filterMap_nil]

theorem edge_add :
    (g.add file dependency).Edge p q ↔
      (p, q) = (file.normalize, dependency.normalize) ∨ g.Edge p q := by
  rw [Edge, edges_add]
  split
  · next hknown =>
    constructor
    · exact Or.inr
    · rintro (heq | h)
      · rw [heq]
        exact hknown
      · exact h
  · rw [List.mem_append, List.mem_singleton, or_comm]
    rfl

/-- Adding an edge only ever puts it behind those that are there. -/
theorem edges_prefix_add (g : DependencyGraph) (file dependency : Path) :
    g.edges <+: (g.add file dependency).edges := by
  rw [edges_add]
  split
  · exact List.prefix_refl _
  · exact List.prefix_append _ _

/-- An edge that is there already is not added again, and neither are its nodes. -/
theorem add_eq_self (h : g.Edge file.normalize dependency.normalize) :
    g.add file dependency = g := by
  obtain ⟨i, j, harc, hi, hj⟩ := edge_iff.mp h
  have hensured : ∀ {other node}, other.normalize = other → g.graph.weight? node = some other →
      g.toPathGraph.ensureNode other = (g.toPathGraph, node) := by
    intro other node hother hnode
    rw [PathGraph.ensureNode, (g.inStep.find?_iff hother).mpr hnode]
  have hadd : g.toPathGraph.add file dependency = g.toPathGraph := by
    rw [PathGraph.add, hensured file.normalize_normalize hi]
    dsimp only
    rw [hensured dependency.normalize_normalize hj]
    exact if_pos (NumberedGraph.joins_iff.mpr harc)
  rw [add]
  simp only [hadd]

/-- An edge leads from a file if its arc leads from the node of the file. -/
theorem filter_edge? {arc : Nat × Nat} (harc : arc ∈ g.graph.arcs)
    (hi : g.graph.weight? i = some p) :
    (g.edge? arc).filter (fun edge => edge.1 != p) =
      if arc.1 != i then g.edge? arc else none := by
  obtain ⟨source, q, hedge, hsource, -⟩ := exists_edge? harc
  have hsame : source = p ↔ arc.1 = i := by
    constructor
    · rintro rfl
      exact weight?_inj hsource hi
    · rintro rfl
      exact Option.some.inj (hsource.symm.trans hi)
  rw [hedge, Option.filter_some]
  simp only [bne_iff_ne, ne_eq, hsame]

/-- **Clearing a file** takes away the edges that lead from it. -/
theorem edges_clear (g : DependencyGraph) (file : Path) :
    (g.clear file).edges.Perm (g.edges.filter fun edge => edge.1 != file.normalize) := by
  show (g.toPathGraph.clear file).edges.Perm _
  rw [PathGraph.clear]
  split
  · next node hnode =>
    obtain ⟨hweights, hperm⟩ := g.graph.clearNode_spec node
    have hedge : (PathGraph.mk (g.graph.clearNode node) g.numbers).edge? = g.edge? := by
      funext arc
      simp only [PathGraph.edge?, NumberedGraph.weight?, hweights]
    have hfrom : ∀ arc ∈ g.graph.arcs, ((g.edge? arc).filter fun edge =>
        edge.1 != file.normalize) = if arc.1 != node then g.edge? arc else none :=
      fun arc harc => filter_edge? harc (node?_eq_some_iff.mp hnode)
    rw [PathGraph.edges, hedge, PathGraph.edges, List.filter_filterMap,
      List.filterMap_congr hfrom, ← List.filterMap_filter]
    exact hperm.filterMap _
  · next hnone =>
    have hall : ∀ edge ∈ g.edges, (edge.1 != file.normalize) = true := by
      rintro ⟨p, q⟩ hedge
      rw [bne_iff_ne]
      rintro rfl
      obtain ⟨_, _, -, hi, -⟩ := edge_iff.mp (hedge : g.Edge file.normalize q)
      rw [node?_eq_some_iff.mpr hi] at hnone
      cases hnone
    rw [List.filter_eq_self.mpr hall]

theorem edge_clear : (g.clear file).Edge p q ↔ p ≠ file.normalize ∧ g.Edge p q := by
  rw [Edge, (edges_clear g file).mem_iff, List.mem_filter, bne_iff_ne, and_comm]
  rfl

/-! ### Searches -/

variable {search : Nat → List Nat}

theorem mem_searchFrom_iff : q ∈ g.searchFrom p search ↔
    ∃ i j, j ∈ search i ∧ g.graph.weight? i = some p.normalize ∧ g.graph.weight? j = some q := by
  rw [searchFrom]
  split
  · next i hi =>
    have hi := node?_eq_some_iff.mp hi
    rw [mem_files_iff]
    constructor
    · rintro ⟨j, hj, hq⟩
      exact ⟨i, j, hj, hi, hq⟩
    · rintro ⟨k, j, hj, hk, hq⟩
      exact ⟨j, weight?_inj hk hi ▸ hj, hq⟩
  · next hnone =>
    refine iff_of_false List.not_mem_nil ?_
    rintro ⟨i, _, -, hi, -⟩
    rw [node?_eq_some_iff.mpr hi] at hnone
    cases hnone

theorem increasing_searchFrom (g : DependencyGraph) (file : Path) (search : Nat → List Nat) :
    Path.Increasing (g.searchFrom file search) := by
  rw [searchFrom]
  split
  · exact Path.increasing_ordered _
  · exact List.Pairwise.nil

/-- **What a file depends on directly** is what edges lead to from it. -/
theorem mem_get_iff : q ∈ g.get p ↔ g.Edge p.normalize q := by
  rw [get, mem_searchFrom_iff, edge_iff]
  simp only [NumberedGraph.mem_successors]

/-- Graphs with the same edges from a file list the same files for it. -/
theorem get_congr (h : ∀ q, g.Edge p.normalize q ↔ g'.Edge p.normalize q) : g.get p = g'.get p := by
  refine Path.eq_of_pairwise_compare id (g.increasing_searchFrom p _)
    (g'.increasing_searchFrom p _) fun q => ?_
  rw [mem_get_iff, mem_get_iff, h]

end DependencyGraph

end PugContracts
