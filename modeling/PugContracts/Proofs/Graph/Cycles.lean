import PugContracts.Proofs.Graph.Pairs

/-!
# Cycles of a graph

Two files are on a common cycle if chains of edges lead from each to the other. A file that is on a
cycle at all is on a common cycle with itself, so its component is more than a single node that is
not joined to itself (`isCycle_component_iff`), and the components that are left hold the files that
are on common cycles (`mem_cycles_iff`). Components have no file in common. Sorting changes neither
which files are listed together nor how often, and lists without a common file are never equal, so
what is sorted is in strict order.

## Main results

* `exists_mem_cycles_iff` — which files are listed together
* `exists_mem_cycles_of_isChain` — the files of a closed walk are listed together
* `cycles_ofOperations` — the cycles of a graph after any operations
-/

namespace PugContracts

namespace DependencyGraph

open Relation

variable {g : DependencyGraph} {p q : Path} {cycle : List Path} {i : Nat}

/-! ### Components that are cycles -/

/-- **A component is a cycle** if a chain of arcs leads from a node back to the node. -/
theorem isCycle_component_iff (hi : i ∈ g.graph.nodes) :
    g.isCycle (g.graph.component i) = true ↔ TransGen g.graph.Arc i i := by
  have hmem : ∀ {j}, j ∈ g.graph.component i ↔
      ReflTransGen g.graph.Arc i j ∧ ReflTransGen g.graph.Arc j i :=
    NumberedGraph.mem_component_iff g.bounded hi
  have hself : i ∈ g.graph.component i := NumberedGraph.mem_component_self g.bounded hi
  have hround : ∀ {j}, j ∈ g.graph.component i → j ≠ i → TransGen g.graph.Arc i i :=
    fun {j} hj hne =>
      ((reflTransGen_iff_eq_or_transGen.mp (hmem.mp hj).1).resolve_left hne).trans_left
        (hmem.mp hj).2
  have hnodup := g.graph.nodup_component i
  rw [isCycle]
  generalize g.graph.component i = component at *
  match component with
  | [] => cases hself
  | [first] =>
    obtain rfl := List.mem_singleton.mp hself
    have hjoins : g.graph.joins i i = true ↔ TransGen g.graph.Arc i i := by
      rw [NumberedGraph.joins_iff]
      refine ⟨.single, fun hchain => ?_⟩
      -- The first step of the chain does not leave the component, so it is the arc.
      obtain ⟨k, harc, hback⟩ := TransGen.head'_iff.mp hchain
      rwa [List.mem_singleton.mp (hmem.mpr ⟨.single harc, hback⟩)] at harc
    simpa using hjoins
  | first :: second :: rest =>
    refine iff_of_true (by simp) ?_
    obtain ⟨hfirst, -⟩ := List.nodup_cons.mp hnodup
    by_cases heq : first = i
    · refine hround (j := second) (by simp) fun hsame => ?_
      exact hfirst (by simp [heq, hsame])
    · exact hround List.mem_cons_self heq

/-- The files of a component are those that chains of edges lead to and from. -/
theorem mem_files_component_iff (hi : g.graph.weight? i = some p)
    (hround : TransGen g.graph.Arc i i) :
    q ∈ g.files (g.graph.component i) ↔ TransGen g.Edge p q ∧ TransGen g.Edge q p := by
  have hnode := mem_nodes_of_weight? hi
  rw [mem_files_iff]
  constructor
  · rintro ⟨j, hj, hq⟩
    obtain ⟨hij, hji⟩ := (NumberedGraph.mem_component_iff g.bounded hnode).mp hj
    rw [transGen_iff_of_weight? hi hq, transGen_iff_of_weight? hq hi]
    exact ⟨hround.trans_left hij, hround.trans_right hji⟩
  · rintro ⟨hpq, hqp⟩
    obtain ⟨_, j, _, hj, _⟩ := transGen_iff.mp hpq
    rw [transGen_iff_of_weight? hi hj] at hpq
    rw [transGen_iff_of_weight? hj hi] at hqp
    exact ⟨j, (NumberedGraph.mem_component_iff g.bounded hnode).mpr
      ⟨hpq.to_reflTransGen, hqp.to_reflTransGen⟩, hj⟩

/-- **The cycles are the components of the nodes that are on a cycle.** -/
theorem mem_cycles_iff : cycle ∈ g.cycles ↔
    ∃ i p, g.graph.weight? i = some p ∧ TransGen g.graph.Arc i i ∧
      cycle = g.files (g.graph.component i) := by
  rw [cycles, (List.mergeSort_perm _ _).mem_iff, List.mem_map]
  constructor
  · rintro ⟨component, hcomponent, rfl⟩
    obtain ⟨hcomponent, hcycle⟩ := List.mem_filter.mp hcomponent
    obtain ⟨i, hi, rfl⟩ := (NumberedGraph.mem_components_iff g.bounded).mp hcomponent
    obtain ⟨p, hp⟩ := exists_weight? hi
    exact ⟨i, p, hp, (isCycle_component_iff hi).mp hcycle, rfl⟩
  · rintro ⟨i, p, hp, hround, rfl⟩
    have hi := mem_nodes_of_weight? hp
    exact ⟨_, List.mem_filter.mpr ⟨(NumberedGraph.mem_components_iff g.bounded).mpr ⟨i, hi, rfl⟩,
      (isCycle_component_iff hi).mpr hround⟩, rfl⟩

/-- A file that is on a cycle is listed with exactly the files that are on one with it. -/
theorem exists_cycle (h : TransGen g.Edge p p) :
    ∃ cycle ∈ g.cycles, ∀ q, q ∈ cycle ↔ TransGen g.Edge p q ∧ TransGen g.Edge q p := by
  obtain ⟨i, _, hi, -, -⟩ := transGen_iff.mp h
  have hround := (transGen_iff_of_weight? hi hi).mp h
  exact ⟨_, mem_cycles_iff.mpr ⟨i, p, hi, hround, rfl⟩, fun _ => mem_files_component_iff hi hround⟩

/-- **Files are listed together** if chains of edges lead from each to the other. -/
theorem exists_mem_cycles_iff :
    (∃ cycle ∈ g.cycles, p ∈ cycle ∧ q ∈ cycle) ↔ TransGen g.Edge p q ∧ TransGen g.Edge q p := by
  constructor
  · rintro ⟨cycle, hcycle, hp, hq⟩
    obtain ⟨i, r, hr, hround, rfl⟩ := mem_cycles_iff.mp hcycle
    obtain ⟨hrp, hpr⟩ := (mem_files_component_iff hr hround).mp hp
    obtain ⟨hrq, hqr⟩ := (mem_files_component_iff hr hround).mp hq
    exact ⟨hpr.trans hrq, hqr.trans hrp⟩
  · rintro ⟨hpq, hqp⟩
    obtain ⟨cycle, hcycle, hmem⟩ := exists_cycle (hpq.trans hqp)
    exact ⟨cycle, hcycle, (hmem p).mpr ⟨hpq.trans hqp, hpq.trans hqp⟩, (hmem q).mpr ⟨hpq, hqp⟩⟩

/-! ### Closed walks -/

/-- On a walk each file can be reached from the first, and the last from each. -/
theorem reflTransGen_of_isChain {first last file : Path} {walk : List Path}
    (hwalk : (first :: walk).IsChain g.Edge) (hlast : (first :: walk).getLast? = some last)
    (hfile : file ∈ first :: walk) :
    ReflTransGen g.Edge first file ∧ ReflTransGen g.Edge file last := by
  induction walk generalizing first file with
  | nil =>
    cases hlast
    rw [List.mem_singleton.mp hfile]
    exact ⟨.refl, .refl⟩
  | cons second walk ih =>
    rw [List.isChain_cons_cons] at hwalk
    rw [List.getLast?_cons_cons] at hlast
    rcases List.mem_cons.mp hfile with rfl | hfile
    · obtain ⟨-, hrest⟩ := ih hwalk.2 hlast List.mem_cons_self
      exact ⟨.refl, hrest.head hwalk.1⟩
    · obtain ⟨hfirst, hrest⟩ := ih hwalk.2 hlast hfile
      exact ⟨hfirst.head hwalk.1, hrest⟩

/-- **The files of a closed walk are in one of the cycles.** -/
theorem exists_mem_cycles_of_isChain {walk : List Path} (hlong : 2 ≤ walk.length)
    (hclosed : walk.head? = walk.getLast?) (hwalk : walk.IsChain g.Edge) :
    ∃ group ∈ g.cycles, ∀ file ∈ walk, file ∈ group := by
  obtain ⟨first, second, walk, rfl⟩ : ∃ first second rest, walk = first :: second :: rest := by
    match walk, hlong with
    | first :: second :: rest, _ => exact ⟨first, second, rest, rfl⟩
  have hlast : (first :: second :: walk).getLast? = some first := hclosed.symm
  have hround : TransGen g.Edge first first := by
    have hstep := (List.isChain_cons_cons.mp hwalk).1
    exact .head' hstep (reflTransGen_of_isChain hwalk hlast (by simp)).2
  obtain ⟨cycle, hcycle, hmem⟩ := exists_cycle hround
  refine ⟨cycle, hcycle, fun file hfile => (hmem file).mpr ?_⟩
  obtain ⟨hto, hfrom⟩ := reflTransGen_of_isChain hwalk hlast hfile
  exact ⟨hround.trans_left hto, hround.trans_right hfrom⟩

/-! ### The order of the cycles -/

/-- A cycle is not empty, and its files stand in the order of paths. -/
theorem of_mem_cycles (h : cycle ∈ g.cycles) :
    cycle ≠ [] ∧ Path.Increasing cycle ∧ ∀ p ∈ cycle, p.normalize = p := by
  obtain ⟨i, p, hp, hround, rfl⟩ := mem_cycles_iff.mp h
  have hchain : TransGen g.Edge p p := (transGen_iff_of_weight? hp hp).mpr hround
  refine ⟨List.ne_nil_of_mem ((mem_files_component_iff hp hround).mpr ⟨hchain, hchain⟩),
    Path.increasing_ordered _, fun q hq => ?_⟩
  exact left_normal_of_transGen ((mem_files_component_iff hp hround).mp hq).2

/-- **No file is in two cycles.** -/
theorem pairwise_disjoint_cycles (g : DependencyGraph) : g.cycles.Pairwise List.Disjoint := by
  rw [cycles, (List.mergeSort_perm _ _).pairwise_iff List.Disjoint.symm, List.pairwise_map]
  refine ((NumberedGraph.pairwise_disjoint_components g.bounded).filter _).imp ?_
  intro component other hdisjoint p hp hp'
  obtain ⟨i, hi, hweight⟩ := mem_files_iff.mp hp
  obtain ⟨j, hj, hweight'⟩ := mem_files_iff.mp hp'
  exact hdisjoint hi (weight?_inj hweight' hweight ▸ hj)

/-- No file is listed twice. -/
theorem nodup_flatten_cycles (g : DependencyGraph) : g.cycles.flatten.Nodup :=
  List.nodup_flatten.mpr
    ⟨fun _ hcycle => (of_mem_cycles hcycle).2.1.nodup, g.pairwise_disjoint_cycles⟩

/-- Lists of normal paths that compare equal start with the same path. -/
theorem head?_eq_of_compare {paths others : List Path} (h : compare paths others = .eq)
    (hpaths : ∀ p ∈ paths, p.normalize = p) (hothers : ∀ p ∈ others, p.normalize = p) :
    paths.head? = others.head? := by
  match paths, others with
  | [], [] => rfl
  | [], _ :: _ => cases h
  | _ :: _, [] => cases h
  | p :: _, q :: _ =>
    rw [List.compare_cons_cons, Ordering.then_eq_eq] at h
    have heq := (Path.compare_eq_iff (hpaths p List.mem_cons_self)
      (hothers q List.mem_cons_self)).mp h.1
    rw [heq, List.head?_cons, List.head?_cons]

/-- **The cycles stand in the order of lists of paths**, each once: what is sorted is in order, and
lists without a common file are not equal. -/
theorem pairwise_compare_cycles (g : DependencyGraph) :
    g.cycles.Pairwise fun cycle other => compare cycle other = .lt := by
  have htotal : ∀ cycle other : List Path,
      ((compare cycle other).isLE || (compare other cycle).isLE) = true := fun cycle other => by
    have hswap : compare other cycle = (compare cycle other).swap := Std.OrientedCmp.eq_swap
    rw [hswap]
    cases compare cycle other <;> rfl
  have hsorted : g.cycles.Pairwise fun cycle other => (compare cycle other).isLE = true :=
    List.pairwise_mergeSort (fun _ _ _ => Std.TransCmp.isLE_trans) htotal _
  refine (hsorted.and g.pairwise_disjoint_cycles).imp_of_mem ?_
  rintro cycle other hcycle hother ⟨hle, hdisjoint⟩
  obtain ⟨hne, -, hnormal⟩ := of_mem_cycles hcycle
  cases hcompare : compare cycle other with
  | lt => rfl
  | gt => rw [hcompare] at hle; cases hle
  | eq =>
    have hhead := head?_eq_of_compare hcompare hnormal (of_mem_cycles hother).2.2
    obtain ⟨p, rest, rfl⟩ := List.exists_cons_of_ne_nil hne
    exact absurd (List.mem_of_mem_head? hhead.symm) (hdisjoint List.mem_cons_self)

/-! ### Main results -/

/-- **The cycles of a graph are exact**, after any operations. A file is listed if and only if a
chain of pairs leads from it to itself, and two files are listed together if and only if chains of
pairs lead from each to the other. No group is empty and no file is listed twice; each group stands
in the order of paths, and the groups stand in the order of lists of paths, each once. -/
theorem cycles_ofOperations (operations : List Operation) :
    let cycles := (ofOperations operations).cycles
    let leads := TransGen fun a b => (a, b) ∈ pairsOf operations
    (∀ p, p ∈ cycles.flatten ↔ leads p p) ∧
    (∀ p q, (∃ group ∈ cycles, p ∈ group ∧ q ∈ group) ↔ leads p q ∧ leads q p) ∧
    cycles.flatten.Nodup ∧
    (∀ group ∈ cycles, group ≠ [] ∧ Path.Increasing group) ∧
    cycles.Pairwise fun group other => compare group other = .lt := by
  intro cycles leads
  simp only [leads, cycles, ← pairs_ofOperations, transGen_pairs]
  generalize ofOperations operations = g
  refine ⟨fun p => ?_, fun p q => exists_mem_cycles_iff, g.nodup_flatten_cycles,
    fun group hgroup => ?_, g.pairwise_compare_cycles⟩
  · rw [List.mem_flatten, ← and_self (TransGen g.Edge p p), ← exists_mem_cycles_iff]
    simp only [and_self]
  · obtain ⟨hne, hordered, -⟩ := of_mem_cycles hgroup
    exact ⟨hne, hordered⟩

end DependencyGraph

end PugContracts
