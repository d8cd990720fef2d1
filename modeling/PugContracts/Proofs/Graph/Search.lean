import Mathlib.Data.List.Nodup
import Mathlib.Logic.Relation
import PugContracts.Graph.Numbered

/-!
# Searching a graph with numbered nodes

`reach` finds exactly the nodes that can be reached from its queue without leaving the nodes that
are still unseen (`mem_reach_iff`). With every node unseen, chains of arcs lead to exactly the nodes
that are found (`mem_below_iff`, `mem_above_iff`), so a component holds the nodes that can be
reached from each other (`mem_component_iff`). Each node is in one component, and components have no
node in common (`mem_components_iff`, `pairwise_disjoint_components`).
-/

namespace PugContracts.NumberedGraph

open Relation

universe u

variable {α : Type u} {g : NumberedGraph α} {i j k : Nat}

/-- There is an arc from the first node to the second. -/
def Arc (g : NumberedGraph α) (i j : Nat) : Prop :=
  (i, j) ∈ g.arcs

theorem mem_successors : j ∈ g.successors i ↔ g.Arc i j := by
  simp [successors, Arc]

theorem mem_predecessors : j ∈ g.predecessors i ↔ g.Arc j i := by
  simp [predecessors, Arc]

theorem joins_iff : g.joins i j = true ↔ g.Arc i j :=
  List.contains_iff_mem

theorem mem_nodes : i ∈ g.nodes ↔ i < g.weights.length :=
  List.mem_range

/-- The arcs join nodes. -/
def Bounded (g : NumberedGraph α) : Prop :=
  ∀ i j, g.Arc i j → i ∈ g.nodes ∧ j ∈ g.nodes

/-! ### Reaching -/

/-- The nodes of `unseen` that are in `queue` or follow one of these by steps inside `unseen`. -/
inductive Found (next : Nat → List Nat) (unseen queue : List Nat) : Nat → Prop
  | start {i : Nat} : i ∈ queue → i ∈ unseen → Found next unseen queue i
  | step {i j : Nat} : Found next unseen queue i → j ∈ next i → j ∈ unseen →
    Found next unseen queue j

variable {next : Nat → List Nat} {unseen queue rest : List Nat}

/-- What is found after `i` is taken from the queue is found from the queue with `i`. -/
theorem Found.of_erase (hi : i ∈ unseen)
    (h : Found next (unseen.erase i) (rest ++ next i) j) : Found next unseen (i :: rest) j := by
  induction h with
  | start hmem hunseen =>
    have hunseen := List.mem_of_mem_erase hunseen
    rcases List.mem_append.mp hmem with hmem | hmem
    · exact .start (List.mem_cons_of_mem i hmem) hunseen
    · exact .step (.start List.mem_cons_self hi) hmem hunseen
  | step _ hnext hunseen ih => exact ih.step hnext (List.mem_of_mem_erase hunseen)

/-- A node other than `i` that is found with `i` in the queue is found after `i` is taken: a chain
of steps through `i` can start after its last visit there. -/
theorem Found.erase (h : Found next unseen (i :: rest) j) (hne : j ≠ i) :
    Found next (unseen.erase i) (rest ++ next i) j := by
  induction h with
  | start hmem hunseen =>
    have hmem := (List.mem_cons.mp hmem).resolve_left hne
    exact .start (List.mem_append_left _ hmem) ((List.mem_erase_of_ne hne).mpr hunseen)
  | @step k j _ hnext hunseen ih =>
    have hunseen := (List.mem_erase_of_ne hne).mpr hunseen
    by_cases hk : k = i
    · subst hk
      exact .start (List.mem_append_right _ hnext) hunseen
    · exact (ih hk).step hnext hunseen

/-- A node that has been seen adds nothing to a queue. -/
theorem found_cons_of_notMem (hi : i ∉ unseen) :
    Found next unseen (i :: rest) j ↔ Found next unseen rest j := by
  constructor
  · intro h
    induction h with
    | start hmem hunseen =>
      rcases List.mem_cons.mp hmem with rfl | hmem
      · exact absurd hunseen hi
      · exact .start hmem hunseen
    | step _ hnext hunseen ih => exact ih.step hnext hunseen
  · intro h
    induction h with
    | start hmem hunseen => exact .start (List.mem_cons_of_mem i hmem) hunseen
    | step _ hnext hunseen ih => exact ih.step hnext hunseen

/-- **The search finds exactly what can be reached.** -/
theorem mem_reach_iff : j ∈ reach next unseen queue ↔ Found next unseen queue j := by
  fun_induction reach next unseen queue with
  | case1 =>
    constructor
    · simp
    · intro h
      induction h with
      | start hmem _ => exact hmem
      | step _ _ _ ih => simp at ih
  | case2 unseen i rest hi ih =>
    constructor
    · intro h
      rcases List.mem_cons.mp h with rfl | h
      · exact .start List.mem_cons_self hi
      · exact (ih.mp h).of_erase hi
    · intro h
      by_cases hj : j = i
      · rw [hj]; exact List.mem_cons_self
      · exact List.mem_cons_of_mem i (ih.mpr (h.erase hj))
  | case3 unseen i rest hi ih => rw [ih, found_cons_of_notMem hi]

/-- A search that stays among the unseen nodes finds what chains of steps lead to. -/
theorem mem_reach_singleton_iff {step : Nat → Nat → Prop} (hnext : ∀ a b, b ∈ next a ↔ step a b)
    (hunseen : ∀ a b, step a b → b ∈ unseen) (hi : i ∈ unseen) :
    j ∈ reach next unseen [i] ↔ ReflTransGen step i j := by
  rw [mem_reach_iff]
  constructor
  · intro h
    induction h with
    | start hmem _ => rw [List.mem_singleton.mp hmem]
    | step _ hstep _ ih => exact ih.tail ((hnext _ _).mp hstep)
  · intro h
    induction h with
    | refl => exact .start List.mem_cons_self hi
    | tail _ hstep ih => exact ih.step ((hnext _ _).mpr hstep) (hunseen _ _ hstep)

/-- From a node a chain of arcs leads to exactly the nodes below it. -/
theorem mem_below_iff (hg : g.Bounded) (hi : i ∈ g.nodes) :
    j ∈ g.below i ↔ ReflTransGen g.Arc i j :=
  mem_reach_singleton_iff (fun _ _ => mem_successors) (fun _ _ harc => (hg _ _ harc).2) hi

/-- To a node a chain of arcs leads from exactly the nodes above it. -/
theorem mem_above_iff (hg : g.Bounded) (hi : i ∈ g.nodes) :
    j ∈ g.above i ↔ ReflTransGen g.Arc j i := by
  rw [← reflTransGen_swap]
  exact mem_reach_singleton_iff (fun _ _ => mem_predecessors) (fun _ _ harc => (hg _ _ harc).1) hi

/-! ### Components -/

/-- A chain of arcs from a node leads to a node. -/
theorem Bounded.mem_of_reflTransGen (hg : g.Bounded) (hi : i ∈ g.nodes)
    (h : ReflTransGen g.Arc i j) : j ∈ g.nodes := by
  rcases ReflTransGen.cases_tail h with rfl | ⟨_, _, harc⟩
  · exact hi
  · exact (hg _ _ harc).2

/-- The component of a node holds the nodes that can be reached from it and from which it can be
reached. -/
theorem mem_component_iff (hg : g.Bounded) (hi : i ∈ g.nodes) :
    j ∈ g.component i ↔ ReflTransGen g.Arc i j ∧ ReflTransGen g.Arc j i := by
  rw [component, List.mem_filter, Bool.and_eq_true, List.contains_iff_mem, List.contains_iff_mem,
    mem_below_iff hg hi]
  constructor
  · rintro ⟨hj, hij, hji⟩
    exact ⟨hij, (mem_below_iff hg hj).mp hji⟩
  · rintro ⟨hij, hji⟩
    have hj := hg.mem_of_reflTransGen hi hij
    exact ⟨hj, hij, (mem_below_iff hg hj).mpr hji⟩

theorem mem_component_self (hg : g.Bounded) (hi : i ∈ g.nodes) : i ∈ g.component i :=
  (mem_component_iff hg hi).mpr ⟨.refl, .refl⟩

theorem mem_nodes_of_mem_component (h : j ∈ g.component i) : j ∈ g.nodes :=
  (List.mem_filter.mp h).1

/-- Nodes of one component have the same component. -/
theorem component_eq (hg : g.Bounded) (hi : i ∈ g.nodes) (h : j ∈ g.component i) :
    g.component i = g.component j := by
  have hj := mem_nodes_of_mem_component h
  obtain ⟨hij, hji⟩ := (mem_component_iff hg hi).mp h
  refine List.filter_congr fun k hk => ?_
  rw [Bool.eq_iff_iff, Bool.and_eq_true, Bool.and_eq_true, List.contains_iff_mem,
    List.contains_iff_mem, List.contains_iff_mem, List.contains_iff_mem, mem_below_iff hg hi,
    mem_below_iff hg hj, mem_below_iff hg hk, mem_below_iff hg hk]
  exact ⟨fun ⟨hik, hki⟩ => ⟨hji.trans hik, hki.trans hij⟩,
    fun ⟨hjk, hkj⟩ => ⟨hij.trans hjk, hkj.trans hji⟩⟩

theorem nodup_component (g : NumberedGraph α) (i : Nat) : (g.component i).Nodup :=
  List.nodup_range.filter _

/-- **The components are those of the nodes.** -/
theorem mem_components_iff (hg : g.Bounded) {group : List Nat} :
    group ∈ g.components ↔ ∃ i ∈ g.nodes, group = g.component i := by
  constructor
  · intro h
    obtain ⟨i, hi, hgroup⟩ := List.mem_filterMap.mp h
    dsimp only at hgroup
    split at hgroup
    · exact ⟨i, hi, (Option.some.inj hgroup).symm⟩
    · cases hgroup
  · rintro ⟨i, hi, rfl⟩
    obtain ⟨first, others, hgroup⟩ :=
      List.exists_cons_of_ne_nil (List.ne_nil_of_mem (mem_component_self hg hi))
    have hfirst : first ∈ g.component i := by rw [hgroup]; exact List.mem_cons_self
    have hsame := component_eq hg hi hfirst
    refine List.mem_filterMap.mpr ⟨first, mem_nodes_of_mem_component hfirst, ?_⟩
    simp only [← hsame, hgroup, List.head?_cons, if_true]

/-- **No node is in two components.** -/
theorem pairwise_disjoint_components (hg : g.Bounded) : g.components.Pairwise List.Disjoint := by
  have hlisted : ∀ {i group}, (if (g.component i).head? = some i
      then some (g.component i) else none) = some group →
      (g.component i).head? = some i ∧ group = g.component i := by
    intro i group h
    split at h
    · next hhead => exact ⟨hhead, (Option.some.inj h).symm⟩
    · cases h
  rw [components, List.pairwise_filterMap]
  refine List.Pairwise.imp_of_mem ?_ List.nodup_range
  intro i j hi hj hne group hgroup other hother k hk hk'
  obtain ⟨hfirst, rfl⟩ := hlisted hgroup
  obtain ⟨hfirst', rfl⟩ := hlisted hother
  rw [component_eq hg hi hk, ← component_eq hg hj hk', hfirst'] at hfirst
  exact hne (Option.some.inj hfirst).symm

end PugContracts.NumberedGraph
