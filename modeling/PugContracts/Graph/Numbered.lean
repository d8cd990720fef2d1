/-!
# Graphs with numbered nodes

A node is known by its number, which is its place among the weights. Nodes are only ever added, so a
number stays good for as long as the graph is used. Arcs are numbered too, but they can be taken
out: the last arc then takes the number that has become free.

## Searching

`reach` follows the arcs from a queue and takes each node it meets out of the nodes not yet seen.
Cycles therefore end by themselves, and no bound on the number of steps is needed. The components
are the groups of nodes that can be reached from each other. A node is always in a group with
itself, so each node is in one component.
-/

namespace PugContracts

universe u

/-- A directed graph whose nodes are numbered and have weights. -/
structure NumberedGraph (α : Type u) where
  /-- The weights of the nodes. -/
  weights : List α
  /-- The arcs, each from one node to another. -/
  arcs : List (Nat × Nat)

namespace NumberedGraph

variable {α : Type u}

/-- The graph without nodes. -/
def empty : NumberedGraph α :=
  ⟨[], []⟩

/-- The nodes. -/
def nodes (g : NumberedGraph α) : List Nat :=
  List.range g.weights.length

/-- The weight of a node. -/
def weight? (g : NumberedGraph α) (node : Nat) : Option α :=
  g.weights[node]?

theorem lt_of_weight? {g : NumberedGraph α} {node : Nat} {weight : α}
    (h : g.weight? node = some weight) : node < g.weights.length :=
  (List.getElem?_eq_some_iff.mp h).1

/-- Add a node and return it. -/
def addNode (g : NumberedGraph α) (weight : α) : NumberedGraph α × Nat :=
  (⟨g.weights ++ [weight], g.arcs⟩, g.weights.length)

theorem weight?_addNode (g : NumberedGraph α) (weight : α) (node : Nat) :
    (g.addNode weight).1.weight? node =
      if node = g.weights.length then some weight else g.weight? node := by
  show (g.weights ++ [weight])[node]? = _
  split
  · next heq => rw [heq, List.getElem?_concat_length]
  · next hne =>
    rcases Nat.lt_or_gt_of_ne hne with hlt | hgt
    · exact List.getElem?_append_left hlt
    · rw [weight?, List.getElem?_eq_none (Nat.le_of_lt hgt), List.getElem?_eq_none]
      rw [List.length_append, List.length_singleton]
      exact hgt

/-- Add an arc. -/
def addArc (g : NumberedGraph α) (source target : Nat) : NumberedGraph α :=
  ⟨g.weights, g.arcs ++ [(source, target)]⟩

/-- Whether there is an arc from one node to another. -/
def joins (g : NumberedGraph α) (source target : Nat) : Bool :=
  g.arcs.contains (source, target)

/-- The nodes to which arcs lead from a node. -/
def successors (g : NumberedGraph α) (node : Nat) : List Nat :=
  (g.arcs.filter fun arc => arc.1 == node).map Prod.snd

/-- The nodes from which arcs lead to a node. -/
def predecessors (g : NumberedGraph α) (node : Nat) : List Nat :=
  (g.arcs.filter fun arc => arc.2 == node).map Prod.fst

/-! ### Taking arcs out -/

/-- The first arc from a node. -/
def firstArc? (g : NumberedGraph α) (node : Nat) : Option Nat :=
  g.arcs.findIdx? fun arc => arc.1 == node

/-- Take an arc out. The last arc takes its number. -/
def removeArc (g : NumberedGraph α) (number : Nat) : NumberedGraph α :=
  match g.arcs.getLast? with
  | some last =>
    if number < g.arcs.length then ⟨g.weights, g.arcs.dropLast.set number last⟩ else g
  | none => g

open List in
/-- Putting the last member in the place of another one takes only that one out. -/
theorem append_perm_set {init : List (Nat × Nat)} {number : Nat} (h : number < init.length)
    (last : Nat × Nat) : init ++ [last] ~ init[number] :: init.set number last := by
  have hsplit : init = init.take number ++ init[number] :: init.drop (number + 1) := by
    rw [← List.drop_eq_getElem_cons, List.take_append_drop]
  have hset : init.set number last = init.take number ++ last :: init.drop (number + 1) :=
    List.set_eq_take_append_cons_drop.trans (if_pos h)
  calc init ++ [last]
      ~ last :: init := List.perm_append_singleton last init
    _ = last :: (init.take number ++ init[number] :: init.drop (number + 1)) := by rw [← hsplit]
    _ ~ last :: init[number] :: (init.take number ++ init.drop (number + 1)) :=
        List.perm_middle.cons _
    _ ~ init[number] :: last :: (init.take number ++ init.drop (number + 1)) := .swap _ _ _
    _ ~ init[number] :: (init.take number ++ last :: init.drop (number + 1)) :=
        List.perm_middle.symm.cons _
    _ = init[number] :: init.set number last := by rw [hset]

/-- An arc that is taken out is the only one that goes. -/
theorem removeArc_spec {g : NumberedGraph α} {number : Nat} (h : number < g.arcs.length) :
    (g.removeArc number).weights = g.weights ∧
      g.arcs.Perm (g.arcs[number] :: (g.removeArc number).arcs) := by
  obtain ⟨weights, arcs⟩ := g
  dsimp only at h ⊢
  obtain ⟨init, last, rfl⟩ : ∃ init last, arcs = init ++ [last] :=
    ⟨_, _, (List.dropLast_concat_getLast (List.length_pos_iff.mp (Nat.zero_lt_of_lt h))).symm⟩
  have hremove : removeArc ⟨weights, init ++ [last]⟩ number = ⟨weights, init.set number last⟩ := by
    simp only [removeArc, List.getLast?_concat, if_pos h, List.dropLast_concat]
  rw [hremove]
  refine ⟨rfl, ?_⟩
  by_cases hother : number < init.length
  · rw [List.getElem_append_left hother]
    exact append_perm_set hother last
  · obtain rfl : number = init.length := by
      rw [List.length_append, List.length_singleton] at h
      omega
    rw [List.set_eq_of_length_le (Nat.le_refl _), List.getElem_concat_length rfl]
    exact List.perm_append_singleton last init

/-- The first arc from a node is an arc from the node. -/
theorem of_firstArc? {g : NumberedGraph α} {node number : Nat}
    (h : g.firstArc? node = some number) :
    ∃ hlt : number < g.arcs.length, g.arcs[number].1 = node := by
  obtain ⟨hlt, hsource, -⟩ := List.findIdx?_eq_some_iff_getElem.mp h
  exact ⟨hlt, by simpa using hsource⟩

theorem length_removeArc_lt {g : NumberedGraph α} {node number : Nat}
    (h : g.firstArc? node = some number) :
    (g.removeArc number).arcs.length < g.arcs.length := by
  obtain ⟨hlt, -⟩ := of_firstArc? h
  have hlength := (removeArc_spec hlt).2.length_eq
  rw [List.length_cons] at hlength
  omega

/-- Take out the arcs from a node, one after the other. -/
def clearNode (g : NumberedGraph α) (node : Nat) : NumberedGraph α :=
  match _first : g.firstArc? node with
  | some number => (g.removeArc number).clearNode node
  | none => g
termination_by g.arcs.length
decreasing_by exact length_removeArc_lt _first

/-- **No arc from the node is left**, and all others are. -/
theorem clearNode_spec (g : NumberedGraph α) (node : Nat) :
    (g.clearNode node).weights = g.weights ∧
      (g.clearNode node).arcs.Perm (g.arcs.filter fun arc => arc.1 != node) := by
  fun_induction clearNode g node with
  | case1 g number hfirst ih =>
    obtain ⟨hlt, hsource⟩ := of_firstArc? hfirst
    obtain ⟨hweights, hperm⟩ := removeArc_spec hlt
    refine ⟨ih.1.trans hweights, ih.2.trans ?_⟩
    have hfilter := hperm.filter fun arc => arc.1 != node
    rw [List.filter_cons_of_neg (by simp [hsource])] at hfilter
    exact hfilter.symm
  | case2 g hfirst =>
    have hnone : ∀ arc ∈ g.arcs, (arc.1 != node) = true := fun arc harc => by
      have hother := List.findIdx?_eq_none_iff.mp hfirst arc harc
      rw [bne, hother]
      rfl
    exact ⟨rfl, by rw [List.filter_eq_self.mpr hnone]⟩

/-! ### Searching -/

/-- The nodes of `unseen` that are in the queue or can be reached from there through nodes of
`unseen`, nearest first. -/
def reach (next : Nat → List Nat) (unseen queue : List Nat) : List Nat :=
  match queue with
  | [] => []
  | node :: rest =>
    if _new : node ∈ unseen then node :: reach next (unseen.erase node) (rest ++ next node)
    else reach next unseen rest
termination_by (unseen.flatMap next).length + unseen.length + queue.length
decreasing_by
  · have hlength := (List.perm_cons_erase _new).length_eq
    have hnext := ((List.perm_cons_erase _new).flatMap_right next).length_eq
    simp only [List.flatMap_cons, List.length_append, List.length_cons] at hlength hnext ⊢
    omega
  · rw [List.length_cons]
    omega

/-- The nodes that can be reached from a node, which is one of them. -/
def below (g : NumberedGraph α) (node : Nat) : List Nat :=
  reach g.successors g.nodes [node]

/-- The nodes from which a node can be reached, which is one of them. -/
def above (g : NumberedGraph α) (node : Nat) : List Nat :=
  reach g.predecessors g.nodes [node]

/-- The nodes that can be reached from a node and from which it can be reached. -/
def component (g : NumberedGraph α) (node : Nat) : List Nat :=
  g.nodes.filter fun other => (g.below node).contains other && (g.below other).contains node

/-- The components, each at its first node. -/
def components (g : NumberedGraph α) : List (List Nat) :=
  g.nodes.filterMap fun node =>
    let group := g.component node
    if group.head? = some node then some group else none

end NumberedGraph

end PugContracts
