import Mathlib.Data.List.DropRight
import PugContracts.Proofs.Resolution.Merge

/-!
# The content of merged regions

The overrides of a region are applied one after the other, and the content they are applied to is
itself the result of merging. What comes out has a closed form (`foldl_apply`): the last override
that replaces decides what is in the middle, and those after it put their nodes before or behind.
The regions of the parent that are not below a replaced one are still there afterwards, each in its
place, and `Survives` says which node of the merged forest such a region has become. Outside the
overridden regions nothing changes: the forests agree when these are emptied (`pruneAll_mergeAll`).

## Main results

* `foldl_apply`: the closed form of a chain of overrides.
* `Survives.eq_mergeNode`: a node that survives has become its merged form.
* `merges_mergeAll`: what the merge changes, and what it leaves.
-/

namespace PugContracts.Resolution

open Template

/-! ### Chains of overrides -/

variable {chain : List Override} {content : List Node}

/-- The overrides that come after the last one that replaces. -/
def additions (chain : List Override) : List Override :=
  chain.rtakeWhile (·.mode != .replace)

/-- The content that the last replacing override brings in, if there is one. -/
def replacement? (chain : List Override) : Option (List Node) :=
  (chain.reverse.find? (·.mode == .replace)).map Override.nodes

/-- What is appended after the last replacement, in the order of the overrides. -/
def appended (chain : List Override) : List Node :=
  ((additions chain).filter (·.mode == .append)).flatMap Override.nodes

/-- What is prepended after the last replacement, the last override first. -/
def prepended (chain : List Override) : List Node :=
  ((additions chain).filter (·.mode == .prepend)).reverse.flatMap Override.nodes

/-- The content of a region after all overrides of a chain. -/
def overridden (chain : List Override) (content : List Node) : List Node :=
  prepended chain ++ (replacement? chain).getD content ++ appended chain

@[simp] theorem overridden_nil (content : List Node) : overridden [] content = content := by
  simp [overridden, prepended, appended, additions, replacement?]

theorem additions_concat (chain : List Override) (override : Override) :
    additions (chain ++ [override]) =
      if override.mode = .replace then [] else additions chain ++ [override] := by
  rw [additions, List.rtakeWhile_concat]
  by_cases hmode : override.mode = .replace <;> simp [hmode, additions]

theorem replacement?_concat (chain : List Override) (override : Override) :
    replacement? (chain ++ [override]) =
      if override.mode = .replace then some override.nodes else replacement? chain := by
  rw [replacement?, List.reverse_concat]
  by_cases hmode : override.mode = .replace
  · rw [if_pos hmode, List.find?_cons_of_pos (by simp [hmode]), Option.map_some]
  · rw [if_neg hmode, List.find?_cons_of_neg (by simp [hmode]), replacement?]

/-- One more override acts on what the others have made of the content. -/
theorem overridden_concat (chain : List Override) (override : Override) (content : List Node) :
    overridden (chain ++ [override]) content = override.apply (overridden chain content) := by
  obtain ⟨mode, nodes⟩ := override
  cases mode <;>
    simp [overridden, prepended, appended, additions_concat, replacement?_concat, Override.apply]

/-- **The closed form of a chain of overrides.** -/
theorem foldl_apply (chain : List Override) (content : List Node) :
    chain.foldl Override.apply content = overridden chain content := by
  induction chain using List.reverseRecOn with
  | nil => rw [overridden_nil, List.foldl_nil]
  | append_singleton chain override ih =>
    rw [overridden_concat, List.foldl_append, ih, List.foldl_cons, List.foldl_nil]

/-! ### Merged nodes -/

variable {parts : ChildParts} {node image : Node} {nodes parent : List Node}

/-- What a child says of a node of its parent. -/
def ChildParts.chainFor (parts : ChildParts) (node : Node) : List Override :=
  (node.regionName?.map parts.overridesOf).getD []

/-- Whether a child overrides the content of a node. -/
def ChildParts.isOverridden (parts : ChildParts) (node : Node) : Bool :=
  !(parts.chainFor node).isEmpty

theorem mergeNode_eq (parts : ChildParts) (node : Node) :
    mergeNode parts node =
      ⟨node.kind, node.line, node.file,
        overridden (parts.chainFor node) (mergeAll parts node.children),
        mergeAll parts node.alternate⟩ := by
  obtain ⟨kind, line, file, children, alternate⟩ := node
  rw [mergeNode, ChildParts.chainFor]
  cases (Node.mk kind line file children alternate).regionName? with
  | none => simp
  | some name => simp [foldl_apply]

/-! ### Outside the overridden regions -/

mutual

/-- The tree with every overridden region in it emptied. -/
def pruneNode (parts : ChildParts) : Node → Node
  | ⟨kind, line, file, children, alternate⟩ =>
    ⟨kind, line, file,
      if parts.isOverridden ⟨kind, line, file, children, alternate⟩ then []
      else pruneAll parts children,
      pruneAll parts alternate⟩

/-- The forest with every overridden region in it emptied. -/
def pruneAll (parts : ChildParts) : List Node → List Node
  | [] => []
  | node :: rest => pruneNode parts node :: pruneAll parts rest

end

/-- **The merge changes nothing outside the overridden regions.** -/
theorem pruneAll_mergeAll (parts : ChildParts) (nodes : List Node) :
    pruneAll parts (mergeAll parts nodes) = pruneAll parts nodes := by
  induction nodes using forest_induction with
  | nil => rfl
  | cons kind line file children alternate rest hchildren halternate hrest =>
    -- Whether a node is overridden does not depend on what is nested in it.
    have hsame : ∀ content branch,
        parts.isOverridden ⟨kind, line, file, content, branch⟩ =
          parts.isOverridden ⟨kind, line, file, children, alternate⟩ := fun _ _ => rfl
    rw [mergeAll, pruneAll, pruneAll, hrest, mergeNode_eq, pruneNode, pruneNode, halternate, hsame]
    cases hoverridden : parts.isOverridden ⟨kind, line, file, children, alternate⟩ with
    | true => rfl
    | false =>
      have hnothing : parts.chainFor ⟨kind, line, file, children, alternate⟩ = [] := by
        simpa [ChildParts.isOverridden] using hoverridden
      rw [hnothing, overridden_nil, hchildren]

/-- **The merge changes nothing at all if no region is overridden.** -/
theorem mergeAll_eq_self (h : ∀ node ∈ walkAll nodes, parts.isOverridden node = false) :
    mergeAll parts nodes = nodes := by
  induction nodes using forest_induction with
  | nil => rfl
  | cons kind line file children alternate rest hchildren halternate hrest =>
    simp only [walkAll, Node.walk, List.cons_append, List.append_assoc, List.forall_mem_cons,
      List.forall_mem_append] at h
    obtain ⟨hnode, hinner, hother, hafter⟩ := h
    have hnothing : parts.chainFor ⟨kind, line, file, children, alternate⟩ = [] := by
      simpa [ChildParts.isOverridden] using hnode
    rw [mergeAll, mergeNode_eq, hnothing, overridden_nil, hchildren hinner, halternate hother,
      hrest hafter]

/-! ### Inside the overridden regions -/

/-- Where the nodes of the parent are in the merged forest, if they are still there: each in the
place of its own among its siblings, behind what was put before these. The content of a region that
is replaced is not there any more. -/
inductive Survives (parts : ChildParts) (parent merged : List Node) : Node → Node → Prop
  /-- A root. -/
  | root {node image : Node} (hpair : (node, image) ∈ parent.zip merged) :
      Survives parts parent merged node image
  /-- A node in the content of another one, if that is not replaced. -/
  | content {outer outerImage node image : Node}
      (houter : Survives parts parent merged outer outerImage)
      (hkept : replacement? (parts.chainFor outer) = none)
      (hpair : (node, image) ∈ outer.children.zip
        (outerImage.children.drop (prepended (parts.chainFor outer)).length)) :
      Survives parts parent merged node image
  /-- A node in the alternate of another one. -/
  | alternate {outer outerImage node image : Node}
      (houter : Survives parts parent merged outer outerImage)
      (hpair : (node, image) ∈ outer.alternate.zip outerImage.alternate) :
      Survives parts parent merged node image

/-- The nodes of the parent that are not below a replaced region. -/
inductive Kept (parts : ChildParts) (parent : List Node) : Node → Prop
  /-- A root. -/
  | root {node : Node} (hnode : node ∈ parent) : Kept parts parent node
  /-- A node in the content of another one, if that is not replaced. -/
  | content {outer node : Node} (houter : Kept parts parent outer)
      (hkept : replacement? (parts.chainFor outer) = none) (hnode : node ∈ outer.children) :
      Kept parts parent node
  /-- A node in the alternate of another one. -/
  | alternate {outer node : Node} (houter : Kept parts parent outer)
      (hnode : node ∈ outer.alternate) : Kept parts parent node

/-- What stands in the places of a list is what its nodes were merged to. -/
theorem mem_zip_mergeAll_iff {more : List Node} :
    (node, image) ∈ nodes.zip (mergeAll parts nodes ++ more) ↔
      node ∈ nodes ∧ image = mergeNode parts node := by
  induction nodes with
  | nil => simp
  | cons first rest ih =>
    rw [mergeAll, List.cons_append, List.zip_cons_cons, List.mem_cons, ih, List.mem_cons,
      Prod.mk.injEq]
    constructor
    · rintro (⟨rfl, rfl⟩ | ⟨hmem, rfl⟩)
      · exact ⟨Or.inl rfl, rfl⟩
      · exact ⟨Or.inr hmem, rfl⟩
    · rintro ⟨rfl | hmem, rfl⟩
      · exact Or.inl ⟨rfl, rfl⟩
      · exact Or.inr ⟨hmem, rfl⟩

/-- The content that was merged follows what was put before it, if it is not replaced. -/
theorem drop_children_mergeNode (hkept : replacement? (parts.chainFor node) = none) :
    (mergeNode parts node).children.drop (prepended (parts.chainFor node)).length =
      mergeAll parts node.children ++ appended (parts.chainFor node) := by
  rw [mergeNode_eq, overridden, hkept, Option.getD_none, List.append_assoc, List.drop_left]

/-- **A node that survives has become its merged form.** -/
theorem Survives.eq_mergeNode (h : Survives parts parent (mergeAll parts parent) node image) :
    image = mergeNode parts node := by
  induction h with
  | root hpair =>
    rw [← List.append_nil (mergeAll parts parent)] at hpair
    exact (mem_zip_mergeAll_iff.mp hpair).2
  | content _ hkept hpair ih =>
    rw [ih, drop_children_mergeNode hkept] at hpair
    exact (mem_zip_mergeAll_iff.mp hpair).2
  | @alternate outer _ _ _ _ hpair ih =>
    rw [ih, mergeNode_eq, ← List.append_nil (mergeAll parts outer.alternate)] at hpair
    exact (mem_zip_mergeAll_iff.mp hpair).2

/-- Every node that is not below a replaced region survives. -/
theorem Kept.survives (h : Kept parts parent node) :
    Survives parts parent (mergeAll parts parent) node (mergeNode parts node) := by
  induction h with
  | root hnode =>
    refine .root ?_
    rw [← List.append_nil (mergeAll parts parent)]
    exact mem_zip_mergeAll_iff.mpr ⟨hnode, rfl⟩
  | content _ hkept hnode ih =>
    refine .content ih hkept ?_
    rw [drop_children_mergeNode hkept]
    exact mem_zip_mergeAll_iff.mpr ⟨hnode, rfl⟩
  | @alternate outer _ _ hnode ih =>
    refine .alternate ih ?_
    rw [mergeNode_eq, ← List.append_nil (mergeAll parts outer.alternate)]
    exact mem_zip_mergeAll_iff.mpr ⟨hnode, rfl⟩

/-! ### Main result -/

/-- What a forest is after a child's overrides. -/
structure Merges (parts : ChildParts) (parent merged : List Node) : Prop where
  /-- With the overridden regions emptied it is the parent, emptied likewise: the same nodes in the
  same order, with their lines and files. -/
  frame : pruneAll parts merged = pruneAll parts parent
  /-- It is the parent itself if no name of a region in it is overridden. -/
  identity : (∀ node ∈ walkAll parent, ∀ name ∈ node.regionName?, parts.overridesOf name = []) →
    merged = parent
  /-- A node of the parent is still there, unless it is below a replaced region. -/
  survives : ∀ {node : Node}, Kept parts parent node →
    ∃ image, Survives parts parent merged node image
  /-- Such a node has its kind, line and file, and its branch is merged. -/
  survivor : ∀ {node image : Node}, Survives parts parent merged node image →
    image.kind = node.kind ∧ image.line = node.line ∧ image.file = node.file ∧
      image.alternate = mergeAll parts node.alternate
  /-- The content of a region is what the last replacement brings in, or is merged itself if there
  is none, between what the overrides after that prepend and append. -/
  content : ∀ {region image : Node}, Survives parts parent merged region image →
    ∀ name ∈ region.regionName?,
      image.children = prepended (parts.overridesOf name) ++
        (replacement? (parts.overridesOf name)).getD (mergeAll parts region.children) ++
          appended (parts.overridesOf name)
  /-- The content of any other node is merged. -/
  elsewhere : ∀ {node image : Node}, Survives parts parent merged node image →
    node.regionName? = none → image.children = mergeAll parts node.children

/-- **What the merge changes, and what it leaves.** -/
theorem merges_mergeAll (parts : ChildParts) (parent : List Node) :
    Merges parts parent (mergeAll parts parent) where
  frame := pruneAll_mergeAll parts parent
  identity h := by
    refine mergeAll_eq_self fun node hnode => ?_
    rw [ChildParts.isOverridden, ChildParts.chainFor]
    cases hname : node.regionName? with
    | none => rfl
    | some name => simp [h node hnode name hname]
  survives hkept := ⟨_, hkept.survives⟩
  survivor h := by
    rw [h.eq_mergeNode, mergeNode_eq]
    exact ⟨rfl, rfl, rfl, rfl⟩
  content h name hname := by
    rw [h.eq_mergeNode, mergeNode_eq, ChildParts.chainFor, Option.mem_def.mp hname]
    rfl
  elsewhere h hname := by
    rw [h.eq_mergeNode, mergeNode_eq, ChildParts.chainFor, hname]
    exact overridden_nil _

/-- Content that is replaced is followed and preceded by what is added later. -/
example : overridden [⟨.append, [.leaf (.text "a") 1]⟩, ⟨.replace, [.leaf (.text "b") 2]⟩,
    ⟨.prepend, [.leaf (.text "c") 3]⟩, ⟨.append, [.leaf (.text "d") 4]⟩,
    ⟨.prepend, [.leaf (.text "e") 5]⟩] [.leaf (.text "x") 6] =
      [.leaf (.text "e") 5, .leaf (.text "c") 3, .leaf (.text "b") 2, .leaf (.text "d") 4] :=
  rfl

end PugContracts.Resolution
