import PugContracts.Template.Node

/-!
# Forests

A statement about forests is proved by one induction, `forest_induction`, which gives it for the
children, for the alternate and for the trees that follow.

`Everywhere P nodes` says `P` of the kind, the line and the file of every node of a forest, whatever
is nested in it. What is said in this way does not change when a tree is moved, stamped anew with
the same file, or given other children. `liveAll` lists the nodes that are not nested below a
directive.

Which nodes have content and an alternate depends on their kinds (`NodeKind.takesContent`,
`NodeKind.branches`).
-/

namespace PugContracts.Template

namespace NodeKind

/-- Whether the statements that a node of this kind is read from take content. -/
def takesContent : NodeKind → Bool
  | .text _ | .comment _ _ | .filter _ | .doctype _ | .inherits _ | .inclusion _ _ => false
  | _ => true

/-- Whether a node of this kind can have an alternate. -/
def branches : NodeKind → Bool
  | .each _ _ _ | .conditional _ _ => true
  | _ => false

/-- A kind is that of one of the two directives or of none. -/
@[elab_as_elim]
theorem directiveCases {motive : NodeKind → Prop} (inherits : ∀ target, motive (.inherits target))
    (inclusion : ∀ target filter, motive (.inclusion target filter))
    (plain : ∀ kind, kind.isDirective = false → motive kind) (kind : NodeKind) : motive kind := by
  cases kind with
  | inherits target => exact inherits target
  | inclusion target filter => exact inclusion target filter
  | _ => exact plain _ rfl

theorem branches_eq_false_of_takesContent {kind : NodeKind} (h : kind.takesContent = false) :
    kind.branches = false := by
  cases kind <;> first | rfl | exact absurd h.symm Bool.false_ne_true

end NodeKind

theorem forest_induction {motive : List Node → Prop} (nil : motive [])
    (cons : ∀ kind line file children alternate rest, motive children → motive alternate →
      motive rest → motive (⟨kind, line, file, children, alternate⟩ :: rest)) :
    ∀ nodes, motive nodes
  | [] => nil
  | ⟨kind, line, file, children, alternate⟩ :: rest =>
    cons kind line file children alternate rest (forest_induction nil cons children)
      (forest_induction nil cons alternate) (forest_induction nil cons rest)

/-! ### Document order -/

@[simp] theorem walkAll_append (before after : List Node) :
    walkAll (before ++ after) = walkAll before ++ walkAll after := by
  induction before with
  | nil => rfl
  | cons node rest ih => simp [walkAll, ih]

theorem mem_walk (node : Node) : node ∈ node.walk := by
  cases node
  exact List.mem_cons_self

theorem mem_walkAll_of_mem {nodes : List Node} {node : Node} (h : node ∈ nodes) :
    node ∈ walkAll nodes := by
  induction nodes with
  | nil => simp at h
  | cons first rest ih =>
    rw [walkAll, List.mem_append]
    rcases List.mem_cons.mp h with rfl | h
    · exact Or.inl (mem_walk node)
    · exact Or.inr (ih h)

/-! ### What holds of every node -/

/-- A property of kind, line and file holds of every node of a forest. -/
def Everywhere (P : NodeKind → Nat → Option Path → Prop) (nodes : List Node) : Prop :=
  ∀ node ∈ walkAll nodes, P node.kind node.line node.file

variable {P Q : NodeKind → Nat → Option Path → Prop} {nodes : List Node}

@[simp] theorem everywhere_nil : Everywhere P [] := by
  intro node h
  simp [walkAll] at h

@[simp] theorem everywhere_cons {kind : NodeKind} {line : Nat} {file : Option Path}
    {children alternate rest : List Node} :
    Everywhere P (⟨kind, line, file, children, alternate⟩ :: rest) ↔
      P kind line file ∧ Everywhere P children ∧ Everywhere P alternate ∧ Everywhere P rest := by
  simp only [Everywhere, walkAll, Node.walk, List.cons_append, List.append_assoc, List.mem_cons,
    List.mem_append, or_imp, forall_and, forall_eq]

@[simp] theorem everywhere_append {before after : List Node} :
    Everywhere P (before ++ after) ↔ Everywhere P before ∧ Everywhere P after := by
  simp only [Everywhere, walkAll_append, List.mem_append, or_imp, forall_and]

theorem Everywhere.mono (h : Everywhere P nodes)
    (himp : ∀ kind line file, P kind line file → Q kind line file) : Everywhere Q nodes :=
  fun node hnode => himp _ _ _ (h node hnode)

/-- What holds everywhere in a forest holds of what is nested in one of its trees. -/
theorem Everywhere.children {node : Node} (h : Everywhere P nodes) (hnode : node ∈ nodes) :
    Everywhere P node.children := by
  intro inner hinner
  refine h inner ?_
  induction nodes with
  | nil => simp at hnode
  | cons first rest ih =>
    rw [walkAll, List.mem_append]
    rcases List.mem_cons.mp hnode with rfl | hnode
    · obtain ⟨kind, line, file, children, alternate⟩ := node
      exact Or.inl (List.mem_cons_of_mem _ (List.mem_append_left _ hinner))
    · exact Or.inr (ih (fun other hother => h other (by simp [walkAll, hother])) hnode)

/-- A stamped forest has the kinds and lines of the forest, and one file. -/
@[simp] theorem everywhere_stampAll {file : Path} :
    Everywhere P (stampAll file nodes) ↔
      Everywhere (fun kind line _ => P kind line (some file)) nodes := by
  induction nodes using forest_induction with
  | nil => simp [stampAll]
  | cons kind line origin children alternate rest hchildren halternate hrest =>
    simp only [stampAll, Node.stamp, everywhere_cons, hchildren, halternate, hrest]

/-! ### Nodes that a directive does not hide -/

mutual

/-- A node and, unless it is a directive, all that is nested in it and not hidden. -/
def Node.live : Node → List Node
  | ⟨kind, line, file, children, alternate⟩ =>
    ⟨kind, line, file, children, alternate⟩ ::
      if kind.isDirective then [] else liveAll children ++ liveAll alternate

/-- The nodes of a forest that are not nested below a directive. -/
def liveAll : List Node → List Node
  | [] => []
  | node :: rest => node.live ++ liveAll rest

end

theorem mem_walkAll_of_mem_liveAll {node : Node} (h : node ∈ liveAll nodes) :
    node ∈ walkAll nodes := by
  induction nodes using forest_induction with
  | nil => simp [liveAll] at h
  | cons kind line file children alternate rest hchildren halternate hrest =>
    simp only [liveAll, Node.live, List.cons_append, List.mem_cons, List.mem_append] at h
    simp only [walkAll, Node.walk, List.cons_append, List.mem_cons, List.mem_append]
    rcases h with rfl | h | h
    · exact Or.inl rfl
    · right
      left
      split at h
      · simp at h
      · rcases List.mem_append.mp h with h | h
        · exact Or.inl (hchildren h)
        · exact Or.inr (halternate h)
    · exact Or.inr (Or.inr (hrest h))

end PugContracts.Template
