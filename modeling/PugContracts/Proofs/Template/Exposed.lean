import PugContracts.Proofs.Template.Nesting

/-!
# Directives without content

A directive is replaced when a template is resolved, and what is nested in it would be lost. Nothing
is, in a template without syntax errors: a directive takes no content, so lines below it are
reported as stray (`exposed_parse`). Then no node is hidden by a directive, and the nodes of the
template are the live ones (`Exposed.mem_liveAll_iff`).
-/

namespace PugContracts.Template

variable {kind : NodeKind} {line : Nat} {file : Option Path} {node : Node}
  {nodes children alternate rest : List Node}

theorem NodeKind.takesContent_eq_false_of_isDirective (h : kind.isDirective = true) :
    kind.takesContent = false := by
  cases kind <;> first | rfl | exact absurd h Bool.false_ne_true

/-- If the node is a directive, nothing is nested in it. -/
def Node.HidesNothing (node : Node) : Prop :=
  node.kind.isDirective = true → node.children = [] ∧ node.alternate = []

/-- No directive of a forest has anything nested in it. -/
def Exposed (nodes : List Node) : Prop :=
  ∀ node ∈ walkAll nodes, node.HidesNothing

@[simp] theorem exposed_cons :
    Exposed (⟨kind, line, file, children, alternate⟩ :: rest) ↔
      Node.HidesNothing ⟨kind, line, file, children, alternate⟩ ∧
        Exposed children ∧ Exposed alternate ∧ Exposed rest := by
  simp only [Exposed, walkAll, Node.walk, List.cons_append, List.append_assoc, List.mem_cons,
    List.mem_append, or_imp, forall_and, forall_eq]

/-- In an exposed forest no node is hidden. -/
theorem Exposed.mem_liveAll_iff (h : Exposed nodes) :
    node ∈ liveAll nodes ↔ node ∈ walkAll nodes := by
  refine ⟨mem_walkAll_of_mem_liveAll, fun hnode => ?_⟩
  induction nodes using forest_induction with
  | nil => simp [walkAll] at hnode
  | cons kind line file children alternate rest hchildren halternate hrest =>
    obtain ⟨hdirective, hinner, hother, hafter⟩ := exposed_cons.mp h
    simp only [walkAll, Node.walk, List.cons_append, List.append_assoc, List.mem_cons,
      List.mem_append] at hnode
    rw [liveAll, Node.live]
    by_cases hkind : kind.isDirective = true
    · obtain ⟨rfl, rfl⟩ := hdirective hkind
      simp only [walkAll, List.not_mem_nil, false_or] at hnode
      rw [if_pos hkind, List.singleton_append, List.mem_cons]
      exact hnode.imp_right (hrest hafter)
    · rw [if_neg hkind, List.cons_append, List.append_assoc, List.mem_cons, List.mem_append,
        List.mem_append]
      exact hnode.imp_right
        (Or.imp (hchildren hinner) (Or.imp (halternate hother) (hrest hafter)))

/-- **In a template without syntax errors nothing is nested in a directive.** -/
theorem exposed_parse {source : String} (h : (parse source).errors = []) :
    Exposed (parse source).nodes := by
  intro node hnode hdirective
  obtain ⟨hcontent, halternate⟩ := nested_parse source node hnode
  have hstrays : ¬ Strayed (parse source).errors := by
    rintro ⟨error, herror, -⟩
    rw [h] at herror
    exact List.not_mem_nil herror
  have htakes := NodeKind.takesContent_eq_false_of_isDirective hdirective
  rw [htakes] at hcontent
  rw [NodeKind.branches_eq_false_of_takesContent htakes] at halternate
  exact ⟨(hcontent.resolve_left Bool.false_ne_true).resolve_left hstrays,
    halternate.resolve_left Bool.false_ne_true⟩

end PugContracts.Template
