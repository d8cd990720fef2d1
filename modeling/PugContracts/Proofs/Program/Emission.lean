import PugContracts.Proofs.Program.Layout
import PugContracts.Proofs.Template.Nesting

/-!
# Which expressions are in a program

An expression whose value is printed is mentioned in the program, with its line, if nothing above it
keeps it out. What is nested in a node is part of the program if the kind of the node takes content
(`emitsContent`), the content of a script or a style aside, which is not written in the host
language. So an expression is kept out in two ways: below such an element, or below a node of a kind
that takes no content, such as a line of text or a directive. Nothing stands below the latter unless
lines of the template are stray; they go below the node before them, whatever its kind, and are lost
for the type checker if that kind takes no content.

`Stands nodes above node` says where in a forest a node is: below the nodes `above`, the outermost
of them first.

## Main results

* `mem_nodesSteps_of_stands`: what a node adds to the steps, if nothing above keeps it out.
* `nodesSteps_emittedAll`: what is kept out does not matter.
* `printed_expressions_shown`: the printed expressions of a template in its program.
-/

namespace PugContracts

namespace Template

/-- A node of a forest, with the nodes above it. -/
inductive Stands : List Node → List Node → Node → Prop
  /-- A root. -/
  | root {nodes : List Node} {node : Node} (hnode : node ∈ nodes) : Stands nodes [] node
  /-- A node in the content of another one. -/
  | content {nodes above : List Node} {outer node : Node} (houter : outer ∈ nodes)
      (hnode : Stands outer.children above node) : Stands nodes (outer :: above) node
  /-- A node in the alternate of another one. -/
  | alternate {nodes above : List Node} {outer node : Node} (houter : outer ∈ nodes)
      (hnode : Stands outer.alternate above node) : Stands nodes (outer :: above) node

variable {nodes above : List Node} {node outer inner : Node}

theorem mem_walkAll_of_children (houter : outer ∈ nodes) (hinner : inner ∈ walkAll outer.children) :
    inner ∈ walkAll nodes := by
  obtain ⟨before, after, rfl⟩ := List.append_of_mem houter
  obtain ⟨kind, line, file, children, alternate⟩ := outer
  simp only [walkAll_append, walkAll, Node.walk, List.mem_append, List.mem_cons]
  exact Or.inr (Or.inl (Or.inr (Or.inl hinner)))

theorem mem_walkAll_of_alternate (houter : outer ∈ nodes)
    (hinner : inner ∈ walkAll outer.alternate) : inner ∈ walkAll nodes := by
  obtain ⟨before, after, rfl⟩ := List.append_of_mem houter
  obtain ⟨kind, line, file, children, alternate⟩ := outer
  simp only [walkAll_append, walkAll, Node.walk, List.mem_append, List.mem_cons]
  exact Or.inr (Or.inl (Or.inr (Or.inr hinner)))

/-- The node and those above it are nodes of the forest. -/
theorem Stands.mem_walkAll (h : Stands nodes above node) :
    ∀ inner ∈ node :: above, inner ∈ walkAll nodes := by
  induction h with
  | root hnode => simpa using mem_walkAll_of_mem hnode
  | content houter _ ih =>
    have hinner := fun inner hinner => mem_walkAll_of_children houter (ih inner hinner)
    simp only [List.forall_mem_cons] at hinner ⊢
    exact ⟨hinner.1, mem_walkAll_of_mem houter, hinner.2⟩
  | alternate houter _ ih =>
    have hinner := fun inner hinner => mem_walkAll_of_alternate houter (ih inner hinner)
    simp only [List.forall_mem_cons] at hinner ⊢
    exact ⟨hinner.1, mem_walkAll_of_mem houter, hinner.2⟩

theorem Stands.ne_nil (h : Stands nodes above node) : nodes ≠ [] := by
  rintro rfl
  cases h <;> simp at *

/-- Something is nested in the nodes above. -/
theorem Stands.nonempty (h : Stands nodes above node) (houter : outer ∈ above) :
    outer.children ≠ [] ∨ outer.alternate ≠ [] := by
  induction h with
  | root => simp at houter
  | content _ hnode ih =>
    rcases List.mem_cons.mp houter with rfl | houter
    · exact Or.inl hnode.ne_nil
    · exact ih houter
  | alternate _ hnode ih =>
    rcases List.mem_cons.mp houter with rfl | houter
    · exact Or.inr hnode.ne_nil
    · exact ih houter

theorem Stands.cons (h : Stands nodes above node) (first : Node) :
    Stands (first :: nodes) above node := by
  cases h with
  | root hnode => exact .root (List.mem_cons_of_mem _ hnode)
  | content houter hnode => exact .content (List.mem_cons_of_mem _ houter) hnode
  | alternate houter hnode => exact .alternate (List.mem_cons_of_mem _ houter) hnode

/-- Every node of a forest stands somewhere in it. -/
theorem exists_stands_iff : (∃ above, Stands nodes above node) ↔ node ∈ walkAll nodes := by
  refine ⟨fun ⟨_, h⟩ => h.mem_walkAll node List.mem_cons_self, fun h => ?_⟩
  induction nodes using forest_induction with
  | nil => simp [walkAll] at h
  | cons kind line file children alternate rest hchildren halternate hrest =>
    simp only [walkAll, Node.walk, List.cons_append, List.mem_cons, List.mem_append] at h
    rcases h with rfl | (h | h) | h
    · exact ⟨[], .root List.mem_cons_self⟩
    · obtain ⟨above, h⟩ := hchildren h
      exact ⟨_ :: above, .content List.mem_cons_self h⟩
    · obtain ⟨above, h⟩ := halternate h
      exact ⟨_ :: above, .alternate List.mem_cons_self h⟩
    · exact (hrest h).imp fun _ h => h.cons _

end Template

namespace Program

open Template

variable {origin otherwise : Origin} {kind : NodeKind} {step : Step} {steps : List Step}
  {fallback : Path} {nodes above : List Node} {node : Node}

/-! ### What is part of a program -/

/-- Whether what is nested in a node of this kind is part of a program. -/
def emitsContent : NodeKind → Bool
  | .element name _ _ => !rawTextElements.contains name
  | kind => kind.takesContent

theorem emitsContent_eq_false_iff : emitsContent kind = false ↔
    (∃ name attributes spreads, kind = .element name attributes spreads ∧
      name ∈ rawTextElements) ∨ kind.takesContent = false := by
  cases kind <;> simp [emitsContent, NodeKind.takesContent]

theorem mem_kindSteps_of_content {isLeaf branches : Bool} {content alternate : List Step}
    (hemits : emitsContent kind = true) (hstep : step ∈ content) :
    step ∈ kindSteps origin otherwise kind isLeaf branches content alternate := by
  cases kind with
  | element name attributes spreads =>
    have hraw : rawTextElements.contains name = false := by simpa [emitsContent] using hemits
    simp only [kindSteps, hraw, Bool.false_eq_true, if_false]
    exact List.mem_append_right _ hstep
  | code value buffered escaped =>
    cases buffered with
    | true => exact List.mem_cons_of_mem _ hstep
    | false =>
      rw [kindSteps]
      split
      · exact List.mem_cons_of_mem _ hstep
      · simp [blockSteps, deeper, hstep]
  | each item key collection => simp [kindSteps, blockSteps, deeper, hstep]
  | loop test => simp [kindSteps, blockSteps, deeper, hstep]
  | conditional test negated => simp [kindSteps, deeper, hstep]
  | region name mode => exact hstep
  | mixin name args => simp [kindSteps, blockSteps, deeper, hstep]
  | mixinCall name args => exact List.mem_cons_of_mem _ hstep
  | _ => exact absurd hemits Bool.false_ne_true

theorem mem_kindSteps_of_alternate {isLeaf : Bool} {content alternate : List Step}
    (hbranches : kind.branches = true) (hstep : step ∈ alternate) :
    step ∈ kindSteps origin otherwise kind isLeaf true content alternate := by
  cases kind with
  | each item key collection => simp [kindSteps, blockSteps, deeper, hstep]
  | conditional test negated => simp [kindSteps, deeper, hstep]
  | _ => exact absurd hbranches Bool.false_ne_true

theorem mem_nodesSteps_of_mem (hnode : node ∈ nodes) (hstep : step ∈ nodeSteps fallback node) :
    step ∈ nodesSteps fallback nodes := by
  induction nodes with
  | nil => simp at hnode
  | cons first rest ih =>
    rw [nodesSteps, List.mem_append]
    rcases List.mem_cons.mp hnode with rfl | hnode
    · exact Or.inl hstep
    · exact Or.inr (ih hnode)

/-- **What a node adds to the steps is there if nothing above keeps it out**: the kinds above emit
content, and those with an alternate branch. -/
theorem mem_nodesSteps_of_stands (h : Stands nodes above node)
    (hemits : ∀ outer ∈ above, emitsContent outer.kind = true)
    (hbranches : ∀ outer ∈ above, outer.kind.branches = true ∨ outer.alternate = [])
    (hstep : step ∈ nodeSteps fallback node) : step ∈ nodesSteps fallback nodes := by
  induction h with
  | root hnode => exact mem_nodesSteps_of_mem hnode hstep
  | @content _ _ outer _ houter _ ih =>
    obtain ⟨hkind, hemits⟩ := List.forall_mem_cons.mp hemits
    have hinner := ih hemits (List.forall_mem_cons.mp hbranches).2 hstep
    refine mem_nodesSteps_of_mem houter ?_
    obtain ⟨kind, line, file, children, alternate⟩ := outer
    exact mem_kindSteps_of_content hkind hinner
  | @alternate _ _ outer _ houter _ ih =>
    obtain ⟨hkind, hbranches⟩ := List.forall_mem_cons.mp hbranches
    have hinner := ih (List.forall_mem_cons.mp hemits).2 hbranches hstep
    refine mem_nodesSteps_of_mem houter ?_
    obtain ⟨kind, line, file, children, alternate⟩ := outer
    cases alternate with
    | nil => simp [nodesSteps] at hinner
    | cons first rest =>
      exact mem_kindSteps_of_alternate (hkind.resolve_right (List.cons_ne_nil _ _)) hinner

/-! ### What is kept out -/

mutual

/-- A node without what is kept out of the program. -/
def emitted : Node → Node
  | ⟨kind, line, file, children, alternate⟩ =>
    ⟨kind, line, file, if emitsContent kind then emittedAll children else [],
      if kind.branches then emittedAll alternate else []⟩

/-- A forest without what is kept out of the program. -/
def emittedAll : List Node → List Node
  | [] => []
  | node :: rest => emitted node :: emittedAll rest

end

theorem isEmpty_emittedAll (nodes : List Node) : (emittedAll nodes).isEmpty = nodes.isEmpty := by
  cases nodes <;> rfl

theorem branchOrigin_emittedAll (default : Origin) (branch : List Node) :
    branchOrigin fallback default (emittedAll branch) = branchOrigin fallback default branch := by
  cases branch with
  | nil => rfl
  | cons first rest =>
    obtain ⟨kind, line, file, children, alternate⟩ := first
    rw [emittedAll, emitted]
    rfl

/-- Content that is not emitted does not matter. -/
theorem kindSteps_of_not_emits {isLeaf branches : Bool} {content alternate : List Step}
    (h : emitsContent kind = false) :
    kindSteps origin otherwise kind isLeaf branches content alternate =
      kindSteps origin otherwise kind true branches [] alternate := by
  cases kind with
  | element name attributes spreads =>
    have hraw : rawTextElements.contains name = true := by simpa [emitsContent] using h
    simp only [kindSteps, hraw, if_true]
  | text | comment | filter | doctype | inherits | inclusion => rfl
  | _ => exact absurd h.symm Bool.false_ne_true

/-- The alternate of a kind that does not branch does not matter. -/
theorem kindSteps_of_not_branches (otherwise' : Origin) {isLeaf branches : Bool}
    {content alternate : List Step} (h : kind.branches = false) :
    kindSteps origin otherwise kind isLeaf branches content alternate =
      kindSteps origin otherwise' kind isLeaf false content [] := by
  cases kind with
  | each | conditional => exact absurd h.symm Bool.false_ne_true
  | code value buffered escaped => cases buffered <;> rfl
  | _ => rfl

/-- **What is kept out of the program does not matter.** -/
theorem nodesSteps_emittedAll (fallback : Path) (nodes : List Node) :
    nodesSteps fallback (emittedAll nodes) = nodesSteps fallback nodes := by
  induction nodes using forest_induction with
  | nil => rfl
  | cons kind line file children alternate rest hchildren halternate hrest =>
    have hcontent : ∀ {origin otherwise branches other},
        let content := if emitsContent kind then emittedAll children else []
        kindSteps origin otherwise kind content.isEmpty branches (nodesSteps fallback content)
            other =
          kindSteps origin otherwise kind children.isEmpty branches (nodesSteps fallback children)
            other := by
      intro origin otherwise branches other
      cases hemits : emitsContent kind with
      | true => simp only [if_true, isEmpty_emittedAll, hchildren]
      | false => exact (kindSteps_of_not_emits hemits).trans (kindSteps_of_not_emits hemits).symm
    have hbranch : ∀ {origin isLeaf content},
        let branch := if kind.branches then emittedAll alternate else []
        kindSteps origin (branchOrigin fallback origin branch) kind isLeaf (!branch.isEmpty) content
            (nodesSteps fallback branch) =
          kindSteps origin (branchOrigin fallback origin alternate) kind isLeaf
            (!alternate.isEmpty) content (nodesSteps fallback alternate) := by
      intro origin isLeaf content
      cases hbranches : kind.branches with
      | true => simp only [if_true, isEmpty_emittedAll, branchOrigin_emittedAll, halternate]
      | false =>
        exact (kindSteps_of_not_branches origin hbranches).trans
          (kindSteps_of_not_branches origin hbranches).symm
    rw [emittedAll, nodesSteps, nodesSteps, hrest, emitted, nodeSteps, nodeSteps]
    dsimp only at hcontent hbranch ⊢
    rw [hcontent, hbranch]

/-! ### Printed expressions -/

/-- A program shows a text if the physical lines of the text stand in it, one after the other, at
one indentation and all with the given origin. -/
def Shows (program : Program) (text : List Char) (origin : Origin) : Prop :=
  ∃ pieces depth, PhysicalLines text pieces ∧
    pieces.map (fun piece => ⟨indented depth piece, origin⟩) <:+: program.lines

/-- A program shows what is pushed. -/
theorem shows_of_mem_steps {program : Program} {text : List Char}
    (hlines : program.lines = layout 0 steps) (hpush : .push text origin ∈ steps) :
    program.Shows text origin := by
  obtain ⟨before, after, rfl⟩ := List.append_of_mem hpush
  refine ⟨splitLines text, before.foldl Step.depthAfter 0, physicalLines_splitLines text,
    layout 0 before, layout (before.foldl Step.depthAfter 0) after, ?_⟩
  rw [hlines, layout_append, List.append_assoc]
  rfl

/-- **The printed expressions of a template in its program.** An expression that is printed, by code
or by an interpolation, is mentioned in the program with its own line, wherever it stands in the
tree, as long as the kinds above it emit their content. What is below the others does not matter for
the program. They are scripts and styles, and kinds that take no content, below which nothing stands
unless lines of the template were found to be stray. -/
theorem printed_expressions_shown (source : String) (contract : Contract)
    (shared : Option SharedLocals) :
    let template := parse source
    let program := generate template.nodes contract shared
    (∀ node ∈ walkAll template.nodes, ∃ above, Stands template.nodes above node) ∧
    (∀ above node value escaped, Stands template.nodes above node →
      node.kind = .code value true escaped → (∀ outer ∈ above, emitsContent outer.kind = true) →
        program.Shows (mention (bareExpression value)).toList (.ofNode node contract.template)) ∧
    program = generate (emittedAll template.nodes) contract shared ∧
    ∀ above node outer, Stands template.nodes above node → outer ∈ above →
      emitsContent outer.kind = false →
        (∃ name attributes spreads, outer.kind = .element name attributes spreads ∧
          name ∈ rawTextElements) ∨
        (outer.kind.takesContent = false ∧ Strayed template.errors) := by
  intro template program
  have hnested := nested_parse source
  refine ⟨fun node => exists_stands_iff.mpr,
    fun above node value escaped hstands hkind hemits => ?_, ?_,
    fun above node outer hstands houter hemits => ?_⟩
  · have hbranches : ∀ outer ∈ above, outer.kind.branches = true ∨ outer.alternate = [] :=
      fun outer houter =>
        (hnested outer (hstands.mem_walkAll outer (List.mem_cons_of_mem _ houter))).alternate
    have hpushed : pushing (.ofNode node contract.template) (mention (bareExpression value)) ∈
        nodeSteps contract.template node := by
      obtain ⟨kind, line, file, children, alternate⟩ := node
      obtain rfl : kind = .code value true escaped := hkind
      exact List.mem_cons_self
    refine shows_of_mem_steps rfl ?_
    rw [programSteps]
    exact List.mem_append_left _ (List.mem_append_right _
      (mem_nodesSteps_of_stands hstands hemits hbranches hpushed))
  · rw [generate, programSteps, nodesSteps_emittedAll]
    rfl
  · rcases emitsContent_eq_false_iff.mp hemits with hraw | htakes
    · exact Or.inl hraw
    · obtain ⟨hcontent, halternate⟩ :=
        hnested outer (hstands.mem_walkAll outer (List.mem_cons_of_mem _ houter))
      rw [htakes] at hcontent
      rw [NodeKind.branches_eq_false_of_takesContent htakes] at halternate
      have hchildren := (hstands.nonempty houter).resolve_right
        (not_not.mpr (halternate.resolve_left Bool.false_ne_true))
      exact Or.inr ⟨htakes,
        ((hcontent.resolve_left Bool.false_ne_true).resolve_right hchildren)⟩

/-- The program of a template in which a stray expression went below a line of text. -/
example : (generate (parse "| a\n  = b").nodes (.ofTemplate ⟨"/v/p.pug"⟩) none).lineMap.map
    (·.line) = [0, 1, 1, 1, 1] := by
  cbv

end Program

end PugContracts
