import PugContracts.Proofs.Template.Forest
import PugContracts.Proofs.Template.Reading

/-!
# What is nested in what

The statements of a template decide which nodes have content: a tag, a loop or a mixin takes the
block below it, a line of text or a directive does not, and only a loop over a collection and a
conditional have an alternate. There is one exception. Lines that are deeper than the block in which
they stand are *stray*, and they go below the node before them, whatever that is. They are reported,
so in a template without such a fault the exception does not arise (`nested_parse`).

`Nested strays` says this of a forest, where `strays` stands for what is known if stray lines were
found. It is shown of the nodes of a statement when it is read (`Statement.nested_read`) and when it
is closed (`Statement.nested_close`), and so of those of a block.

## Main results

* `nested_parse`: what is nested in the nodes of a template.
-/

namespace PugContracts.Template

variable {strays : Prop} {kind : NodeKind} {line number indent : Nat} {file : Option Path}
  {floor : Option Nat} {node : Node} {nodes before after branch block children alternate rest :
  List Node} {text : List Char} {lines : List SourceLine}

/-- The node has content only if it takes some or if there are stray lines, and an alternate only if
it branches. -/
structure Node.Nests (strays : Prop) (node : Node) : Prop where
  /-- What the content depends on. -/
  content : node.kind.takesContent = true ∨ strays ∨ node.children = []
  /-- What the alternate depends on. -/
  alternate : node.kind.branches = true ∨ node.alternate = []

/-- This is so for every node of a forest. -/
def Nested (strays : Prop) (nodes : List Node) : Prop :=
  ∀ node ∈ walkAll nodes, node.Nests strays

@[simp] theorem nested_nil : Nested strays [] := by
  intro node h
  simp [walkAll] at h

@[simp] theorem nested_cons :
    Nested strays (⟨kind, line, file, children, alternate⟩ :: rest) ↔
      Node.Nests strays ⟨kind, line, file, children, alternate⟩ ∧
        Nested strays children ∧ Nested strays alternate ∧ Nested strays rest := by
  simp only [Nested, walkAll, Node.walk, List.cons_append, List.append_assoc, List.mem_cons,
    List.mem_append, or_imp, forall_and, forall_eq]

@[simp] theorem nested_append :
    Nested strays (before ++ after) ↔ Nested strays before ∧ Nested strays after := by
  simp only [Nested, walkAll_append, List.mem_append, or_imp, forall_and]

theorem nested_leaf : Nested strays [Node.leaf kind line] := by
  rw [Node.leaf, nested_cons]
  exact ⟨⟨Or.inr (Or.inr rfl), Or.inr rfl⟩, nested_nil, nested_nil, nested_nil⟩

/-- Content may be added to a node that takes some, and stray nodes to any. -/
theorem Nested.addChildren (h : Nested strays [node])
    (htakes : node.kind.takesContent = true ∨ strays) (hblock : Nested strays block) :
    Nested strays [node.addChildren block] := by
  obtain ⟨kind, line, file, children, alternate⟩ := node
  rw [nested_cons] at h
  rw [Node.addChildren, nested_cons, nested_append]
  exact ⟨⟨htakes.imp_right Or.inl, h.1.alternate⟩, ⟨h.2.1, hblock⟩, h.2.2.1, nested_nil⟩

/-! ### Statements -/

/-- A node that may be given content. -/
def Node.Open (strays : Prop) (node : Node) : Prop :=
  node.kind.takesContent = true ∧ Nested strays [node]

theorem Node.Open.addChildren (h : node.Open strays) (hblock : Nested strays block) :
    (node.addChildren block).Open strays :=
  ⟨h.1, h.2.addChildren (Or.inl h.1) hblock⟩

theorem open_leaf (hkind : kind.takesContent = true) : (Node.leaf kind line).Open strays :=
  ⟨hkind, nested_leaf⟩

namespace Statement

/-- The nodes that a statement says are nested well, and those that are given a block take it. -/
def Nested (strays : Prop) : Statement → Prop
  | complete nodes => Template.Nested strays nodes
  | heading node => node.Open strays
  | elseIf conditional => conditional.Open strays
  | nested element inner => element.Open strays ∧ inner.Nested strays
  | dissolved _ | dropped | elseBranch => True

theorem Attaches.nested {whole : Node} (h : Attaches branch node whole)
    (hbranch : Template.Nested strays branch) (hnode : Template.Nested strays [node]) :
    Template.Nested strays [whole] := by
  induction h with
  | conditional | each =>
    rw [nested_cons] at hnode ⊢
    exact ⟨⟨Or.inl rfl, Or.inl rfl⟩, hnode.2.1, hbranch, nested_nil⟩
  | further _ _ ih =>
    rw [nested_cons] at hnode ⊢
    exact ⟨⟨Or.inl rfl, Or.inl rfl⟩, hnode.2.1, ih hnode.2.2.1, nested_nil⟩

theorem nested_attachToLast (hbefore : Template.Nested strays before)
    (hbranch : Template.Nested strays branch) :
    Template.Nested strays (attachToLast line branch before).1 := by
  rw [attachToLast]
  split
  · next last hlast =>
    obtain ⟨node, hnode, hattach⟩ := Option.bind_eq_some_iff.mp hlast
    obtain ⟨others, rfl⟩ := List.getLast?_eq_some_iff.mp hnode
    rw [nested_append] at hbefore
    rw [List.dropLast_concat, nested_append]
    exact ⟨hbefore.1, (attaches_of_attachElse? hattach).nested hbranch hbefore.2⟩
  · exact nested_append.mpr ⟨hbefore, hbranch⟩

/-- Closing a statement keeps nodes nested well. -/
theorem nested_close {statement : Statement} (h : statement.Nested strays)
    (hblock : Template.Nested strays block) (hbefore : Template.Nested strays before) :
    Template.Nested strays (close line statement block before).1 := by
  induction statement generalizing before with
  | complete nodes => exact nested_append.mpr ⟨hbefore, h⟩
  | heading node => exact nested_append.mpr ⟨hbefore, (h.addChildren hblock).2⟩
  | dissolved => exact nested_append.mpr ⟨hbefore, hblock⟩
  | dropped => exact hbefore
  | elseBranch => exact nested_attachToLast hbefore hblock
  | elseIf conditional => exact nested_attachToLast hbefore (h.addChildren hblock).2
  | nested element inner ih =>
    exact nested_append.mpr ⟨hbefore, (h.1.addChildren (ih h.2 nested_nil)).2⟩

theorem nested_textNodes : Template.Nested strays (textNodes number text).1 := by
  have hleaves : ∀ segments : List Segment,
      Template.Nested strays (segments.map (segmentNode number)) := by
    intro segments
    induction segments with
    | nil => exact nested_nil
    | cons segment rest ih =>
      rw [List.map_cons, ← List.singleton_append, nested_append]
      refine ⟨?_, ih⟩
      cases segment <;> exact nested_leaf
  rw [textNodes]
  split
  · exact hleaves _
  · exact nested_leaf

theorem nested_textBlock : Template.Nested strays (textBlock lines).1 := by
  induction lines with
  | nil => exact nested_nil
  | cons line rest ih =>
    rw [textBlock, List.map_cons, List.flatMap_cons, nested_append]
    exact ⟨nested_textNodes, ih⟩

theorem nested_plainCode :
    Template.Nested strays (lines.map fun line => plainCode line.number line.text) := by
  induction lines with
  | nil => exact nested_nil
  | cons line rest ih =>
    rw [List.map_cons, ← List.singleton_append, nested_append]
    exact ⟨nested_leaf, ih⟩

/-- A statement that starts with a word is nested well. -/
theorem Says.nested {worded : Worded} (h : Says number text worded) : worded.1.Nested strays := by
  cases h with
  | leaf => exact nested_leaf
  | untargeted => exact nested_nil
  | heading hkind => exact open_leaf hkind
  | elseIf => exact open_leaf rfl
  | unnamed | malformed | otherwise => trivial

theorem nested_simple? {reading : StatementReading}
    (h : simple? number indent text lines = some reading) : reading.statement.Nested strays := by
  unfold simple? at h
  split at h
  case h_10 =>
    obtain ⟨worded, hworded, rfl⟩ := Option.map_eq_some_iff.mp h
    exact (says_ofKeyword? _ hworded).nested
  all_goals
    rw [Option.some.injEq] at h
    subst h
  case h_1 comment =>
    rw [commentStatement.eq_def]
    exact nested_leaf
  case h_2 | h_3 | h_4 => exact nested_textNodes
  case h_5 code =>
    rw [codeStatement]
    split
    · exact nested_plainCode
    · exact open_leaf rfl
  case h_6 | h_7 | h_8 => exact nested_leaf
  case h_9 call =>
    rw [callStatement]
    split
    · exact nested_nil
    · dsimp only
      split
      · exact (open_leaf rfl).addChildren nested_nil
      · exact (open_leaf rfl).addChildren nested_textNodes

theorem open_elementNode {head : TagHead} (hchildren : Template.Nested strays children) :
    (elementNode number head children).Open strays :=
  (open_leaf rfl).addChildren hchildren

theorem nested_element {reading : StatementReading}
    (h : element number indent text lines = .done reading) : reading.statement.Nested strays := by
  unfold element at h
  split at h
  · rw [ElementReading.done.injEq] at h
    exact h ▸ nested_nil
  · rw [ElementReading.done.injEq] at h
    exact h ▸ trivial
  · split at h
    all_goals simp only [ElementReading.done.injEq, reduceCtorEq] at h
    all_goals subst h
    case h_1 => exact open_elementNode nested_nil
    case h_2 => exact open_elementNode nested_textNodes
    case h_3 => exact open_elementNode nested_leaf
    case h_4 => exact (open_elementNode nested_textBlock).2
    case h_5 => exact (open_elementNode nested_nil).2

/-- **Every statement is nested well** when it is read. -/
theorem nested_read (number indent : Nat) (text : List Char) (lines : List SourceLine) :
    (read number indent text lines).statement.Nested strays := by
  fun_induction read number indent text lines with
  | case1 text lines reading hsimple => exact nested_simple? hsimple
  | case2 text lines _ reading hdone => exact nested_element hdone
  | case3 text lines _ node inner rest hexpands reading ih =>
    refine ⟨?_, ih⟩
    unfold element at hexpands
    split at hexpands
    · simp at hexpands
    · simp at hexpands
    · split at hexpands
      all_goals simp only [reduceCtorEq, ElementReading.expansion.injEq] at hexpands
      exact hexpands.1 ▸ open_elementNode nested_nil

end Statement

/-! ### Blocks -/

theorem nested_absorb {stray : List Node} (hbefore : Nested strays before) (hstrays : strays)
    (hstray : Nested strays stray) : Nested strays (absorb before stray) := by
  rw [absorb]
  split
  · next last hlast =>
    obtain ⟨others, rfl⟩ := List.getLast?_eq_some_iff.mp hlast
    rw [nested_append] at hbefore
    rw [List.dropLast_concat, nested_append]
    exact ⟨hbefore.1, hbefore.2.addChildren (Or.inr hstrays) hstray⟩
  · exact hstray

/-- Some lines were found to be stray. -/
def Strayed (errors : List SyntaxError) : Prop :=
  ∃ error ∈ errors, error.fault = .unexpectedIndentation

theorem Strayed.mono {errors more : List SyntaxError} (h : Strayed errors)
    (hsub : ∀ error ∈ errors, error ∈ more) : Strayed more := by
  obtain ⟨error, herror, hfault⟩ := h
  exact ⟨error, hsub error herror, hfault⟩

/-- **Reading a block keeps nodes nested well**, if it is known what stray lines are to entail. -/
theorem Reads.nested {reading : BlockReading} (h : Reads floor indent before lines reading)
    (hbefore : Nested strays before) (hstrays : Strayed reading.errors → strays) :
    Nested strays reading.nodes := by
  have hclosed : ∀ (start : Start) {block before : List Node}, Nested strays block →
      Nested strays before →
        Nested strays (start.reading.statement.close start.line.number block before).1 :=
    fun start _ _ hblock hbefore =>
      Statement.nested_close (Statement.nested_read _ _ _ _) hblock hbefore
  induction h with
  | nil => exact hbefore
  | blank _ _ ih => exact ih hbefore hstrays
  | ends => exact hbefore
  | @sibling _ _ _ line after opened block _ _ _ _ hopened _ hleaves _ ihblock ih =>
    subst hopened
    have hblock : Nested strays block.nodes := by
      cases htaken : (Start.mk line after).reading.statement.takesBlock with
      | true =>
        refine ihblock htaken nested_nil fun h => hstrays (h.mono ?_)
        simp +contextual [BlockReading.afterErrors]
      | false =>
        rw [hleaves htaken]
        exact nested_nil
    refine ih (hclosed ⟨line, after⟩ hblock hbefore) fun h => hstrays (h.mono ?_)
    simp +contextual [BlockReading.afterErrors]
  | @stray _ _ _ line after opened block more _ _ _ _ hopened _ hleaves _ _ ihblock ihmore ih =>
    subst hopened
    have hfound : strays := hstrays ⟨_, List.mem_append_left _ List.mem_cons_self, rfl⟩
    have hblock : Nested strays block.nodes := by
      cases htaken : (Start.mk line after).reading.statement.takesBlock with
      | true => exact ihblock htaken nested_nil fun _ => hfound
      | false =>
        rw [hleaves htaken]
        exact nested_nil
    have hmore := ihmore (hclosed ⟨line, after⟩ hblock nested_nil) fun _ => hfound
    exact ih (nested_absorb hbefore hfound hmore) fun _ => hfound

/-- **What is nested in the nodes of a template**: content in those that take it, and in others only
if lines were found to be stray; an alternate in those that branch. -/
theorem nested_parse (source : String) :
    Nested (Strayed (parse source).errors) (parse source).nodes :=
  (reads_siblings none (firstIndent (SourceLine.ofSource source.toList)) []
    (SourceLine.ofSource source.toList)).nested nested_nil id

end PugContracts.Template
