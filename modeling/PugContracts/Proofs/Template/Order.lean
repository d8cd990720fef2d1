import PugContracts.Proofs.Template.Nesting

/-!
# Document order

A node is read from a line, its children from that line and the lines below, its alternate from
lines below these. So going through a tree in document order is going down the text. That is so for
every form of statement, for its content on the same line and in the block below it, and for a
branch that is attached to a tree that had been finished. It is not so for stray lines, which go
below the node before them, and so before its alternate; but they are reported.

`Echoes` says of a list that it goes through another one in order, where it may repeat an element or
leave it out. The lines of the nodes of a block echo the lines that the block was read from
(`Reads.echoes`), and what echoes an ascending list ascends.

## Main results

* `Statement.linesOf_close`: the lines of the nodes that closing a statement leads to, in order.
* `Statement.ordered_read`: the lines of the nodes of a statement.
* `echoes_parse`: the lines of the nodes of a template.
-/

namespace PugContracts

/-! ### Lists that go through a list -/

/-- The first list goes through the second one in order, and it may repeat an element and leave it
out. -/
inductive Echoes {α : Type} : List α → List α → Prop
  /-- There is nothing left to go through. -/
  | nil : Echoes [] []
  /-- An element is left out from here on. -/
  | skip {a : α} {echo list : List α} (h : Echoes echo list) : Echoes echo (a :: list)
  /-- An element is said, and may be said again. -/
  | say {a : α} {echo list : List α} (h : Echoes echo (a :: list)) : Echoes (a :: echo) (a :: list)

namespace Echoes

variable {α : Type} {a : α} {echo more list other : List α}

theorem of_nil (list : List α) : Echoes [] list := by
  induction list with
  | nil => exact .nil
  | cons a rest ih => exact .skip ih

theorem mem (h : Echoes echo list) (ha : a ∈ echo) : a ∈ list := by
  induction h with
  | nil => exact ha
  | skip _ ih => exact List.mem_cons_of_mem _ (ih ha)
  | say _ ih => exact (List.mem_cons.mp ha).elim (fun heq => heq ▸ List.mem_cons_self) ih

theorem append (h : Echoes echo list) (hmore : Echoes more other) :
    Echoes (echo ++ more) (list ++ other) := by
  induction h with
  | nil => exact hmore
  | skip _ ih => exact .skip ih
  | say _ ih => exact .say ih

theorem of_sublist (h : echo.Sublist list) : Echoes echo list := by
  induction h with
  | slnil => exact .nil
  | cons a _ ih => exact .skip ih
  | cons_cons a _ ih => exact .say (.skip ih)

/-- What goes through a part of a list goes through the list. -/
theorem mono (h : Echoes echo list) (hsub : list.Sublist other) : Echoes echo other := by
  induction hsub generalizing echo with
  | slnil => exact h
  | cons a _ ih => exact .skip (ih h)
  | @cons_cons rest other a _ ih =>
    induction echo with
    | nil => exact of_nil _
    | cons b echo ihecho =>
      cases h with
      | skip h => exact .skip (ih h)
      | say h => exact .say (ihecho h)

/-- Saying one element over and over. -/
theorem say_all (hmore : ∀ b ∈ more, b = a) (h : Echoes echo (a :: list)) :
    Echoes (more ++ echo) (a :: list) := by
  induction more with
  | nil => exact h
  | cons b rest ih =>
    obtain ⟨rfl, hrest⟩ := List.forall_mem_cons.mp hmore
    exact .say (ih hrest)

theorem of_forall_eq (h : ∀ b ∈ echo, b = a) : Echoes echo (a :: list) := by
  simpa using say_all h (of_nil (a :: list))

/-- What holds of an element and any later one in a list holds of its echo. -/
theorem pairwise {r : α → α → Prop} (h : Echoes echo list) (hrefl : ∀ a, r a a)
    (hlist : list.Pairwise r) : echo.Pairwise r := by
  induction h with
  | nil => exact .nil
  | skip _ ih => exact ih (List.pairwise_cons.mp hlist).2
  | say h ih =>
    refine List.pairwise_cons.mpr ⟨fun b hb => ?_, ih hlist⟩
    rcases List.mem_cons.mp (h.mem hb) with rfl | hb
    · exact hrefl _
    · exact (List.pairwise_cons.mp hlist).1 b hb

end Echoes

namespace Template

variable {line number indent : Nat} {floor : Option Nat} {kind : NodeKind} {node : Node}
  {before branch more block children : List Node} {text : List Char} {lines : List SourceLine}

/-- Content that is added to a node without an alternate comes last. -/
theorem linesOf_addChildren (h : node.alternate = []) (more : List Node) :
    linesOf [node.addChildren more] = linesOf [node] ++ linesOf more := by
  obtain ⟨kind, line, file, children, alternate⟩ := node
  obtain rfl : alternate = [] := h
  simp [Node.addChildren]

namespace Statement

/-! ### Closing a statement -/

/-- The nodes that a block is added to have no alternate. -/
def Unbranched : Statement → Prop
  | heading node | elseIf node => node.alternate = []
  | nested element inner => element.alternate = [] ∧ inner.Unbranched
  | complete _ | dissolved _ | dropped | elseBranch => True

/-- The lines that a statement adds to those of its own nodes when it is closed. -/
def blockLines (statement : Statement) (block : List Node) : List Nat :=
  if statement.takesBlock && !statement.drops then linesOf block else []

/-- **Closing a statement keeps the order**: its own nodes come after those before it, and the block
comes last. -/
theorem linesOf_close {statement : Statement} (h : statement.Unbranched) (line : Nat)
    (block before : List Node) :
    linesOf (close line statement block before).1 =
      linesOf before ++ (statement.ownLines ++ statement.blockLines block) := by
  induction statement generalizing before with
  | complete | dissolved | dropped => simp [close, ownLines, blockLines, takesBlock, drops]
  | heading node =>
    simp [close, ownLines, blockLines, takesBlock, drops, linesOf_addChildren h]
  | elseBranch =>
    simp [close, ownLines, blockLines, takesBlock, drops, linesOf_attachToLast]
  | elseIf conditional =>
    simp [close, ownLines, blockLines, takesBlock, drops, linesOf_attachToLast,
      linesOf_addChildren h]
  | nested element inner ih =>
    rw [close, linesOf_append, linesOf_addChildren h.1, ih h.2, linesOf_nil, List.nil_append,
      ownLines, List.append_assoc]
    rfl

/-! ### Reading a statement -/

/-- A statement that says no more than one node without content, on the given line. -/
inductive Plain (number : Nat) : Statement → Prop
  | nothing : Plain number (.complete [])
  | leaf {kind : NodeKind} : Plain number (.complete [.leaf kind number])
  | heading {kind : NodeKind} : Plain number (.heading (.leaf kind number))
  | dissolved {fault? : Option Fault} : Plain number (.dissolved fault?)
  | dropped : Plain number .dropped
  | elseBranch : Plain number .elseBranch
  | elseIf {kind : NodeKind} : Plain number (.elseIf (.leaf kind number))

/-- The statements that start with a word are plain. -/
theorem Says.plain {worded : Worded} (h : Says number text worded) : Plain number worded.1 := by
  cases h with
  | leaf => exact .leaf
  | untargeted => exact .nothing
  | heading => exact .heading
  | unnamed => exact .dropped
  | malformed => exact .dissolved
  | elseIf => exact .elseIf
  | otherwise => exact .elseBranch

theorem Plain.unbranched {statement : Statement} (h : Plain number statement) :
    statement.Unbranched := by
  cases h <;> trivial

theorem Plain.eq_of_mem_ownLines {statement : Statement} (h : Plain number statement) :
    ∀ n ∈ statement.ownLines, n = number := by
  cases h <;> simp [ownLines]

/-- The order of the nodes of a statement: going through them is going through its line and the
further lines that it takes. -/
structure Ordered (number : Nat) (lines : List SourceLine) (reading : StatementReading) : Prop where
  /-- The nodes that the block is added to have no alternate. -/
  unbranched : reading.statement.Unbranched
  /-- The lines of the nodes are those that were taken, in order. -/
  echoes : ∃ taken, lines = taken ++ reading.rest ∧
    Echoes reading.statement.ownLines (number :: taken.map SourceLine.number)

/-- A statement whose nodes are on its own line. -/
theorem ordered_of_own {reading : StatementReading} (hunbranched : reading.statement.Unbranched)
    (hown : ∀ n ∈ reading.statement.ownLines, n = number) (htaken : reading.rest <:+ lines) :
    Ordered number lines reading := by
  obtain ⟨taken, rfl⟩ := htaken
  exact ⟨hunbranched, taken, rfl, .of_forall_eq hown⟩

theorem afterRaw_suffix (indent : Nat) (lines : List SourceLine) :
    afterRaw indent lines <:+ lines :=
  List.dropWhile_suffix _

/-- The lines of a raw block that hold something are among its lines, in order. -/
theorem map_number_rawLines_sublist (indent : Nat) (lines : List SourceLine) :
    ((rawLines indent lines).map SourceLine.number).Sublist
      ((lines.takeWhile (isRaw indent)).map SourceLine.number) := by
  rw [rawLines, List.map_map]
  exact List.filter_sublist.map SourceLine.number

theorem echoes_textBlock (lines : List SourceLine) :
    Echoes (linesOf (textBlock lines).1) (lines.map SourceLine.number) := by
  induction lines with
  | nil => exact .nil
  | cons line rest ih =>
    have heq : linesOf (textBlock (line :: rest)).1 =
        linesOf (textNodes line.number line.text).1 ++ linesOf (textBlock rest).1 := by
      simp [textBlock]
    have hline : Echoes (linesOf (textNodes line.number line.text).1) [line.number] :=
      .of_forall_eq linesOf_textNodes
    rw [heq]
    exact hline.append ih

theorem ordered_codeStatement (number indent : Nat) (code : List Char) (lines : List SourceLine) :
    Ordered number lines (codeStatement number indent code lines) := by
  rw [codeStatement]
  split
  · refine ⟨trivial, lines.takeWhile (isRaw indent), List.takeWhile_append_dropWhile.symm, ?_⟩
    rw [ownLines, linesOf_plainCode]
    exact .skip (.of_sublist (map_number_rawLines_sublist indent lines))
  · exact ordered_of_own rfl (by simp [ownLines, plainCode]) (List.suffix_refl _)

theorem ordered_callStatement (number : Nat) (call : List Char) (lines : List SourceLine) :
    Ordered number lines (callStatement number call lines) := by
  rw [callStatement]
  split
  · exact ordered_of_own trivial (by simp [ownLines]) (List.suffix_refl _)
  · refine ordered_of_own rfl ?_ (List.suffix_refl _)
    intro n hn
    rw [ownLines, mem_linesOf_addChildren, linesOf_leaf, List.mem_singleton] at hn
    refine hn.elim id fun hn => ?_
    split at hn
    · cases hn
    · exact linesOf_textNodes n hn

theorem ordered_simple? {reading : StatementReading}
    (h : simple? number indent text lines = some reading) : Ordered number lines reading := by
  unfold simple? at h
  split at h
  case h_10 =>
    obtain ⟨worded, hworded, rfl⟩ := Option.map_eq_some_iff.mp h
    have hplain := (says_ofKeyword? _ hworded).plain
    exact ordered_of_own hplain.unbranched hplain.eq_of_mem_ownLines (List.suffix_refl _)
  all_goals
    rw [Option.some.injEq] at h
    subst h
  case h_1 comment =>
    rw [commentStatement.eq_def]
    exact ordered_of_own trivial (by simp [ownLines]) (afterRaw_suffix _ _)
  case h_2 | h_3 | h_4 => exact ordered_of_own trivial linesOf_textNodes (List.suffix_refl _)
  case h_5 => exact ordered_codeStatement _ _ _ _
  case h_6 | h_7 =>
    exact ordered_of_own trivial (by simp [ownLines, bufferedCode]) (List.suffix_refl _)
  case h_8 =>
    exact ordered_of_own trivial (by simp [filterStatement, ownLines]) (afterRaw_suffix _ _)
  case h_9 => exact ordered_callStatement _ _ _

theorem readTag_suffix (text : List Char) (lines : List SourceLine) :
    (readTag text lines).2 <:+ lines := by
  obtain ⟨-, taken, hlines, -⟩ := exists_readTag 0 text lines
  exact ⟨taken, hlines.symm⟩

theorem linesOf_elementNode (number : Nat) (head : TagHead) (children : List Node) :
    linesOf [elementNode number head children] = number :: linesOf children := by
  rw [elementNode, linesOf_addChildren rfl, linesOf_leaf]
  rfl

/-- An element with content on its own line. -/
theorem ordered_elementNode {statement : Statement} {head : TagHead} {errors : List SyntaxError}
    {rest : List SourceLine} (hunbranched : statement.Unbranched)
    (hown : statement.ownLines = linesOf [elementNode number head children])
    (hchildren : ∀ n ∈ linesOf children, n = number) (hrest : rest <:+ lines) :
    Ordered number lines ⟨statement, errors, rest⟩ := by
  refine ordered_of_own hunbranched (fun n hn => ?_) hrest
  rw [hown, linesOf_elementNode] at hn
  exact (List.mem_cons.mp hn).elim id (hchildren n)

theorem ordered_element {reading : StatementReading}
    (h : element number indent text lines = .done reading) : Ordered number lines reading := by
  have hsuffix := readTag_suffix text lines
  unfold element at h
  split at h
  · next rest hread =>
    rw [hread] at hsuffix
    rw [ElementReading.done.injEq] at h
    exact h ▸ ordered_of_own trivial (by simp [ownLines]) hsuffix
  · next fault rest hread =>
    rw [hread] at hsuffix
    rw [ElementReading.done.injEq] at h
    exact h ▸ ordered_of_own trivial (by simp [ownLines]) hsuffix
  · next head rest hread =>
    rw [hread] at hsuffix
    split at h
    all_goals simp only [ElementReading.done.injEq, reduceCtorEq] at h
    all_goals subst h
    case h_1 => exact ordered_elementNode rfl rfl (by simp) hsuffix
    case h_2 => exact ordered_elementNode rfl rfl linesOf_textNodes hsuffix
    case h_3 => exact ordered_elementNode rfl rfl (by simp [bufferedCode]) hsuffix
    case h_4 =>
      obtain ⟨taken, rfl⟩ := hsuffix
      refine ⟨trivial, taken ++ rest.takeWhile (isRaw indent), ?_, ?_⟩
      · rw [List.append_assoc, afterRaw, List.takeWhile_append_dropWhile]
      · rw [ownLines, linesOf_elementNode, List.map_append]
        refine .say (.skip ((echoes_textBlock _).mono ?_))
        exact (map_number_rawLines_sublist indent rest).trans (List.sublist_append_right _ _)
    case h_5 => exact ordered_elementNode trivial rfl (by simp) hsuffix

/-- The element before a colon has its own line. -/
theorem ordered_expansion {inner : List Char} {rest : List SourceLine}
    (h : element number indent text lines = .expansion node inner rest) :
    node.alternate = [] ∧ linesOf [node] = [number] ∧ rest <:+ lines := by
  obtain ⟨hnode, taken, hlines, -⟩ := exists_expansion h
  refine ⟨?_, hnode, taken, hlines.symm⟩
  unfold element at h
  split at h
  · cases h
  · cases h
  · split at h
    all_goals simp only [reduceCtorEq, ElementReading.expansion.injEq] at h
    exact h.1 ▸ rfl

/-- **The nodes of a statement** are in the order of the lines that it takes. -/
theorem ordered_read (number indent : Nat) (text : List Char) (lines : List SourceLine) :
    Ordered number lines (read number indent text lines) := by
  fun_induction read number indent text lines with
  | case1 text lines reading hsimple => exact ordered_simple? hsimple
  | case2 text lines _ reading hdone => exact ordered_element hdone
  | case3 text lines _ node inner rest hexpands reading ih =>
    obtain ⟨halternate, hnode, before, rfl⟩ := ordered_expansion hexpands
    obtain ⟨hunbranched, taken, htaken, hechoes⟩ := ih
    refine ⟨⟨halternate, hunbranched⟩, before ++ taken, ?_, ?_⟩
    · rw [List.append_assoc]
      exact congrArg (before ++ ·) htaken
    · rw [ownLines, hnode, List.map_append]
      exact .say (hechoes.mono (.cons_cons _ (List.sublist_append_right _ _)))

end Statement

/-! ### Blocks -/

theorem Start.ordered (start : Start) :
    Statement.Ordered start.line.number start.after start.reading :=
  Statement.ordered_read start.line.number start.line.indent start.line.text start.after

/-- The block below a statement is read from lines that the statement leaves, in order. -/
theorem exists_below_echoes {statement : Statement} {rest : List SourceLine} {block : BlockReading}
    (htakes : statement.takesBlock = true → ∃ passed added, rest = passed ++ block.rest ∧
      linesOf block.nodes = linesOf [] ++ added ∧ Echoes added (passed.map SourceLine.number))
    (hleaves : statement.takesBlock = false → block = ⟨[], [], rest⟩) :
    ∃ below, rest = below ++ block.rest ∧
      Echoes (statement.blockLines block.nodes) (below.map SourceLine.number) := by
  rw [Statement.blockLines]
  cases htaken : statement.takesBlock with
  | true =>
    obtain ⟨below, added, hrest, hnodes, hechoes⟩ := htakes htaken
    rw [linesOf_nil, List.nil_append] at hnodes
    refine ⟨below, hrest, ?_⟩
    rw [hnodes]
    split
    · exact hechoes
    · exact .of_nil _
  | false =>
    rw [hleaves htaken]
    exact ⟨[], rfl, .nil⟩

/-- **Reading a block keeps the order**, unless lines are stray: going through the nodes that are
added to those before is going through the lines that are read. -/
theorem Reads.echoes {reading : BlockReading} (h : Reads floor indent before lines reading)
    (hstrays : ¬ Strayed reading.errors) :
    ∃ passed added, lines = passed ++ reading.rest ∧
      linesOf reading.nodes = linesOf before ++ added ∧
      Echoes added (passed.map SourceLine.number) := by
  induction h with
  | nil => exact ⟨[], [], rfl, by simp, .nil⟩
  | @blank _ _ _ line _ _ _ _ ih =>
    obtain ⟨passed, added, rfl, hnodes, hechoes⟩ := ih hstrays
    exact ⟨line :: passed, added, rfl, hnodes, .skip hechoes⟩
  | ends => exact ⟨[], [], rfl, by simp, .nil⟩
  | @sibling _ _ before line after opened block reading _ _ _ hopened _ hleaves _ ihblock ih =>
    subst hopened
    obtain ⟨hunbranched, taken, hafter, hown⟩ := Start.ordered ⟨line, after⟩
    have hstraysBlock : ¬ Strayed block.errors := fun h => hstrays (h.mono (by
      simp +contextual [BlockReading.afterErrors]))
    obtain ⟨below, hbelow, hblock⟩ :=
      exists_below_echoes (fun htaken => ihblock htaken hstraysBlock) hleaves
    obtain ⟨passed, added, hpassed, hnodes, hechoes⟩ := ih fun h => hstrays (h.mono (by
      simp +contextual [BlockReading.afterErrors]))
    rw [Statement.linesOf_close hunbranched, List.append_assoc] at hnodes
    refine ⟨line :: (taken ++ below ++ passed), _, ?_, hnodes, ?_⟩
    · simp only [BlockReading.afterErrors, List.cons_append, List.append_assoc, ← hpassed, ← hbelow]
      exact congrArg (line :: ·) hafter
    · have := (hown.append hblock).append hechoes
      simpa using this
  | stray =>
    exact absurd ⟨_, List.mem_append_left _ List.mem_cons_self, rfl⟩ hstrays

/-! ### Main results -/

theorem SourceLine.map_number_numberFrom (first : Nat) (texts : List (List Char)) :
    (numberFrom first texts).map SourceLine.number = List.range' first texts.length := by
  induction texts generalizing first with
  | nil => rfl
  | cons text rest ih => rw [numberFrom, List.map_cons, ih, List.length_cons, List.range'_succ]; rfl

/-- **Going through a template in document order is going down its text**, if no line is stray: the
lines of the nodes are lines of the text from the first one on, some of them repeated and some left
out. -/
theorem echoes_parse {source : String} (h : ¬ Strayed (parse source).errors) :
    Echoes (linesOf (parse source).nodes)
      (List.range' 1 (Text.newlinePieces source.toList).length) := by
  have hreads := reads_siblings none (firstIndent (SourceLine.ofSource source.toList)) []
    (SourceLine.ofSource source.toList)
  obtain ⟨passed, added, hlines, hnodes, hechoes⟩ := hreads.echoes h
  rw [← SourceLine.map_number_numberFrom, ← SourceLine.ofSource, hlines, List.map_append]
  rw [linesOf_nil, List.nil_append] at hnodes
  exact (hnodes ▸ hechoes).mono (List.sublist_append_left _ _)

end Template

end PugContracts
