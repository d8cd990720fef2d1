import PugContracts.Proofs.Template.Reading

/-!
# Numbers of lines

The number of a line is passed on to the nodes and the faults that are found on it, and nothing is
decided by it. So reading commutes with any change of the numbers: if the lines of a block carry
other numbers, the nodes and faults carry these, and all else is the same. The change need not keep
the order of the numbers, nor keep them apart.

## Main results

* `Statement.read_renumber`: reading a statement.
* `Reads.renumber`, `Passes.renumber`: reading a block, and going through it.
-/

namespace PugContracts.Template

variable {f : Nat → Nat} {floor : Option Nat} {indent number : Nat} {kind : NodeKind} {node : Node}
  {nodes before after branch block : List Node} {text : List Char} {line : SourceLine}
  {lines : List SourceLine}

/-! ### Changing numbers -/

mutual

/-- Every line of a tree replaced. -/
def Node.renumber (f : Nat → Nat) : Node → Node
  | ⟨kind, line, file, children, alternate⟩ =>
    ⟨kind, f line, file, renumberAll f children, renumberAll f alternate⟩

/-- Every line of a forest replaced. -/
def renumberAll (f : Nat → Nat) : List Node → List Node
  | [] => []
  | node :: rest => node.renumber f :: renumberAll f rest

end

theorem renumberAll_eq_map (f : Nat → Nat) (nodes : List Node) :
    renumberAll f nodes = nodes.map (.renumber f) := by
  induction nodes with
  | nil => rfl
  | cons node rest ih => rw [renumberAll, ih, List.map_cons]

@[simp] theorem renumberAll_append (f : Nat → Nat) (before after : List Node) :
    renumberAll f (before ++ after) = renumberAll f before ++ renumberAll f after := by
  simp [renumberAll_eq_map]

@[simp] theorem renumber_leaf (f : Nat → Nat) (kind : NodeKind) (line : Nat) :
    (Node.leaf kind line).renumber f = .leaf kind (f line) := rfl

@[simp] theorem renumber_addChildren (f : Nat → Nat) (node : Node) (more : List Node) :
    (node.addChildren more).renumber f = (node.renumber f).addChildren (renumberAll f more) := by
  obtain ⟨kind, line, file, children, alternate⟩ := node
  simp [Node.addChildren, Node.renumber]

@[simp] theorem kind_renumber (f : Nat → Nat) (node : Node) :
    (node.renumber f).kind = node.kind := by
  cases node
  rfl

/-- A fault on another line. -/
def SyntaxError.renumber (f : Nat → Nat) (error : SyntaxError) : SyntaxError :=
  { error with line := f error.line }

/-- A line with another number. -/
def SourceLine.renumber (f : Nat → Nat) (line : SourceLine) : SourceLine :=
  { line with number := f line.number }

/-- A statement whose nodes are on other lines. -/
def Statement.renumber (f : Nat → Nat) : Statement → Statement
  | complete nodes => complete (renumberAll f nodes)
  | heading node => heading (node.renumber f)
  | dissolved fault? => dissolved fault?
  | dropped => dropped
  | elseBranch => elseBranch
  | elseIf conditional => elseIf (conditional.renumber f)
  | nested element inner => nested (element.renumber f) (inner.renumber f)

/-- What was read of a statement, with all on other lines. -/
def StatementReading.renumber (f : Nat → Nat) (reading : StatementReading) : StatementReading :=
  ⟨reading.statement.renumber f, reading.errors.map (.renumber f), reading.rest.map (.renumber f)⟩

/-- What was read of an element, with all on other lines. -/
def Statement.ElementReading.renumber (f : Nat → Nat) : ElementReading → ElementReading
  | .done reading => .done (reading.renumber f)
  | .expansion element inner rest =>
    .expansion (element.renumber f) inner (rest.map (.renumber f))

/-- What was read of a block, with all on other lines. -/
def BlockReading.renumber (f : Nat → Nat) (reading : BlockReading) : BlockReading :=
  ⟨renumberAll f reading.nodes, reading.errors.map (.renumber f), reading.rest.map (.renumber f)⟩

/-- A template that was read, with all on other lines. -/
def ParsedTemplate.renumber (f : Nat → Nat) (template : ParsedTemplate) : ParsedTemplate :=
  ⟨renumberAll f template.nodes, template.errors.map (.renumber f)⟩

namespace Statement

/-! ### Reading a statement -/

theorem textNodes_renumber (f : Nat → Nat) (number : Nat) (text : List Char) :
    textNodes (f number) text =
      (renumberAll f (textNodes number text).1,
        (textNodes number text).2.map (.renumber f)) := by
  have hsegment : ∀ segment, (segmentNode number segment).renumber f =
      segmentNode (f number) segment := by
    intro segment
    cases segment <;> rfl
  rw [textNodes, textNodes]
  split
  · simp [renumberAll_eq_map, Function.comp_def, hsegment]
  · rfl

theorem textBlock_renumber (f : Nat → Nat) (lines : List SourceLine) :
    textBlock (lines.map (.renumber f)) =
      (renumberAll f (textBlock lines).1, (textBlock lines).2.map (.renumber f)) := by
  induction lines with
  | nil => rfl
  | cons line rest ih =>
    have hline := textNodes_renumber f line.number line.text
    simp only [textBlock, List.map_cons, List.flatMap_cons, renumberAll_append, List.map_append,
      Prod.mk.injEq] at ih ⊢
    rw [ih.1, ih.2]
    exact ⟨congrArg (·.1 ++ _) hline, congrArg (·.2 ++ _) hline⟩

theorem afterRaw_renumber (f : Nat → Nat) (indent : Nat) (lines : List SourceLine) :
    afterRaw indent (lines.map (.renumber f)) = (afterRaw indent lines).map (.renumber f) := by
  rw [afterRaw, afterRaw, List.dropWhile_map]
  rfl

theorem rawLines_renumber (f : Nat → Nat) (indent : Nat) (lines : List SourceLine) :
    rawLines indent (lines.map (.renumber f)) = (rawLines indent lines).map (.renumber f) := by
  rw [rawLines, rawLines, List.takeWhile_map, List.filter_map, List.map_map, List.map_map]
  rfl

/-- What was found by its first word, with all on other lines. -/
def Worded.renumber (f : Nat → Nat) (worded : Worded) : Worded :=
  (worded.1.renumber f, worded.2)

theorem orElse_renumber {first second first' second' : Option Worded}
    (hfirst : first' = first.map (Worded.renumber f))
    (hsecond : second' = second.map (Worded.renumber f)) :
    (first' <|> second') = (first <|> second).map (Worded.renumber f) := by
  subst hfirst hsecond
  cases first <;> rfl

theorem ofKeyword?_renumber (f : Nat → Nat) (number : Nat) (text : List Char) :
    ofKeyword? (f number) text = (ofKeyword? number text).map (Worded.renumber f) := by
  have hmap : ∀ {word : Option (List Char)} {statement statement' : List Char → Worded},
      (∀ rest, statement' rest = (statement rest).renumber f) →
        word.map statement' = (word.map statement).map (Worded.renumber f) := by
    intro word statement statement' h
    rw [Option.map_map]
    exact Option.map_congr fun rest _ => h rest
  have hparent : ∀ keyword rest, parentDirective (f number) keyword rest =
      (parentDirective number keyword rest).renumber f := by
    intro keyword rest
    rw [parentDirective, parentDirective]
    split <;> rfl
  have hinclude : ∀ rest, includeDirective (f number) rest =
      (includeDirective number rest).renumber f := by
    intro rest
    rw [includeDirective.eq_def, includeDirective.eq_def]
    dsimp only
    split <;> rfl
  have hshort : ∀ mode, shortRegion? (f number) mode text =
      (shortRegion? number mode text).map (Worded.renumber f) := by
    intro mode
    rw [shortRegion?, shortRegion?]
    split <;> rfl
  have hmixin : ∀ rest, mixinStatement (f number) rest =
      (mixinStatement number rest).renumber f := by
    intro rest
    rw [mixinStatement, mixinStatement]
    split <;> rfl
  have hloop : ∀ keyword rest, loopStatement (f number) keyword rest =
      (loopStatement number keyword rest).renumber f := by
    intro keyword rest
    rw [loopStatement, loopStatement]
    split <;> rfl
  have helse : ∀ rest, elseStatement (f number) rest = (elseStatement number rest).renumber f := by
    intro rest
    rw [elseStatement, elseStatement]
    split <;> rfl
  exact
    orElse_renumber (hmap fun _ => rfl) <|
    orElse_renumber (hmap (hparent _)) <|
    orElse_renumber (hmap (hparent _)) <|
    orElse_renumber (hmap hinclude) <|
    orElse_renumber (hmap fun _ => rfl) <|
    orElse_renumber (hshort _) <|
    orElse_renumber (hshort _) <|
    orElse_renumber (hmap hmixin) <|
    orElse_renumber (hmap (hloop _)) <|
    orElse_renumber (hmap (hloop _)) <|
    orElse_renumber (hmap fun _ => rfl) <|
    orElse_renumber (hmap fun _ => rfl) <|
    orElse_renumber (hmap fun _ => rfl) <|
    hmap helse

theorem codeStatement_renumber (f : Nat → Nat) (number indent : Nat) (code : List Char)
    (lines : List SourceLine) :
    codeStatement (f number) indent code (lines.map (.renumber f)) =
      (codeStatement number indent code lines).renumber f := by
  have hraw : ((rawLines indent lines).map (SourceLine.renumber f)).map
        (fun line => plainCode line.number line.text) =
      renumberAll f ((rawLines indent lines).map fun line => plainCode line.number line.text) := by
    rw [renumberAll_eq_map, List.map_map, List.map_map]
    rfl
  rw [codeStatement, codeStatement]
  split
  · rw [afterRaw_renumber, rawLines_renumber, hraw]
    rfl
  · rfl

theorem callStatement_renumber (f : Nat → Nat) (number : Nat) (call : List Char)
    (lines : List SourceLine) :
    callStatement (f number) call (lines.map (.renumber f)) =
      (callStatement number call lines).renumber f := by
  rw [callStatement, callStatement]
  split
  · rfl
  · dsimp only
    split
    · rfl
    · rw [textNodes_renumber]
      simp [StatementReading.renumber, Statement.renumber]

theorem simple?_renumber (f : Nat → Nat) (number indent : Nat) (text : List Char)
    (lines : List SourceLine) :
    simple? (f number) indent text (lines.map (.renumber f)) =
      (simple? number indent text lines).map (.renumber f) := by
  have htext : ∀ piped, textStatement (f number) piped (lines.map (.renumber f)) =
      (textStatement number piped lines).renumber f := by
    intro piped
    rw [textStatement, textNodes_renumber]
    rfl
  rw [simple?.eq_def, simple?.eq_def]
  split
  · next comment =>
    rw [Option.map_some, commentStatement.eq_def, commentStatement.eq_def, afterRaw_renumber]
    rfl
  · exact congrArg some (htext _)
  · exact congrArg some (htext _)
  · exact congrArg some (htext _)
  · exact congrArg some (codeStatement_renumber f _ _ _ _)
  · rfl
  · rfl
  · rw [Option.map_some, filterStatement, afterRaw_renumber]
    rfl
  · exact congrArg some (callStatement_renumber f _ _ _)
  · rw [ofKeyword?_renumber, Option.map_map, Option.map_map]
    refine Option.map_congr fun worded _ => ?_
    simp [Worded.renumber, StatementReading.renumber, SyntaxError.renumber]

theorem element_renumber (f : Nat → Nat) (number indent : Nat) (text : List Char)
    (lines : List SourceLine) :
    element (f number) indent text (lines.map (.renumber f)) =
      (element number indent text lines).renumber f := by
  have hnode : ∀ head children, elementNode (f number) head (renumberAll f children) =
      (elementNode number head children).renumber f := by
    intro head children
    rw [elementNode, elementNode, renumber_addChildren, renumber_leaf]
  rw [element, element, readTag_map (g := .renumber f) fun _ => rfl]
  generalize readTag text lines = read
  obtain ⟨result, rest⟩ := read
  cases result with
  | error fault => cases fault <;> rfl
  | ok head =>
    dsimp only
    cases head.rest with
    | text inline =>
      dsimp only
      rw [textNodes_renumber, hnode]
      rfl
    | dotBlock =>
      dsimp only
      rw [rawLines_renumber, textBlock_renumber, afterRaw_renumber, hnode]
      rfl
    | _ => rfl

/-- **Reading a statement** commutes with a change of numbers. -/
theorem read_renumber (f : Nat → Nat) (number indent : Nat) (text : List Char)
    (lines : List SourceLine) :
    read (f number) indent text (lines.map (.renumber f)) =
      (read number indent text lines).renumber f := by
  fun_induction read number indent text lines with
  | case1 text lines reading hsimple =>
    exact read_eq_of_simple? (by rw [simple?_renumber, hsimple]; rfl)
  | case2 text lines hsimple reading hdone =>
    exact read_eq_of_done (by rw [simple?_renumber, hsimple]; rfl)
      (by rw [element_renumber, hdone]; rfl)
  | case3 text lines hsimple node inner rest hexpands reading ih =>
    rw [read_eq_of_expansion (by rw [simple?_renumber, hsimple]; rfl)
      (by rw [element_renumber, hexpands]; rfl), ih]
    rfl

/-! ### Closing a statement -/

@[simp] theorem takesBlock_renumber (f : Nat → Nat) (statement : Statement) :
    (statement.renumber f).takesBlock = statement.takesBlock := by
  induction statement with
  | nested element inner ih => exact ih
  | _ => rfl

theorem attachElse?_renumber (f : Nat → Nat) (branch : List Node) (node : Node) :
    attachElse? (renumberAll f branch) (node.renumber f) =
      (attachElse? branch node).map (.renumber f) := by
  induction node using attachElse?.induct with
  | case1 => rfl
  | case2 test negated line file children last _ _ hkind ih =>
    rw [Node.renumber, renumberAll, renumberAll, attachElse?, attachElse?, kind_renumber, hkind]
    dsimp only
    rw [ih, Option.map_map, Option.map_map]
    rfl
  | case3 test negated line file children last hkind =>
    rw [Node.renumber, renumberAll, renumberAll, attachElse?, attachElse?, kind_renumber]
    split
    · exact absurd ‹_› (hkind _ _)
    · rfl
  | case4 => rfl
  | case5 node hconditional hchain heach =>
    obtain ⟨kind, line, file, children, alternate⟩ := node
    cases kind with
    | conditional test negated =>
      cases alternate with
      | nil => exact (hconditional _ _ _ _ _ rfl).elim
      | cons last rest =>
        cases rest with
        | nil => exact (hchain _ _ _ _ _ _ rfl).elim
        | cons => rfl
    | each item key collection =>
      cases alternate with
      | nil => exact (heach _ _ _ _ _ _ rfl).elim
      | cons => rfl
    | _ => rfl

theorem attachToLast_renumber (f : Nat → Nat) (line : Nat) (branch before : List Node) :
    attachToLast (f line) (renumberAll f branch) (renumberAll f before) =
      (renumberAll f (attachToLast line branch before).1,
        (attachToLast line branch before).2.map (.renumber f)) := by
  have hlast : (renumberAll f before).getLast?.bind (attachElse? (renumberAll f branch)) =
      (before.getLast?.bind (attachElse? branch)).map (.renumber f) := by
    rw [renumberAll_eq_map f before, List.getLast?_map]
    cases before.getLast? with
    | none => rfl
    | some last => exact attachElse?_renumber f branch last
  rw [attachToLast, attachToLast, hlast]
  cases before.getLast?.bind (attachElse? branch) with
  | none => simp [SyntaxError.renumber]
  | some last => simp [renumberAll_eq_map]

/-- Closing a statement commutes with a change of numbers. -/
theorem close_renumber (f : Nat → Nat) (line : Nat) (statement : Statement)
    (block before : List Node) :
    close (f line) (statement.renumber f) (renumberAll f block) (renumberAll f before) =
      (renumberAll f (close line statement block before).1,
        (close line statement block before).2.map (.renumber f)) := by
  induction statement generalizing before with
  | complete | dropped => simp [close, Statement.renumber]
  | heading node =>
    simp [close, Statement.renumber, renumberAll]
  | dissolved fault? => simp [close, Statement.renumber, SyntaxError.renumber]
  | elseBranch => exact attachToLast_renumber f line block before
  | elseIf conditional =>
    rw [Statement.renumber, close, close, ← attachToLast_renumber, renumberAll, renumberAll,
      renumber_addChildren]
  | nested element inner ih =>
    have hinner := ih []
    rw [renumberAll] at hinner
    simp [close, Statement.renumber, hinner, renumberAll]

end Statement

/-! ### Blocks -/

theorem absorb_renumber (f : Nat → Nat) (before stray : List Node) :
    absorb (renumberAll f before) (renumberAll f stray) = renumberAll f (absorb before stray) := by
  rw [absorb, absorb, renumberAll_eq_map f before, List.getLast?_map]
  cases before.getLast? with
  | none => rfl
  | some last => simp [renumberAll_eq_map]

theorem firstIndent_renumber (f : Nat → Nat) (lines : List SourceLine) :
    firstIndent (lines.map (.renumber f)) = firstIndent lines := by
  have hsame : (!·.isBlank) ∘ SourceLine.renumber f = (!·.isBlank) := rfl
  rw [firstIndent, firstIndent, List.find?_map, hsame, Option.map_map]
  rfl

theorem BlockReading.afterErrors_renumber (f : Nat → Nat) (errors : List SyntaxError)
    (reading : BlockReading) :
    (reading.renumber f).afterErrors (errors.map (.renumber f)) =
      (reading.afterErrors errors).renumber f := by
  simp [BlockReading.renumber, BlockReading.afterErrors]

theorem Start.reading_renumber (f : Nat → Nat) (line : SourceLine) (after : List SourceLine) :
    (Start.mk (line.renumber f) (after.map (.renumber f))).reading =
      (Start.mk line after).reading.renumber f :=
  Statement.read_renumber f line.number line.indent line.text after

/-- The block below a statement commutes with a change of numbers, if there is one. -/
theorem block_renumber (f : Nat → Nat) {opened : StatementReading} {block : BlockReading}
    (hleaves : opened.statement.takesBlock = false → block = ⟨[], [], opened.rest⟩)
    (h : (opened.renumber f).statement.takesBlock = false) :
    block.renumber f = ⟨[], [], (opened.renumber f).rest⟩ := by
  rw [StatementReading.renumber, Statement.takesBlock_renumber] at h
  rw [hleaves h]
  rfl

/-- Closing a statement that was read, with all on other lines. -/
theorem closed_renumber (f : Nat → Nat) (number : Nat) (opened : StatementReading)
    (block : BlockReading) (before : List Node) :
    let closed := opened.statement.close number block.nodes before
    let closed' := (opened.renumber f).statement.close (f number) (block.renumber f).nodes
      (renumberAll f before)
    closed'.1 = renumberAll f closed.1 ∧
      (opened.renumber f).errors ++ (block.renumber f).errors ++ closed'.2 =
        (opened.errors ++ block.errors ++ closed.2).map (.renumber f) := by
  intro closed closed'
  have hclose : closed' = (renumberAll f closed.1, closed.2.map (.renumber f)) :=
    Statement.close_renumber f number opened.statement block.nodes before
  rw [hclose, List.map_append, List.map_append]
  exact ⟨rfl, rfl⟩

/-- **Reading a block** commutes with a change of numbers. -/
theorem Reads.renumber (f : Nat → Nat) {reading : BlockReading}
    (h : Reads floor indent before lines reading) :
    Reads floor indent (renumberAll f before) (lines.map (.renumber f)) (reading.renumber f) := by
  have hbelow : ∀ {opened : StatementReading} {block : BlockReading} {width : Nat},
      (opened.statement.takesBlock = true → Reads (some width) (firstIndent opened.rest)
        (renumberAll f []) (opened.rest.map (.renumber f)) (block.renumber f)) →
      (opened.renumber f).statement.takesBlock = true →
        Reads (some width) (firstIndent (opened.renumber f).rest) [] (opened.renumber f).rest
          (block.renumber f) := by
    intro opened block width hblock htakes
    rw [StatementReading.renumber, Statement.takesBlock_renumber] at htakes
    rw [StatementReading.renumber, firstIndent_renumber]
    exact hblock htakes
  induction h with
  | nil => exact .nil
  | blank hblank _ ih => exact .blank hblank ih
  | ends hblank hends => exact .ends hblank hends
  | @sibling floor indent before line after opened block reading hblank hends hindent hopened _
      hleaves _ ihblock ih =>
    have hread := (Start.reading_renumber f line after).trans (congrArg (·.renumber f) hopened)
    obtain ⟨hnodes, herrors⟩ := closed_renumber f line.number opened block before
    rw [← hnodes] at ih
    rw [← BlockReading.afterErrors_renumber, ← herrors, List.map_cons]
    exact .sibling hblank hends hindent hread (hbelow ihblock) (block_renumber f hleaves) ih
  | @stray floor indent before line after opened block more reading hblank hends hindent hopened _
      hleaves _ _ ihblock ihmore ih =>
    have hread := (Start.reading_renumber f line after).trans (congrArg (·.renumber f) hopened)
    obtain ⟨hnodes, herrors⟩ := closed_renumber f line.number opened block []
    rw [← hnodes] at ihmore
    rw [← absorb_renumber] at ih
    rw [← BlockReading.afterErrors_renumber, List.map_append, List.map_cons, List.map_cons,
      ← herrors]
    have hblank' : (line.renumber f).isBlank = false := hblank
    exact .stray hblank' hends hindent hread (hbelow ihblock) (block_renumber f hleaves) ihmore ih

/-- A statement of lines with other numbers. -/
def Start.renumber (f : Nat → Nat) (start : Start) : Start :=
  ⟨start.line.renumber f, start.after.map (.renumber f)⟩

/-- **Going through a block** commutes with a change of numbers. -/
theorem Passes.renumber (f : Nat → Nat) {starts : List Start} {left : List SourceLine}
    (h : Passes floor indent lines starts left) :
    Passes floor indent (lines.map (.renumber f)) (starts.map (.renumber f))
      (left.map (.renumber f)) := by
  induction h with
  | nil => exact .nil
  | blank hblank _ ih => exact .blank hblank ih
  | ends hblank hends => exact .ends hblank hends
  | @statement line after _ _ hblank hends _ ih =>
    have hread := congrArg StatementReading.rest (Start.reading_renumber f line after)
    rw [StatementReading.renumber] at hread
    exact .statement hblank hends (hread ▸ ih)

/-! ### Lines of a source -/

namespace SourceLine

theorem numberFrom_append (first : Nat) (texts more : List (List Char)) :
    numberFrom first (texts ++ more) =
      numberFrom first texts ++ numberFrom (first + texts.length) more := by
  induction texts generalizing first with
  | nil => rfl
  | cons text rest ih =>
    rw [List.cons_append, numberFrom, numberFrom, ih, List.length_cons, List.cons_append,
      Nat.add_assoc, Nat.add_comm 1]

theorem renumber_numberFrom {f : Nat → Nat} {first count : Nat} {texts : List (List Char)}
    (h : ∀ n, first ≤ n → n < first + texts.length → f n = n + count) :
    (numberFrom first texts).map (.renumber f) = numberFrom (first + count) texts := by
  induction texts generalizing first with
  | nil => rfl
  | cons text rest ih =>
    rw [List.length_cons] at h
    have htail : ∀ n, first + 1 ≤ n → n < first + 1 + rest.length → f n = n + count :=
      fun n hle hlt => h n (by omega) (by omega)
    have hfirst := h first (Nat.le_refl _) (by omega)
    rw [numberFrom, List.map_cons, ih htail, numberFrom, Nat.add_right_comm]
    refine congrArg (· :: _) ?_
    rw [renumber, ofText, ofText, hfirst]

end SourceLine

end PugContracts.Template
