import PugContracts.Template.Interpolation
import PugContracts.Template.Line
import PugContracts.Template.Tag

/-!
# Statements

A `Statement` is what one line of a template says, together with the further lines that belong to it
whatever they hold: the raw block below a comment, a filter or a dotted tag, and the lines over
which an attribute list is broken. What it does with the *block*, the deeper statements that follow,
is part of the statement; `Template.Parser` reads the block and calls `Statement.close`.

## Main statements

* `Statement.length_read`: reading a statement never gives lines back.
-/

namespace PugContracts.Template

/-- What a line says, up to the block below it. -/
inductive Statement where
  /-- These nodes; a block is not expected. -/
  | complete (nodes : List Node)
  /-- This node; the block goes into it, after the children it has. -/
  | heading (node : Node)
  /-- Nothing; the block takes the line's place, and then the fault is reported, if any. -/
  | dissolved (fault? : Option Fault)
  /-- Nothing; the block is dropped. -/
  | dropped
  /-- The block is rendered where the statement before is not. -/
  | elseBranch
  /-- The same with a further condition; the block goes into the conditional. -/
  | elseIf (conditional : Node)
  /-- An element whose only content is another statement of the same line. -/
  | nested (element : Node) (inner : Statement)

/-- A statement with the faults found in it and the lines after it. -/
structure StatementReading where
  /-- The statement. -/
  statement : Statement
  /-- The faults, in the order of the text. -/
  errors : List SyntaxError
  /-- The lines that do not belong to the statement. -/
  rest : List SourceLine

namespace Statement

/-! ### Raw blocks -/

/-- Whether a line belongs to the raw block below a line with the given indentation. -/
def isRaw (indent : Nat) (line : SourceLine) : Bool :=
  line.isBlank || indent < line.indent

/-- The lines of a raw block that hold something, without trailing blanks. -/
def rawLines (indent : Nat) (lines : List SourceLine) : List SourceLine :=
  ((lines.takeWhile (isRaw indent)).filter (!·.isBlank)).map fun line =>
    { line with text := Text.trimEnd line.text }

/-- The lines after a raw block. -/
def afterRaw (indent : Nat) (lines : List SourceLine) : List SourceLine :=
  lines.dropWhile (isRaw indent)

theorem length_afterRaw (indent : Nat) (lines : List SourceLine) :
    (afterRaw indent lines).length ≤ lines.length :=
  (List.dropWhile_suffix _).length_le

/-! ### Text and code -/

/-- The node of a piece of interpolated text. -/
def segmentNode (number : Nat) : Segment → Node
  | .literal text => .leaf (.text (String.ofList text)) number
  | .expression value escaped => .leaf (.code (String.ofList value) true escaped) number

/-- The nodes of interpolated text. Text in which an interpolation does not end is literal. -/
def textNodes (number : Nat) (text : List Char) : List Node × List SyntaxError :=
  match Segment.split text with
  | .ok segments => (segments.map (segmentNode number), [])
  | .error offset =>
    ([.leaf (.text (String.ofList text)) number],
      [⟨number, .unterminatedInterpolation (offset + 1)⟩])

/-- The nodes and faults of several lines of interpolated text. -/
def textBlock (lines : List SourceLine) : List Node × List SyntaxError :=
  let read := lines.map fun line => textNodes line.number line.text
  (read.flatMap Prod.fst, read.flatMap Prod.snd)

/-- An expression whose value is printed. -/
def bufferedCode (number : Nat) (expression : List Char) (escaped : Bool) : Node :=
  .leaf (.code (String.ofList (Text.trim expression)) true escaped) number

/-- A statement of the host language. -/
def plainCode (number : Nat) (statement : List Char) : Node :=
  .leaf (.code (String.ofList (Text.trim statement)) false false) number

/-! ### Calls and loops -/

/-- Where the name of a mixin ends. -/
def endsCallName (c : Char) : Bool :=
  c == '(' || Text.isBlank c

/-- The name before the arguments of a call. -/
def callName (call : List Char) : List Char :=
  call.takeWhile (!endsCallName ·)

/-- The arguments of a call, which follow the name at once. -/
def callArguments? (call : List Char) : Option String :=
  match call.dropWhile (!endsCallName ·) with
  | '(' :: rest => (Scan.group? ('(' :: rest)).map fun (inner, _) => String.ofList (Text.trim inner)
  | _ => none

/-- What follows the arguments of a call and the attributes passed to it. -/
def afterCall (call : List Char) : List Char :=
  let rest := Text.trimStart (call.dropWhile (!endsCallName ·))
  let rest := if (callArguments? call).isSome then Scan.afterArguments rest else rest
  Scan.afterArguments rest

/-- The text on the same line that is the first content of a call. -/
def callText (call : List Char) : List Char :=
  match afterCall call with
  | ' ' :: inline => Text.trim inline
  | _ => []

/-- The word between the variables and the collection of a loop. -/
def loopWord : List Char :=
  " in ".toList

/-- A text that is not empty. -/
def nonempty? (text : List Char) : Option String :=
  if text.isEmpty then none else some (String.ofList text)

/-- The variables and the collection of a loop header `item[, key] in collection`. -/
def loopHeader? (header : List Char) : Option NodeKind := do
  let (before, after) ← Scan.breakAt? loopWord.isPrefixOf header
  let bound ← nonempty? (Text.trim before)
  let collection ← nonempty? (Text.trim (after.drop loopWord.length))
  match Scan.pieces false ',' bound.toList with
  | [item] => return .each (← nonempty? (Text.trim item)) none collection
  | [item, key] =>
    return .each (← nonempty? (Text.trim item)) (some (← nonempty? (Text.trim key))) collection
  | _ => none

/-! ### Statements that start with a word -/

/-- A statement found by its first word, with its faults. -/
abbrev Worded := Statement × List Fault

/-- A leaf as a whole statement. -/
def ofKind (number : Nat) (kind : NodeKind) : Worded :=
  (.complete [.leaf kind number], [])

/-- A node whose content is the block below. -/
def headingOf (number : Nat) (kind : NodeKind) : Worded :=
  (.heading (.leaf kind number), [])

/-- The directive that names a parent template. -/
def parentDirective (number : Nat) (keyword : String) (rest : List Char) : Worded :=
  match nonempty? (Text.trim rest) with
  | none => (.complete [], [.missingParent keyword])
  | some target => ofKind number (.inherits target)

/-- The directive that includes a file; a filter follows a colon. -/
def includeDirective (number : Nat) (rest : List Char) : Worded :=
  let (filter, target) :=
    match rest with
    | ':' :: filtered =>
      (some (String.ofList (filtered.takeWhile (!Text.isBlank ·))),
        (filtered.dropWhile (!Text.isBlank ·)).drop 1)
    | _ => (none, rest)
  match nonempty? (Text.trim target) with
  | none => (.complete [], [.missingInclude])
  | some target => ofKind number (.inclusion target filter)

/-- A region with the mode that its name follows. -/
def regionStatement (number : Nat) (rest : List Char) : Worded :=
  let rest := Text.trim rest
  let (mode, name) :=
    match afterKeyword? "append" [] rest, afterKeyword? "prepend" [] rest with
    | some name, _ => (RegionMode.append, Text.trim name)
    | none, some name => (RegionMode.prepend, Text.trim name)
    | none, none => (RegionMode.replace, rest)
  headingOf number (.region (String.ofList name) mode)

/-- A region given by its mode alone; the mode alone is no statement. -/
def shortRegion? (number : Nat) (mode : RegionMode) (text : List Char) : Option Worded :=
  match afterKeyword? mode.label [] text with
  | none | some [] => none
  | some name => some (headingOf number (.region (String.ofList (Text.trim name)) mode))

/-- The definition of a mixin. -/
def mixinStatement (number : Nat) (rest : List Char) : Worded :=
  let signature := Text.trim rest
  match nonempty? (callName signature) with
  | none => (.dropped, [.unnamedMixin])
  | some name => headingOf number (.mixin name (callArguments? signature))

/-- A loop over a collection. -/
def loopStatement (number : Nat) (keyword : String) (rest : List Char) : Worded :=
  match loopHeader? (Text.trim rest) with
  | none => (.dissolved (some (.malformedLoop keyword)), [])
  | some kind => headingOf number kind

/-- A conditional. -/
def conditionalStatement (number : Nat) (keyword : String) (negated : Bool) (rest : List Char) :
    Worded :=
  let test := Text.trim rest
  (.heading (.leaf (.conditional (String.ofList test) negated) number),
    if test.isEmpty then [.missingCondition keyword] else [])

/-- A branch that is rendered where the statement before is not. -/
def elseStatement (number : Nat) (rest : List Char) : Worded :=
  let rest := Text.trim rest
  match afterKeyword? "if" ['('] rest with
  | some test => (.elseIf (.leaf (.conditional (String.ofList (Text.trim test)) false) number), [])
  | none => (.elseBranch, if rest.isEmpty then [] else [.textAfterElse (String.ofList rest)])

/-- The statement that starts with a word of its own, if the text is one. -/
def ofKeyword? (number : Nat) (text : List Char) : Option Worded :=
  (afterKeyword? "doctype" [] text).map
      (fun rest => ofKind number (.doctype (String.ofList (Text.trim rest))))
    <|> (afterKeyword? "extends" [] text).map (parentDirective number "extends")
    <|> (afterKeyword? "extend" [] text).map (parentDirective number "extend")
    <|> (afterKeyword? "include" [':'] text).map (includeDirective number)
    <|> (afterKeyword? "block" [] text).map (regionStatement number)
    <|> shortRegion? number .append text
    <|> shortRegion? number .prepend text
    <|> (afterKeyword? "mixin" [] text).map (mixinStatement number)
    <|> (afterKeyword? "each" [] text).map (loopStatement number "each")
    <|> (afterKeyword? "for" [] text).map (loopStatement number "for")
    <|> (afterKeyword? "while" ['('] text).map
      (fun rest => headingOf number (.loop (String.ofList (Text.trim rest))))
    <|> (afterKeyword? "if" ['('] text).map (conditionalStatement number "if" false)
    <|> (afterKeyword? "unless" ['('] text).map (conditionalStatement number "unless" true)
    <|> (afterKeyword? "else" [] text).map (elseStatement number)

/-! ### Statements that start with a sign -/

/-- A comment with the raw block below it. -/
def commentStatement (number indent : Nat) (comment : List Char) (lines : List SourceLine) :
    StatementReading :=
  let (value, buffered) :=
    match comment with
    | '-' :: value => (value, false)
    | value => (value, true)
  ⟨.complete [.leaf (.comment (String.ofList (Text.trim value)) buffered) number], [],
    afterRaw indent lines⟩

/-- Code that is run: one statement with a block, or a raw block of statements. -/
def codeStatement (number indent : Nat) (code : List Char) (lines : List SourceLine) :
    StatementReading :=
  if Text.isAllBlank code then
    ⟨.complete ((rawLines indent lines).map fun line => plainCode line.number line.text), [],
      afterRaw indent lines⟩
  else ⟨.heading (plainCode number code), [], lines⟩

/-- A filter with the raw block below it. -/
def filterStatement (number indent : Nat) (rest : List Char) (lines : List SourceLine) :
    StatementReading :=
  ⟨.complete [.leaf (.filter (String.ofList (Text.firstWord rest))) number], [],
    afterRaw indent lines⟩

/-- A line of text. -/
def textStatement (number : Nat) (text : List Char) (lines : List SourceLine) : StatementReading :=
  let (nodes, errors) := textNodes number text
  ⟨.complete nodes, errors, lines⟩

/-- A call of a mixin. -/
def callStatement (number : Nat) (call : List Char) (lines : List SourceLine) : StatementReading :=
  match nonempty? (callName call) with
  | none => ⟨.complete [], [⟨number, .unnamedMixinCall⟩], lines⟩
  | some name =>
    let text := callText call
    let (nodes, errors) := if text.isEmpty then ([], []) else textNodes number text
    ⟨.heading ((Node.leaf (.mixinCall name (callArguments? call)) number).addChildren nodes),
      errors, lines⟩

/-- The statement that a text is, unless it is an element. -/
def simple? (number indent : Nat) (text : List Char) (lines : List SourceLine) :
    Option StatementReading :=
  match text with
  | '/' :: '/' :: comment => some (commentStatement number indent comment lines)
  | '|' :: ' ' :: piped => some (textStatement number piped lines)
  | '|' :: piped => some (textStatement number piped lines)
  | '<' :: rest => some (textStatement number ('<' :: rest) lines)
  | '-' :: code => some (codeStatement number indent code lines)
  | '!' :: '=' :: expression =>
    some ⟨.complete [bufferedCode number expression false], [], lines⟩
  | '=' :: expression => some ⟨.complete [bufferedCode number expression true], [], lines⟩
  | ':' :: rest => some (filterStatement number indent rest lines)
  | '+' :: call => some (callStatement number call lines)
  | _ =>
    (ofKeyword? number text).map fun (statement, faults) =>
      ⟨statement, faults.map (⟨number, ·⟩), lines⟩

/-! ### Elements -/

/-- Read a tag, taking further lines as long as something in it is not closed. -/
def readTag (text : List Char) (lines : List SourceLine) :
    Except TagFault TagHead × List SourceLine :=
  match TagHead.ofText text, lines with
  | .error .unclosed, next :: rest => readTag (text ++ '\n' :: Text.trimEnd next.text) rest
  | result, lines => (result, lines)
termination_by structural lines

/-- An element, up to the statement that follows a colon. -/
inductive ElementReading where
  /-- A whole statement. -/
  | done (reading : StatementReading)
  /-- An element whose content is another statement of the same line. -/
  | expansion (element : Node) (inner : List Char) (rest : List SourceLine)

/-- The node of an element with the content on its own line. -/
def elementNode (number : Nat) (head : TagHead) (children : List Node) : Node :=
  (Node.leaf (.element (String.ofList head.name) head.attributes head.spreads) number).addChildren
    children

/-- Read an element. -/
def element (number indent : Nat) (text : List Char) (lines : List SourceLine) : ElementReading :=
  match readTag text lines with
  | (.error .unclosed, rest) => .done ⟨.complete [], [⟨number, .unclosedAttributes⟩], rest⟩
  | (.error (.invalid fault), rest) => .done ⟨.dissolved none, [⟨number, fault⟩], rest⟩
  | (.ok head, rest) =>
    match head.rest with
    | .empty => .done ⟨.heading (elementNode number head []), [], rest⟩
    | .text inline =>
      let (nodes, errors) := textNodes number inline
      .done ⟨.heading (elementNode number head nodes), errors, rest⟩
    | .code value escaped =>
      .done ⟨.heading (elementNode number head [bufferedCode number value escaped]), [], rest⟩
    | .dotBlock =>
      let (nodes, errors) := textBlock (rawLines indent rest)
      .done ⟨.complete [elementNode number head nodes], errors, afterRaw indent rest⟩
    | .selfClosing => .done ⟨.complete [elementNode number head []], [], rest⟩
    | .expansion inner => .expansion (elementNode number head []) inner rest

/-- A tag is read from its own text, or takes further lines. -/
theorem readTag_cases (text : List Char) (lines : List SourceLine) :
    readTag text lines = (TagHead.ofText text, lines) ∨
      (readTag text lines).2.length < lines.length := by
  induction lines generalizing text with
  | nil =>
    unfold readTag
    split <;> simp_all
  | cons next rest ih =>
    unfold readTag
    split
    · next taken =>
      simp only [List.cons.injEq] at taken
      obtain ⟨rfl, rfl⟩ := taken
      refine Or.inr ?_
      rcases ih (text ++ '\n' :: Text.trimEnd next.text) with same | fewer
      · rw [same]
        simp
      · simp only [List.length_cons]
        omega
    · exact Or.inl rfl

theorem length_readTag (text : List Char) (lines : List SourceLine) :
    (readTag text lines).2.length ≤ lines.length := by
  rcases readTag_cases text lines with same | fewer
  · exact Nat.le_of_eq (congrArg (fun read => read.2.length) same)
  · exact Nat.le_of_lt fewer

theorem length_element {number indent : Nat} {text : List Char} {lines : List SourceLine}
    {reading : StatementReading} (h : element number indent text lines = .done reading) :
    reading.rest.length ≤ lines.length := by
  have bound := length_readTag text lines
  unfold element at h
  split at h
  · next read =>
    rw [read] at bound
    simp only [ElementReading.done.injEq] at h
    subst h
    exact bound
  · next read =>
    rw [read] at bound
    simp only [ElementReading.done.injEq] at h
    subst h
    exact bound
  · next read =>
    rw [read] at bound
    split at h
    all_goals simp only [ElementReading.done.injEq, reduceCtorEq] at h
    all_goals subst h
    all_goals first
      | exact bound
      | exact Nat.le_trans (length_afterRaw _ _) bound

/-- The statement after a colon has fewer lines to take from, or is shorter than the text before. -/
theorem length_expansion {number indent : Nat} {text inner : List Char}
    {lines rest : List SourceLine} {node : Node}
    (h : element number indent text lines = .expansion node inner rest) :
    rest.length < lines.length ∨ (rest.length = lines.length ∧ inner.length < text.length) := by
  have cases := readTag_cases text lines
  unfold element at h
  split at h
  · simp at h
  · simp at h
  · next head rest' read =>
    split at h
    all_goals simp only [reduceCtorEq, ElementReading.expansion.injEq] at h
    next inner' expands =>
    obtain ⟨-, rfl, rfl⟩ := h
    rw [read] at cases
    rcases cases with same | fewer
    · simp only [Prod.mk.injEq] at same
      exact Or.inr ⟨by rw [same.2], TagHead.length_expansion same.1.symm expands⟩
    · exact Or.inl fewer

/-! ### Reading -/

/-- Read the statement `text`, which stands on the line `number` with the given indentation and is
followed by `lines`. -/
def read (number indent : Nat) (text : List Char) (lines : List SourceLine) : StatementReading :=
  match simple? number indent (Text.trimEnd text) lines with
  | some reading => reading
  | none =>
    match _element : element number indent (Text.trimEnd text) lines with
    | .done reading => reading
    | .expansion node inner rest =>
      let reading := read number indent inner rest
      ⟨.nested node reading.statement, reading.errors, reading.rest⟩
termination_by (lines.length, text.length)
decreasing_by
  rcases length_expansion _element with fewer | ⟨same, shorter⟩
  · exact Prod.Lex.left _ _ fewer
  · rw [same]
    exact Prod.Lex.right _ (Nat.lt_of_lt_of_le shorter (Text.length_trimEnd_le text))

theorem length_codeStatement (number indent : Nat) (code : List Char) (lines : List SourceLine) :
    (codeStatement number indent code lines).rest.length ≤ lines.length := by
  unfold codeStatement
  split
  · exact length_afterRaw _ _
  · exact Nat.le_refl _

theorem length_callStatement (number : Nat) (call : List Char) (lines : List SourceLine) :
    (callStatement number call lines).rest.length ≤ lines.length := by
  unfold callStatement
  split <;> exact Nat.le_refl _

theorem length_simple {number indent : Nat} {text : List Char} {lines : List SourceLine}
    {reading : StatementReading} (h : simple? number indent text lines = some reading) :
    reading.rest.length ≤ lines.length := by
  unfold simple? at h
  split at h
  case h_10 =>
    simp only [Option.map_eq_some_iff] at h
    obtain ⟨worded, -, rfl⟩ := h
    exact Nat.le_refl _
  all_goals simp only [Option.some.injEq] at h
  all_goals subst h
  all_goals first
    | exact Nat.le_refl _
    | exact length_afterRaw _ _
    | exact length_codeStatement _ _ _ _
    | exact length_callStatement _ _ _

/-- Reading a statement gives back no line. -/
theorem length_read (number indent : Nat) (text : List Char) (lines : List SourceLine) :
    (read number indent text lines).rest.length ≤ lines.length := by
  fun_induction read number indent text lines with
  | case1 text lines reading simple => exact length_simple simple
  | case2 text lines _ reading done => exact length_element done
  | case3 text lines _ node inner rest expands reading ih =>
    rcases length_expansion expands with fewer | ⟨same, -⟩
    · exact Nat.le_trans ih (Nat.le_of_lt fewer)
    · exact Nat.le_trans ih (Nat.le_of_eq same)

/-! ### Closing a statement -/

/-- Whether a statement does something with the block below it. -/
def takesBlock : Statement → Bool
  | complete _ => false
  | nested _ inner => inner.takesBlock
  | _ => true

/-- Let `branch` be rendered where `node` is not: the last conditional of a chain of conditionals
takes it, and so does a loop, unless there is such a branch already. -/
def attachElse? (branch : List Node) : Node → Option Node
  | ⟨.conditional test negated, line, file, children, []⟩ =>
    some ⟨.conditional test negated, line, file, children, branch⟩
  | ⟨.conditional test negated, line, file, children, [last]⟩ =>
    match last.kind with
    | .conditional .. =>
      (attachElse? branch last).map fun last =>
        ⟨.conditional test negated, line, file, children, [last]⟩
    | _ => none
  | ⟨.each item key collection, line, file, children, []⟩ =>
    some ⟨.each item key collection, line, file, children, branch⟩
  | _ => none

/-- Attach a branch to the last of the nodes before it. A branch that nothing takes is a fault and
stands for itself. -/
def attachToLast (line : Nat) (branch before : List Node) : List Node × List SyntaxError :=
  match before.getLast?.bind (attachElse? branch) with
  | some last => (before.dropLast ++ [last], [])
  | none => (before ++ branch, [⟨line, .strayElse⟩])

/-- The siblings that result when a statement on the given line follows `before` and has the given
block, and the faults found only then. -/
def close (line : Nat) : Statement → List Node → List Node → List Node × List SyntaxError
  | complete nodes, _, before => (before ++ nodes, [])
  | heading node, block, before => (before ++ [node.addChildren block], [])
  | dissolved fault?, block, before => (before ++ block, fault?.toList.map (⟨line, ·⟩))
  | dropped, _, before => (before, [])
  | elseBranch, block, before => attachToLast line block before
  | elseIf conditional, block, before => attachToLast line [conditional.addChildren block] before
  | nested element inner, block, before =>
    let (children, errors) := close line inner block []
    (before ++ [element.addChildren children], errors)

end Statement

end PugContracts.Template
