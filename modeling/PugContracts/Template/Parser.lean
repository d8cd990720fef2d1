import PugContracts.Template.Statement

/-!
# Reading a template

A template is a block of statements; a statement may have a deeper block of its own. Reading is
total: a malformed line is a `SyntaxError`, and reading goes on with the next line.

## Blocks

A block has the indentation of its first line. Deeper lines belong to the statement before them, and
if that statement takes no block they are *stray*: they are reported and become further children of
the last node of the block. A line that is less deep ends the block, and so does one that is no
deeper than the *floor*, the indentation of the statement whose block this is.

## Termination

Every round of `siblings` takes at least the line it looks at, and no statement gives lines back
(`Statement.length_read`), so the number of lines decreases. The bound on the lines that are left is
part of what `siblings` returns, since the recursion continues with them.
-/

namespace PugContracts.Template

/-- The nodes of a block, the faults found in it and the lines after it. -/
structure BlockReading where
  /-- The nodes. -/
  nodes : List Node
  /-- The faults, in the order in which they were found. -/
  errors : List SyntaxError
  /-- The lines after the block. -/
  rest : List SourceLine

namespace BlockReading

/-- A block that was read after the faults `errors` had been found. -/
def afterErrors (errors : List SyntaxError) (reading : BlockReading) : BlockReading :=
  { reading with errors := errors ++ reading.errors }

end BlockReading

/-- Add stray nodes: below the last node of the block, or to the block if it is empty. -/
def absorb (before stray : List Node) : List Node :=
  match before.getLast? with
  | some last => before.dropLast ++ [last.addChildren stray]
  | none => stray

/-- The indentation of the first line that is not blank. -/
def firstIndent (lines : List SourceLine) : Nat :=
  ((lines.find? (!·.isBlank)).map SourceLine.indent).getD 0

/-- Whether a line ends a block of the indentation `indent` above the floor `floor`. -/
def endsBlock (floor : Option Nat) (indent : Nat) (line : SourceLine) : Bool :=
  floor.any (line.indent ≤ ·) || line.indent < indent

/-- Read on in a block of the indentation `indent` after the nodes `before`. -/
def siblings (floor : Option Nat) (indent : Nat) (before : List Node) (lines : List SourceLine) :
    { reading : BlockReading // reading.rest.length ≤ lines.length } :=
  match lines with
  | [] => ⟨⟨before, [], []⟩, Nat.le_refl _⟩
  | line :: after =>
    if line.isBlank then
      let ⟨reading, bound⟩ := siblings floor indent before after
      ⟨reading, Nat.le_succ_of_le bound⟩
    else if endsBlock floor indent line then ⟨⟨before, [], line :: after⟩, Nat.le_refl _⟩
    else
      let stray := indent < line.indent
      let ⟨opened, opened_le⟩ :
          { opened : StatementReading // opened.rest.length ≤ after.length } :=
        ⟨Statement.read line.number line.indent line.text after, Statement.length_read ..⟩
      let ⟨block, block_le⟩ :
          { reading : BlockReading // reading.rest.length ≤ opened.rest.length } :=
        if opened.statement.takesBlock then
          siblings (some line.indent) (firstIndent opened.rest) [] opened.rest
        else ⟨⟨[], [], opened.rest⟩, Nat.le_refl _⟩
      let (nodes, late) :=
        opened.statement.close line.number block.nodes (if stray then [] else before)
      let errors := opened.errors ++ block.errors ++ late
      if stray then
        let ⟨more, more_le⟩ := siblings (some indent) line.indent nodes block.rest
        let ⟨reading, bound⟩ := siblings floor indent (absorb before more.nodes) more.rest
        ⟨reading.afterErrors (⟨line.number, .unexpectedIndentation⟩ :: errors ++ more.errors), by
          simp only [BlockReading.afterErrors, List.length_cons] at *
          omega⟩
      else
        let ⟨reading, bound⟩ := siblings floor indent nodes block.rest
        ⟨reading.afterErrors errors, by
          simp only [BlockReading.afterErrors, List.length_cons] at *
          omega⟩
termination_by lines.length
decreasing_by
  all_goals simp only [List.length_cons] at *
  all_goals omega

/-- Read the block that the next line starts, if it is deeper than the floor. -/
def block (floor : Option Nat) (lines : List SourceLine) : BlockReading :=
  (siblings floor (firstIndent lines) [] lines).val

/-- The nodes of a template and its syntax errors. -/
structure ParsedTemplate where
  /-- The top-level nodes, not yet stamped. -/
  nodes : List Node
  /-- The malformed lines, in the order in which they were found. -/
  errors : List SyntaxError

/-- Read the source text of a template. -/
def parse (source : String) : ParsedTemplate :=
  let reading := block none (SourceLine.ofSource source.toList)
  ⟨reading.nodes, reading.errors⟩

end PugContracts.Template
