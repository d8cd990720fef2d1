import PugContracts.Proofs.Template.Reading

/-!
# Line numbers

A line that is named in an error or in a map of lines has to be one of the text. Every piece between
newlines is a line here, also the last one, so a text has a first line even if it is empty.

The lines of a template are numbered before it is read, and reading makes up no number: nodes and
faults are on lines of the text, however blocks are nested, tags broken over lines and branches
moved to the statements that they belong to.

## Main results

* `hasLine_of_mem_nodes`, `hasLine_of_mem_errors`: the nodes of a template and its faults are on
  lines of its text.
-/

namespace PugContracts

/-- The text has a line with this number; lines are counted from one. -/
def HasLine (text : String) (line : Nat) : Prop :=
  1 ≤ line ∧ line ≤ (Text.newlinePieces text.toList).length

theorem hasLine_one (text : String) : HasLine text 1 :=
  ⟨Nat.le_refl 1, List.length_pos_iff.mpr (Text.splitAtEach_ne_nil _ _)⟩

namespace Template

variable {floor : Option Nat} {indent : Nat} {before : List Node} {lines : List SourceLine}

theorem SourceLine.number_of_mem_numberFrom {first : Nat} {texts : List (List Char)}
    {line : SourceLine} (hline : line ∈ numberFrom first texts) :
    first ≤ line.number ∧ line.number < first + texts.length := by
  induction texts generalizing first with
  | nil => simp [numberFrom] at hline
  | cons text rest ih =>
    rw [numberFrom, List.mem_cons] at hline
    rw [List.length_cons]
    rcases hline with rfl | hline
    · simp only [ofText]
      omega
    · have := ih hline
      omega

theorem SourceLine.hasLine_of_mem_ofSource {source : String} {line : SourceLine}
    (hline : line ∈ ofSource source.toList) : HasLine source line.number := by
  have := number_of_mem_numberFrom hline
  exact ⟨this.1, by omega⟩

/-- Reading a statement and closing it makes up no line. -/
theorem Start.on_lines {P : Nat → Prop} (start : Start) (before : List Node) {block : BlockReading}
    (hstart : P start.line.number) (hafter : ∀ line ∈ start.after, P line.number)
    (htakes : start.reading.statement.takesBlock = true → (∀ n ∈ linesOf block.nodes, P n) ∧
      (∀ error ∈ block.errors, P error.line) ∧ ∀ line ∈ block.rest, P line.number)
    (hleaves : start.reading.statement.takesBlock = false → block = ⟨[], [], start.reading.rest⟩)
    (hbefore : ∀ n ∈ linesOf before, P n) :
    let closed := start.reading.statement.close start.line.number block.nodes before
    (∀ n ∈ linesOf closed.1, P n) ∧
      (∀ error ∈ start.reading.errors ++ block.errors ++ closed.2, P error.line) ∧
      ∀ line ∈ block.rest, P line.number := by
  intro closed
  have hread :=
    Statement.faithful_read start.line.number start.line.indent start.line.text start.after
  have hlater : ∀ n, (n = start.line.number ∨ ∃ line ∈ start.after, line.number = n) → P n := by
    rintro n (rfl | ⟨line, hline, rfl⟩)
    · exact hstart
    · exact hafter line hline
  have hblock : (∀ n ∈ linesOf block.nodes, P n) ∧ (∀ error ∈ block.errors, P error.line) ∧
      ∀ line ∈ block.rest, P line.number := by
    cases htaken : start.reading.statement.takesBlock with
    | true => exact htakes htaken
    | false =>
      obtain rfl := hleaves htaken
      obtain ⟨taken, heq, -⟩ := hread.further
      exact ⟨by simp, by simp, fun line hline => hafter line (heq ▸ List.mem_append_right _ hline)⟩
  refine ⟨fun n hn => ?_, fun error herror => ?_, hblock.2.2⟩
  · rcases Statement.mem_linesOf_close.mp hn with hn | hn | ⟨-, -, hn⟩
    · exact hbefore n hn
    · exact hlater n (hread.line_of_node n hn)
    · exact hblock.1 n hn
  · rcases List.mem_append.mp herror with herror | herror
    · rcases List.mem_append.mp herror with herror | herror
      · exact hlater _ (hread.line_of_error error herror)
      · exact hblock.2.1 error herror
    · rw [Statement.line_of_mem_close herror]
      exact hstart

/-- **Reading a block makes up no line**: what holds of the lines of the nodes before it and of the
numbers of the lines that are read holds of the lines of all nodes and faults. -/
theorem Reads.on_lines {P : Nat → Prop} {reading : BlockReading}
    (h : Reads floor indent before lines reading) (hbefore : ∀ n ∈ linesOf before, P n)
    (hlines : ∀ line ∈ lines, P line.number) :
    (∀ n ∈ linesOf reading.nodes, P n) ∧ (∀ error ∈ reading.errors, P error.line) ∧
      ∀ line ∈ reading.rest, P line.number := by
  have hopened : ∀ start : Start, (∀ line ∈ start.after, P line.number) →
      ∀ line ∈ start.reading.rest, P line.number := by
    intro start hafter line hline
    obtain ⟨taken, heq, -⟩ := (Statement.faithful_read start.line.number start.line.indent
      start.line.text start.after).further
    exact hafter line (heq ▸ List.mem_append_right _ hline)
  induction h with
  | nil => exact ⟨hbefore, by simp, hlines⟩
  | blank _ _ ih => exact ih hbefore fun line hline => hlines line (List.mem_cons_of_mem _ hline)
  | ends => exact ⟨hbefore, by simp, hlines⟩
  | @sibling floor indent before line after opened block reading _ _ _ hreading _ hleaves _ ihblock
      ih =>
    subst hreading
    obtain ⟨hline, hafter⟩ := List.forall_mem_cons.mp hlines
    obtain ⟨hnodes, herrors, hrest⟩ := Start.on_lines ⟨line, after⟩ before hline hafter
      (fun htaken => ihblock htaken (by simp) (hopened ⟨line, after⟩ hafter)) hleaves hbefore
    obtain ⟨hout, hmore, hleft⟩ := ih hnodes hrest
    exact ⟨hout, List.forall_mem_append.mpr ⟨herrors, hmore⟩, hleft⟩
  | @stray floor indent before line after opened block more reading _ _ _ hreading _ hleaves _ _
      ihblock ihmore ih =>
    subst hreading
    obtain ⟨hline, hafter⟩ := List.forall_mem_cons.mp hlines
    obtain ⟨hnodes, herrors, hrest⟩ := Start.on_lines ⟨line, after⟩ [] hline hafter
      (fun htaken => ihblock htaken (by simp) (hopened ⟨line, after⟩ hafter)) hleaves (by simp)
    obtain ⟨hbeside, hdeep, hbelow⟩ := ihmore hnodes hrest
    obtain ⟨hout, hmore, hleft⟩ := ih (fun n hn =>
      (mem_linesOf_absorb.mp hn).elim (hbefore n) (hbeside n)) hbelow
    exact ⟨hout, List.forall_mem_append.mpr ⟨List.forall_mem_append.mpr
      ⟨List.forall_mem_cons.mpr ⟨hline, herrors⟩, hdeep⟩, hmore⟩, hleft⟩

/-! ### Main results -/

theorem parse_on_lines (source : String) :
    (∀ n ∈ linesOf (parse source).nodes, HasLine source n) ∧
      ∀ error ∈ (parse source).errors, HasLine source error.line := by
  have h := (reads_siblings none (firstIndent (SourceLine.ofSource source.toList)) []
    (SourceLine.ofSource source.toList)).on_lines (P := HasLine source) (by simp)
    fun _ => SourceLine.hasLine_of_mem_ofSource
  exact ⟨h.1, h.2.1⟩

/-- **The nodes of a template are on lines of its text.** -/
theorem hasLine_of_mem_nodes {source : String} {node : Node}
    (hnode : node ∈ walkAll (parse source).nodes) : HasLine source node.line :=
  (parse_on_lines source).1 node.line (List.mem_map_of_mem hnode)

/-- **The faults of a template are on lines of its text.** -/
theorem hasLine_of_mem_errors {source : String} {error : SyntaxError}
    (herror : error ∈ (parse source).errors) : HasLine source error.line :=
  (parse_on_lines source).2 error herror

end Template

end PugContracts
