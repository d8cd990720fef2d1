import PugContracts.Proofs.Template.Forest
import PugContracts.Proofs.Template.Heads
import PugContracts.Proofs.Text.Parts

/-!
# The lines of a printed forest

The rows of a printed forest are the lines that its text is cut into (`numberFrom_rows`). There are
as many as the forest is high, each of them can stand on a line, and the first one is as deep as the
forest is printed.
-/

namespace PugContracts.Template

open Text (EndsUnblank)

variable {spelling : Spelling} {depth : Nat} {nodes children alternate rest : List Node} {row : Row}
  {rows : List Row}

/-! ### Printed lines -/

/-- A row as the line with a given number. -/
def Row.line (number : Nat) (row : Row) : SourceLine :=
  ⟨number, 2 * row.depth, row.text.toList⟩

/-- Rows as lines, of which the first has the given number. -/
def linesFrom (first : Nat) : List Row → List SourceLine
  | [] => []
  | row :: rest => row.line first :: linesFrom (first + 1) rest

theorem linesFrom_append (first : Nat) (rows more : List Row) :
    linesFrom first (rows ++ more) =
      linesFrom first rows ++ linesFrom (first + rows.length) more := by
  induction rows generalizing first with
  | nil => rfl
  | cons row rest ih =>
    rw [List.cons_append, linesFrom, linesFrom, ih, List.length_cons, List.cons_append,
      Nat.add_assoc, Nat.add_comm 1]

theorem isBlank_of_isIndentation {c : Char} (h : isIndentation c = true) :
    Text.isBlank c = true := by
  simp only [isIndentation, Bool.or_eq_true, beq_iff_eq] at h
  rcases h with rfl | rfl <;> decide

theorem isBlank_line (h : Legible row.text.toList) (number : Nat) :
    (row.line number).isBlank = false := by
  obtain ⟨c, hc, hblank⟩ := h.head
  obtain ⟨tail, htext⟩ := List.head?_eq_some_iff.mp hc
  simp [SourceLine.isBlank, Text.isAllBlank, Row.line, htext, hblank]

/-- The characters of a row are the line that was meant. -/
theorem ofText_chars (h : Legible row.text.toList) (number : Nat) :
    SourceLine.ofText number row.chars = row.line number := by
  obtain ⟨c, hc, hblank⟩ := h.head
  obtain ⟨tail, htext⟩ := List.head?_eq_some_iff.mp hc
  have hindentation : ∀ d ∈ List.replicate (2 * row.depth) ' ', isIndentation d = true :=
    fun d hd => by rw [List.eq_of_mem_replicate hd]; rfl
  have hstart : isIndentation c = false :=
    Bool.eq_false_iff.mpr fun hc => by rw [isBlank_of_isIndentation hc] at hblank; cases hblank
  have hreturn : Text.dropReturn row.chars = List.replicate (2 * row.depth) ' ' ++ c :: tail := by
    rw [Row.chars, (h.last.append_left _ h.ne_nil).dropReturn_eq_self, htext]
  rw [SourceLine.ofText, hreturn, List.takeWhile_append_of_pos hindentation,
    List.dropWhile_append_of_pos hindentation, List.takeWhile_cons_of_neg (by simp [hstart]),
    List.dropWhile_cons_of_neg (by simp [hstart]), List.append_nil, List.length_replicate, Row.line,
    htext]

/-- The lines of a printed text, and nothing after the last newline. -/
theorem newlinePieces_rows (h : ∀ row ∈ rows, Legible row.text.toList) :
    Text.newlinePieces (rows.flatMap fun row => row.chars ++ ['\n']) =
      rows.map Row.chars ++ [[]] := by
  induction rows with
  | nil => rfl
  | cons row rest ih =>
    obtain ⟨hrow, hrest⟩ := List.forall_mem_cons.mp h
    have hsingle : '\n' ∉ row.chars := by simp [Row.chars, hrow.single]
    rw [List.flatMap_cons, List.append_assoc, List.singleton_append,
      Text.newlinePieces_append_newline, Text.newlinePieces_eq_singleton hsingle]
    exact congrArg (row.chars :: ·) (ih hrest)

theorem numberFrom_rows (h : ∀ row ∈ rows, Legible row.text.toList) (first : Nat) :
    SourceLine.numberFrom first (rows.map Row.chars ++ [[]]) =
      linesFrom first rows ++ [⟨first + rows.length, 0, []⟩] := by
  induction rows generalizing first with
  | nil => rfl
  | cons row rest ih =>
    obtain ⟨hrow, hrest⟩ := List.forall_mem_cons.mp h
    rw [List.map_cons, List.cons_append, SourceLine.numberFrom, ofText_chars hrow, ih hrest,
      linesFrom, List.cons_append, List.length_cons, Nat.add_assoc, Nat.add_comm 1]

/-! ### Printed forests -/

theorem printable_cons {kind : NodeKind} {line : Nat} {file : Option Path} :
    Printable (⟨kind, line, file, children, alternate⟩ :: rest) ↔
      Node.isPrintable ⟨kind, line, file, children, alternate⟩ = true ∧ Printable children ∧
        Printable alternate ∧ Printable rest := by
  simp only [Printable, walkAll, Node.walk, List.cons_append, List.append_assoc,
    List.forall_mem_cons, List.forall_mem_append]

theorem Node.isPrintable_iff {node : Node} :
    node.isPrintable = true ↔ node.kind.isPrintable = true ∧
      (node.kind.isLeaf = true → node.children = []) ∧
      (node.alternate ≠ [] → node.kind.isBranching = true) := by
  cases hleaf : node.kind.isLeaf <;> cases hbranching : node.kind.isBranching <;>
    simp [Node.isPrintable, hleaf, hbranching, and_assoc]

/-- Only a conditional has a branch that continues a chain, and this is one conditional. -/
theorem chains_iff {kind : NodeKind} :
    kind.chains nodes = true ↔ (∃ test negated, kind = .conditional test negated) ∧
      ∃ test line file children alternate,
        nodes = [⟨.conditional test false, line, file, children, alternate⟩] := by
  constructor
  · intro h
    unfold NodeKind.chains at h
    split at h
    · exact ⟨⟨_, _, rfl⟩, _, _, _, _, _, rfl⟩
    · cases h
  · rintro ⟨⟨test, negated, rfl⟩, other, line, file, children, alternate, rfl⟩
    rfl

@[simp] theorem needsElse_nil (kind : NodeKind) : kind.needsElse [] = false := by
  rw [NodeKind.needsElse, List.isEmpty_nil, Bool.not_true, Bool.false_and]

/-- The lines of a branch. -/
def branchRows (spelling : Spelling) (depth : Nat) (kind : NodeKind) (alternate : List Node) :
    List Row :=
  elseRows depth kind alternate ++
    if kind.chains alternate then rowsAll spelling depth "else " alternate
    else rowsAll spelling (depth + 1) "" alternate

@[simp] theorem branchRows_nil (kind : NodeKind) : branchRows spelling depth kind [] = [] := by
  simp [branchRows, elseRows, rowsAll]

theorem rows_eq {kind : NodeKind} {line : Nat} {file : Option Path} {opening : String} :
    Node.rows spelling depth opening ⟨kind, line, file, children, alternate⟩ =
      ⟨depth, opening ++ kind.head spelling⟩ :: (rowsAll spelling (depth + 1) "" children ++
        branchRows spelling depth kind alternate) := by
  rw [Node.rows, branchRows]

theorem length_elseRows {kind : NodeKind} :
    (elseRows depth kind alternate).length = (kind.needsElse alternate).toNat := by
  rw [elseRows]
  cases kind.needsElse alternate <;> rfl

/-- A forest is printed on as many lines as it is high. -/
theorem length_rowsAll (nodes : List Node) (depth : Nat) (opening : String) :
    (rowsAll spelling depth opening nodes).length = heightAll nodes := by
  induction nodes using forest_induction generalizing depth opening with
  | nil => rfl
  | cons kind line file children alternate rest hchildren halternate hrest =>
    have hbranch : (branchRows spelling depth kind alternate).length =
        (kind.needsElse alternate).toNat + heightAll alternate := by
      rw [branchRows, List.length_append, length_elseRows]
      split <;> rw [halternate]
    rw [rowsAll, rows_eq, List.length_append, List.length_cons, List.length_append, hchildren,
      hbranch, hrest, heightAll, Node.height]
    omega

theorem length_rows {kind : NodeKind} {line : Nat} {file : Option Path} {opening : String} :
    (Node.rows spelling depth opening ⟨kind, line, file, children, alternate⟩).length =
      Node.height ⟨kind, line, file, children, alternate⟩ := by
  simpa [rowsAll, heightAll] using
    length_rowsAll [⟨kind, line, file, children, alternate⟩] depth opening

/-- The lines of a branch can be read if those of its forest can, whatever stands before them. -/
theorem legible_branchRows {kind : NodeKind}
    (h : ∀ depth opening, (∀ text, Legible text → Legible (opening.toList ++ text)) →
      ∀ row ∈ rowsAll spelling depth opening alternate, Legible row.text.toList) :
    ∀ row ∈ branchRows spelling depth kind alternate, Legible row.text.toList := by
  intro row hrow
  rw [branchRows, elseRows, List.mem_append] at hrow
  rcases hrow with hrow | hrow
  · split at hrow
    · rw [List.mem_singleton.mp hrow]
      exact lineOf_else.legible
    · cases hrow
  · split at hrow
    · exact h _ "else " (fun _ htext => htext.after ⟨rfl, rfl⟩) row hrow
    · exact h _ "" (fun _ => id) row hrow

/-- The lines of a printed forest can be read. -/
theorem legible_rowsAll (spelling : Spelling) (h : Printable nodes) (depth : Nat) (opening : String)
    (hopening : ∀ text, Legible text → Legible (opening.toList ++ text)) :
    ∀ row ∈ rowsAll spelling depth opening nodes, Legible row.text.toList := by
  induction nodes using forest_induction generalizing depth opening with
  | nil => simp [rowsAll]
  | cons kind line file children alternate rest hchildren halternate hrest =>
    obtain ⟨hnode, hprintable, hbranch, hmore⟩ := printable_cons.mp h
    intro row hrow
    rw [rowsAll, rows_eq, List.cons_append, List.mem_cons, List.mem_append, List.mem_append] at hrow
    rcases hrow with rfl | (hrow | hrow) | hrow
    · rw [String.toList_append]
      exact hopening _ (lineOf_head spelling (Node.isPrintable_iff.mp hnode).1).legible
    · exact hchildren hprintable _ _ (fun _ => id) row hrow
    · exact legible_branchRows (halternate hbranch) row hrow
    · exact hrest hmore _ _ hopening row hrow

theorem rowsAll_cons_ne_nil {opening : String} (node : Node) (rest : List Node) :
    rowsAll spelling depth opening (node :: rest) ≠ [] := by
  obtain ⟨kind, line, file, children, alternate⟩ := node
  rw [rowsAll, rows_eq, List.cons_append]
  exact List.cons_ne_nil _ _

theorem depth_head_rowsAll {opening : String}
    (h : row ∈ (rowsAll spelling depth opening nodes).head?) : row.depth = depth := by
  cases nodes with
  | nil => cases h
  | cons node rest =>
    obtain ⟨kind, line, file, children, alternate⟩ := node
    rw [rowsAll, rows_eq, List.cons_append] at h
    obtain rfl := Option.some.inj h
    rfl

theorem depth_head_branchRows {kind : NodeKind}
    (h : row ∈ (branchRows spelling depth kind alternate).head?) : row.depth = depth := by
  rw [branchRows, elseRows] at h
  cases hneeds : kind.needsElse alternate with
  | true =>
    rw [hneeds] at h
    obtain rfl := Option.some.inj h
    rfl
  | false =>
    rw [hneeds, if_neg Bool.false_ne_true, List.nil_append] at h
    cases hchains : kind.chains alternate with
    | true =>
      rw [hchains, if_pos rfl] at h
      exact depth_head_rowsAll h
    | false =>
      obtain rfl : alternate = [] := by simpa [NodeKind.needsElse, hchains] using hneeds
      rw [hchains] at h
      cases h

end PugContracts.Template
