import PugContracts.Proofs.Template.Reading
import PugContracts.Proofs.Template.Rows

/-!
# Reading a printed template

A printed forest is read back. The lines below a node are deeper than its own, so they are its
block, and the line after them is not, so the block ends there (`Readable.block`). The lines of a
branch are as deep as those of the node that it belongs to. They are read after that node was
closed and put it in its place again, with the branch; in a chain this is the last conditional,
which stands inside all the others (`Slot`).

Both are proved by one induction on the forest: that its lines are read as its nodes (`ReadsBack`),
and, if it continues a chain, that its lines are read into a slot (`Continues`).

## Main results

* `readable_of_printable`: the lines of a forest are read as its nodes, in any block.
* `parse_printed`: reading undoes printing.
-/

namespace PugContracts.Template

variable {spelling : Spelling} {floor : Option Nat} {indent depth first number : Nat}
  {before before' : List Node} {nodes children alternate rest : List Node}
  {after left lines : List SourceLine} {row : Row} {rows : List Row} {reading : BlockReading}

/-! ### Blocks -/

/-- The first line that is not blank is not deeper than the given level. -/
def Shallow (depth : Nat) (lines : List SourceLine) : Prop :=
  ∀ line ∈ (lines.dropWhile SourceLine.isBlank).head?, line.indent ≤ 2 * depth

theorem Shallow.mono {shallower : Nat} (h : Shallow shallower lines) (hle : shallower ≤ depth) :
    Shallow depth lines := fun line hline => by
  have := h line hline
  omega

theorem shallow_linesFrom (hlegible : ∀ row ∈ rows, Legible row.text.toList)
    (hdepth : ∀ row ∈ rows.head?, row.depth = depth) (hafter : Shallow depth after) (first : Nat) :
    Shallow depth (linesFrom first rows ++ after) := by
  cases rows with
  | nil => exact hafter
  | cons row rest =>
    intro line hline
    have hblank := isBlank_line (hlegible row List.mem_cons_self) first
    rw [linesFrom, List.cons_append, List.dropWhile_cons_of_neg (by simp [hblank])] at hline
    obtain rfl := Option.some.inj hline
    exact Nat.mul_le_mul_left 2 (Nat.le_of_eq (hdepth row rfl))

theorem firstIndent_rows (hlegible : ∀ row ∈ rows, Legible row.text.toList)
    (hdepth : ∀ row ∈ rows.head?, row.depth = depth) (hne : rows ≠ []) (first : Nat)
    (after : List SourceLine) : firstIndent (linesFrom first rows ++ after) = 2 * depth := by
  obtain ⟨row, rest, rfl⟩ := List.exists_cons_of_ne_nil hne
  have hblank := isBlank_line (hlegible row List.mem_cons_self) first
  rw [linesFrom, List.cons_append, firstIndent, List.find?_cons_of_pos (by simp [hblank]),
    ← hdepth row rfl]
  rfl

/-- A block ends where no line belongs to it. -/
theorem reads_end
    (h : ∀ line ∈ (lines.dropWhile SourceLine.isBlank).head?, endsBlock floor indent line = true) :
    Reads floor indent before lines ⟨before, [], lines.dropWhile SourceLine.isBlank⟩ := by
  induction lines with
  | nil => exact .nil
  | cons line rest ih =>
    cases hblank : line.isBlank with
    | true =>
      rw [List.dropWhile_cons_of_pos hblank] at h ⊢
      exact .blank hblank (ih h)
    | false =>
      rw [List.dropWhile_cons_of_neg (by simp [hblank])] at h ⊢
      exact .ends hblank (h line rfl)

/-- Blank lines may be left out. -/
theorem Reads.dropBlank (h : Reads floor indent before lines reading) :
    Reads floor indent before (lines.dropWhile SourceLine.isBlank) reading := by
  induction lines with
  | nil => exact h
  | cons line rest ih =>
    cases hblank : line.isBlank with
    | false =>
      rw [List.dropWhile_cons_of_neg (by simp [hblank])]
      exact h
    | true =>
      rw [List.dropWhile_cons_of_pos hblank]
      cases h with
      | blank _ hrest => exact ih hrest
      | ends hnot | sibling hnot | stray hnot => simp [hblank] at hnot

/-- The indentation of the floor is less than that of the level. -/
def Above (depth : Nat) (floor : Option Nat) : Prop :=
  ∀ indent ∈ floor, indent < 2 * depth

theorem endsBlock_line (hfloor : Above row.depth floor) :
    endsBlock floor (2 * row.depth) (row.line number) = false := by
  cases floor with
  | none => simp [endsBlock, Row.line]
  | some indent =>
    have hindent : ¬ 2 * row.depth ≤ indent := Nat.not_le.mpr (hfloor indent rfl)
    simp [endsBlock, Row.line, hindent]

/-- A row whose statement takes a block. -/
theorem reads_row (row : Row) {statement : Nat → Statement} {block : List Node}
    (hline : LineOf statement row.text.toList) (hfloor : Above row.depth floor)
    (htakes : (statement number).takesBlock = true)
    (hblock : Reads (some (2 * row.depth)) (firstIndent after) [] after ⟨block, [], left⟩)
    (hclose : (statement number).close number block before = (before', []))
    (hafter : Reads floor (2 * row.depth) before' left reading) :
    Reads floor (2 * row.depth) before (row.line number :: after) reading := by
  have hopened : (Start.mk (row.line number) after).reading = ⟨statement number, [], after⟩ :=
    hline.reads number _ after
  have htaken : (statement number).takesBlock = true →
      Reads (some (2 * row.depth)) (firstIndent after) [] after ⟨block, [], left⟩ := fun _ => hblock
  have hleaves : (statement number).takesBlock = false →
      (⟨block, [], left⟩ : BlockReading) = ⟨[], [], after⟩ := fun hnot => by
    rw [htakes] at hnot
    cases hnot
  have hclosed : Reads floor (2 * row.depth) ((statement number).close number block before).1 left
      reading := by
    rw [hclose]
    exact hafter
  have hreads := Reads.sibling (isBlank_line hline.legible number) (endsBlock_line hfloor)
    (Nat.lt_irrefl _) hopened htaken hleaves hclosed
  rwa [show (row.line number).number = number from rfl, hclose] at hreads

/-- A row whose statement takes no block. -/
theorem reads_leafRow (row : Row) {statement : Nat → Statement} {nodes : List Node}
    (hline : LineOf statement row.text.toList) (hfloor : Above row.depth floor)
    (hleaf : statement number = .complete nodes)
    (hafter : Reads floor (2 * row.depth) (before ++ nodes) after reading) :
    Reads floor (2 * row.depth) before (row.line number :: after) reading := by
  have hopened : (Start.mk (row.line number) after).reading = ⟨.complete nodes, [], after⟩ :=
    hleaf ▸ hline.reads number _ after
  have htaken : (Statement.complete nodes).takesBlock = true →
      Reads (some (2 * row.depth)) (firstIndent after) [] after ⟨[], [], after⟩ := fun hnot => by
    cases hnot
  exact Reads.sibling (isBlank_line hline.legible number) (endsBlock_line hfloor)
    (Nat.lt_irrefl _) hopened htaken (fun _ => rfl) hafter

/-! ### Branches -/

/-- A node with a place for a branch: a branch that is attached to the node goes to the place, or to
the conditional that stands there. -/
structure Slot (place : List Node → Node) : Prop where
  /-- The place takes a branch. -/
  takes : ∀ branch, Statement.attachElse? branch (place []) = some (place branch)
  /-- A conditional in the place passes a branch on. -/
  passes : ∀ {branch : List Node} {test : String} {negated : Bool} {line : Nat}
    {file : Option Path} {children alternate : List Node} {attached : Node},
    Statement.attachElse? branch ⟨.conditional test negated, line, file, children, alternate⟩ =
      some attached →
    Statement.attachElse? branch
      (place [⟨.conditional test negated, line, file, children, alternate⟩]) =
        some (place [attached])

/-- The branch of a conditional is a slot. -/
theorem slot_conditional {test : String} {negated : Bool} {line : Nat} {file : Option Path}
    {children : List Node} :
    Slot fun branch => ⟨.conditional test negated, line, file, children, branch⟩ := by
  refine ⟨fun branch => by rw [Statement.attachElse?], fun h => ?_⟩
  rw [Statement.attachElse?, h]
  rfl

/-- So is that of a conditional which stands in a slot. -/
theorem Slot.nested {place : List Node → Node} (h : Slot place) {test : String} {negated : Bool}
    {line : Nat} {file : Option Path} {children : List Node} :
    Slot fun branch => place [⟨.conditional test negated, line, file, children, branch⟩] :=
  ⟨fun branch => h.passes (slot_conditional.takes branch),
    fun hattached => h.passes (slot_conditional.passes hattached)⟩

theorem attachToLast_concat {branch : List Node} {node attached : Node}
    (h : Statement.attachElse? branch node = some attached) (line : Nat) (before : List Node) :
    Statement.attachToLast line branch (before ++ [node]) = (before ++ [attached], []) := by
  rw [Statement.attachToLast, List.getLast?_concat, Option.bind_some, h, List.dropLast_concat]

/-! ### Forests -/

/-- The lines of a forest are read as its nodes, in any block that they can be in. -/
def ReadsBack (spelling : Spelling) (nodes : List Node) : Prop :=
  ∀ {floor : Option Nat} {depth : Nat} (first : Nat) {before : List Node}
    {after : List SourceLine} {reading : BlockReading},
    Above depth floor → Shallow depth after →
    Reads floor (2 * depth) (before ++ numberedAll first nodes) after reading →
    Reads floor (2 * depth) before (linesFrom first (rowsAll spelling depth "" nodes) ++ after)
      reading

/-- The lines of a forest that continues a chain are read into a slot. -/
def Continues (spelling : Spelling) (nodes : List Node) : Prop :=
  ∀ {kind : NodeKind} {place : List Node → Node} {floor : Option Nat} {depth : Nat} (first : Nat)
    {before : List Node} {after : List SourceLine} {reading : BlockReading},
    kind.chains nodes = true → Slot place → Above depth floor → Shallow depth after →
    Reads floor (2 * depth) (before ++ [place (numberedAll first nodes)]) after reading →
    Reads floor (2 * depth) (before ++ [place []])
      (linesFrom first (rowsAll spelling depth "else " nodes) ++ after) reading

/-- A forest that can be printed, and is read back then. -/
structure Readable (spelling : Spelling) (nodes : List Node) : Prop where
  /-- It can be printed. -/
  printable : Printable nodes
  /-- It is read back as a block. -/
  back : ReadsBack spelling nodes
  /-- It is read back as the continuation of a chain. -/
  chain : Continues spelling nodes

/-- The lines of a forest one level deeper are the block of the line before them. -/
theorem Readable.block (h : Readable spelling children) (first : Nat)
    (hafter : Shallow depth after) :
    let lines := linesFrom first (rowsAll spelling (depth + 1) "" children) ++ after
    Reads (some (2 * depth)) (firstIndent lines) [] lines
      ⟨numberedAll first children, [], after.dropWhile SourceLine.isBlank⟩ := by
  intro lines
  -- What comes after is not deeper than the line before, which is the floor of the block.
  have hends : ∀ {indent : Nat},
      ∀ line ∈ (after.dropWhile SourceLine.isBlank).head?,
        endsBlock (some (2 * depth)) indent line = true := fun line hline => by
    simp [endsBlock, hafter line hline]
  cases children with
  | nil => exact reads_end hends
  | cons node rest =>
    have hlegible := legible_rowsAll spelling h.printable (depth + 1) "" fun _ => id
    have hfirst : firstIndent lines = 2 * (depth + 1) :=
      firstIndent_rows hlegible (fun _ => depth_head_rowsAll) (rowsAll_cons_ne_nil node rest) first
        after
    rw [hfirst]
    have habove : Above (depth + 1) (some (2 * depth)) := fun indent hindent => by
      obtain rfl := Option.some.inj hindent
      omega
    exact h.back first habove (hafter.mono (Nat.le_succ depth)) (reads_end hends)

/-- The lines of a branch are read into the place that is left for it. -/
theorem reads_branch {kind : NodeKind} {place : List Node → Node}
    (h : Readable spelling alternate)
    (hplace : alternate ≠ [] →
      ∀ branch, Statement.attachElse? branch (place []) = some (place branch))
    (hslot : kind.chains alternate = true → Slot place) (hfloor : Above depth floor)
    (hafter : Shallow depth after)
    (hreads : Reads floor (2 * depth)
      (before ++ [place (numberedAll (first + (kind.needsElse alternate).toNat) alternate)]) after
        reading) :
    Reads floor (2 * depth) (before ++ [place []])
      (linesFrom first (branchRows spelling depth kind alternate) ++ after) reading := by
  rw [branchRows, elseRows]
  cases hneeds : kind.needsElse alternate with
  | true =>
    obtain ⟨hne, hchains⟩ : alternate ≠ [] ∧ kind.chains alternate = false := by
      simpa [NodeKind.needsElse] using hneeds
    rw [hneeds] at hreads
    rw [if_pos rfl, if_neg (by simp [hchains])]
    exact reads_row ⟨depth, "else"⟩ lineOf_else hfloor rfl
      (h.block (first + 1) hafter) (attachToLast_concat (hplace hne _) first before)
      hreads.dropBlank
  | false =>
    rw [hneeds] at hreads
    rw [if_neg Bool.false_ne_true, List.nil_append]
    cases hchains : kind.chains alternate with
    | true => exact h.chain first hchains (hslot hchains) hfloor hafter hreads
    | false =>
      obtain rfl : alternate = [] := by simpa [NodeKind.needsElse, hchains] using hneeds
      exact hreads

/-- The lines of a node are read if its head puts the node in a place, without its branch. -/
theorem reads_tree (place : List Node → List Node → Node) {kind : NodeKind} {opening : String}
    {statement : Nat → Statement} {file : Option Path} {line : Nat}
    (hline : LineOf statement (opening ++ kind.head spelling).toList)
    (htakes : (statement first).takesBlock = true)
    (hclose : ∀ block, (statement first).close first block before =
      (before' ++ [place block []], []))
    (hchildren : Readable spelling children) (halternate : Readable spelling alternate)
    (hplace : alternate ≠ [] → ∀ block branch,
      Statement.attachElse? branch (place block []) = some (place block branch))
    (hslot : kind.chains alternate = true → ∀ block, Slot (place block))
    (hfloor : Above depth floor) (hafter : Shallow depth after)
    (hreads : Reads floor (2 * depth)
      (before' ++ [place (numberedAll (first + 1) children)
        (numberedAll (first + 1 + heightAll children + (kind.needsElse alternate).toNat)
          alternate)]) after reading) :
    Reads floor (2 * depth) before
      (linesFrom first (Node.rows spelling depth opening ⟨kind, line, file, children, alternate⟩) ++
        after) reading := by
  have hbranch : Shallow depth
      (linesFrom (first + 1 + heightAll children) (branchRows spelling depth kind alternate) ++
        after) :=
    shallow_linesFrom (legible_branchRows (legible_rowsAll spelling halternate.printable))
      (fun _ => depth_head_branchRows) hafter _
  have hread := reads_branch halternate (fun hne => hplace hne _)
    (fun hchains => hslot hchains _) hfloor hafter hreads
  have hlines : linesFrom first
      (Node.rows spelling depth opening ⟨kind, line, file, children, alternate⟩) ++ after =
      Row.line first ⟨depth, opening ++ kind.head spelling⟩ ::
        (linesFrom (first + 1) (rowsAll spelling (depth + 1) "" children) ++
          (linesFrom (first + 1 + heightAll children)
            (branchRows spelling depth kind alternate) ++ after)) := by
    rw [rows_eq, linesFrom, linesFrom_append, length_rowsAll, List.cons_append, List.append_assoc]
  rw [hlines]
  exact reads_row ⟨depth, opening ++ kind.head spelling⟩ hline hfloor htakes
    (hchildren.block (first + 1) hbranch) (hclose _) hread.dropBlank

theorem attachElse?_of_isBranching {kind : NodeKind} (h : kind.isBranching = true)
    (branch : List Node) (line : Nat) (file : Option Path) :
    Statement.attachElse? branch ⟨kind, line, file, children, []⟩ =
      some ⟨kind, line, file, children, branch⟩ := by
  cases kind with
  | conditional test negated => rw [Statement.attachElse?]
  | each item key collection => rw [Statement.attachElse?]
  | _ => cases h

theorem not_isBranching {kind : NodeKind} (h : kind.isLeaf = true) : kind.isBranching = false := by
  cases kind with
  | text | code | inclusion => rfl
  | _ => cases h

section Cons

variable {kind : NodeKind} {line : Nat} {file : Option Path}
  (hnode : Node.isPrintable ⟨kind, line, file, children, alternate⟩ = true)
  (hchildren : Readable spelling children) (halternate : Readable spelling alternate)
include hnode hchildren halternate

/-- A node and the rest of a block are read back one after the other. -/
theorem readsBack_cons (hrest : Readable spelling rest) :
    ReadsBack spelling (⟨kind, line, file, children, alternate⟩ :: rest) := by
  obtain ⟨hkind, hleaf, hbranching⟩ := Node.isPrintable_iff.mp hnode
  dsimp only at hkind hleaf hbranching
  intro floor depth first before after reading hfloor hafter hreads
  have hshallow : Shallow depth
      (linesFrom (first + (Node.height ⟨kind, line, file, children, alternate⟩))
        (rowsAll spelling depth "" rest) ++ after) :=
    shallow_linesFrom (legible_rowsAll spelling hrest.printable depth "" fun _ => id)
      (fun _ => depth_head_rowsAll) hafter _
  rw [numberedAll, Node.numbered, List.append_cons] at hreads
  have hmore := hrest.back _ hfloor hafter hreads
  rw [rowsAll, linesFrom_append, length_rows, List.append_assoc]
  -- A kind without a block is complete on its row; the others are closed when their block ends.
  cases hkindLeaf : kind.isLeaf with
  | true =>
    obtain rfl := hleaf hkindLeaf
    obtain rfl : alternate = [] := by
      by_contra hne
      exact Bool.false_ne_true ((not_isBranching hkindLeaf).symm.trans (hbranching hne))
    have hstatement : kind.statement first = .complete [.leaf kind first] := by
      rw [NodeKind.statement, hkindLeaf]
      rfl
    rw [rows_eq, branchRows_nil]
    exact reads_leafRow ⟨depth, "" ++ kind.head spelling⟩ (lineOf_head spelling hkind) hfloor
      hstatement hmore
  | false =>
    have hstatement : kind.statement first = .heading (.leaf kind first) := by
      rw [NodeKind.statement, hkindLeaf]
      rfl
    refine reads_tree (fun block branch => ⟨kind, first, none, block, branch⟩)
      (lineOf_head spelling hkind) ?_ ?_ hchildren halternate
      (fun hne block branch => attachElse?_of_isBranching (hbranching hne) _ _ _) ?_ hfloor
      hshallow hmore
    · rw [hstatement]
      rfl
    · intro block
      rw [hstatement]
      rfl
    · intro hchains block
      obtain ⟨⟨test, negated, rfl⟩, -⟩ := chains_iff.mp hchains
      exact slot_conditional

/-- A conditional that continues a chain is attached to it, and has a place for the next one. -/
theorem continues_cons :
    Continues spelling (⟨kind, line, file, children, alternate⟩ :: rest) := by
  obtain ⟨hkind, -⟩ := Node.isPrintable_iff.mp hnode
  intro outer place floor depth first before after reading hchains hslot hfloor hafter hreads
  -- A chain goes on with one conditional, so nothing follows this node.
  obtain ⟨-, test, _, _, _, _, hnodes⟩ := chains_iff.mp hchains
  obtain ⟨heq, rfl⟩ := List.cons.inj hnodes
  obtain ⟨rfl, rfl, rfl, rfl, rfl⟩ := Node.mk.inj heq
  have hhead : "else " ++ (NodeKind.conditional test false).head spelling = "else if " ++ test := by
    rw [NodeKind.head, ← String.append_assoc]
    rfl
  have hline := lineOf_elseIf (isPhrase_iff.mp hkind)
  rw [← hhead] at hline
  rw [rowsAll, rowsAll, List.append_nil]
  exact reads_tree
    (fun block branch => place [⟨.conditional test false, first, none, block, branch⟩])
    hline rfl (fun block => attachToLast_concat (hslot.takes _) first before)
    hchildren halternate (fun _ block => hslot.nested.takes) (fun _ block => hslot.nested) hfloor
    hafter hreads

end Cons

/-- **A printed forest is read back**, as a block or as the continuation of a chain. -/
theorem readable_of_printable (spelling : Spelling) (nodes : List Node) :
    Printable nodes → Readable spelling nodes := by
  induction nodes using forest_induction with
  | nil =>
    refine fun hprintable => ⟨hprintable, ?_, ?_⟩
    · intro floor depth first before after reading hfloor hafter hreads
      rwa [numberedAll, List.append_nil] at hreads
    · intro kind place floor depth first before after reading hchains
      simp [chains_iff] at hchains
  | cons kind line file children alternate rest hchildren halternate hrest =>
    intro hprintable
    obtain ⟨hnode, hbelow, hbranch, hmore⟩ := printable_cons.mp hprintable
    exact ⟨hprintable, readsBack_cons hnode (hchildren hbelow) (halternate hbranch) (hrest hmore),
      continues_cons hnode (hchildren hbelow) (halternate hbranch)⟩

/-! ### Numbers -/

/-- Every node of a forest has the number of a row on which its head stands, perhaps after an
`else`; the first row has the number `first`. -/
def PrintedOn (spelling : Spelling) (first : Nat) (rows : List Row) (nodes : List Node) : Prop :=
  ∀ node ∈ walkAll nodes, ∃ offset row, node.line = first + offset ∧ rows[offset]? = some row ∧
    (row.text = node.kind.head spelling ∨ row.text = "else " ++ node.kind.head spelling)

/-- Rows before and after those of a forest only shift the numbers. -/
theorem PrintedOn.between (first : Nat) (h : PrintedOn spelling number rows nodes)
    (earlier later : List Row) (hnumber : number = first + earlier.length) :
    PrintedOn spelling first (earlier ++ (rows ++ later)) nodes := by
  intro node hnode
  obtain ⟨offset, row, hline, hrow, htext⟩ := h node hnode
  refine ⟨earlier.length + offset, row, by omega, ?_, htext⟩
  rw [List.getElem?_append_right (Nat.le_add_right _ _), Nat.add_sub_cancel_left,
    List.getElem?_append_left (List.getElem?_eq_some_iff.mp hrow).1, hrow]

/-- **The numbers of a numbered forest are those of the rows that it is printed on.** -/
theorem printedOn_numberedAll (nodes : List Node) (first depth : Nat) {opening : String}
    (hopening : opening = "" ∨ opening = "else ") :
    PrintedOn spelling first (rowsAll spelling depth opening nodes) (numberedAll first nodes) := by
  induction nodes using forest_induction generalizing first depth opening with
  | nil => simp [PrintedOn, numberedAll, walkAll]
  | cons kind line file children alternate rest hchildren halternate hrest =>
    have hbranch : PrintedOn spelling (first + 1 + heightAll children)
        (branchRows spelling depth kind alternate)
        (numberedAll (first + 1 + heightAll children + (kind.needsElse alternate).toNat)
          alternate) := by
      rw [branchRows, ← List.append_nil (ite ..)]
      refine PrintedOn.between _ ?_ _ _ (by rw [length_elseRows])
      split
      · exact halternate _ _ (Or.inr rfl)
      · exact halternate _ _ (Or.inl rfl)
    rw [rowsAll, rows_eq]
    intro node hnode
    simp only [numberedAll, Node.numbered, walkAll, Node.walk, List.cons_append, List.mem_cons,
      List.mem_append] at hnode
    rcases hnode with rfl | (hnode | hnode) | hnode
    · refine ⟨0, _, rfl, rfl, ?_⟩
      rcases hopening with rfl | rfl
      · exact Or.inl String.empty_append
      · exact Or.inr rfl
    · have h := (hchildren (first + 1) (depth + 1) (Or.inl rfl)).between first
        [⟨depth, opening ++ kind.head spelling⟩]
        (branchRows spelling depth kind alternate ++ rowsAll spelling depth opening rest) rfl
      simpa using h node hnode
    · have h := hbranch.between first
        (⟨depth, opening ++ kind.head spelling⟩ :: rowsAll spelling (depth + 1) "" children)
        (rowsAll spelling depth opening rest) (by rw [List.length_cons, length_rowsAll]; omega)
      simpa using h node hnode
    · have h := (hrest (first + Node.height ⟨kind, line, file, children, alternate⟩) depth
          hopening).between first
        (⟨depth, opening ++ kind.head spelling⟩ :: (rowsAll spelling (depth + 1) "" children ++
          branchRows spelling depth kind alternate)) [] (by rw [← rows_eq, length_rows])
      simpa using h node hnode

/-! ### Main result -/

/-- A printed forest and a blank line after it are read to the end. -/
theorem reads_printed (spelling : Spelling) (h : Printable nodes) (first number : Nat) :
    let lines := linesFrom first (rowsAll spelling 0 "" nodes) ++ [⟨number, 0, []⟩]
    Reads none (firstIndent lines) [] lines ⟨numberedAll first nodes, [], []⟩ := by
  intro lines
  have hfirst : firstIndent lines = 2 * 0 := by
    cases nodes with
    | nil => rfl
    | cons node rest =>
      exact firstIndent_rows (legible_rowsAll spelling h 0 "" fun _ => id)
        (fun _ => depth_head_rowsAll) (rowsAll_cons_ne_nil node rest) first _
  have hshallow : Shallow 0 [⟨number, 0, []⟩] := fun line hline => by cases hline
  rw [hfirst]
  exact (readable_of_printable spelling nodes h).back first (fun _ hindent => by cases hindent)
    hshallow (.blank rfl .nil)

/-- **Reading undoes printing.** A forest that is printed is read without a fault and as the same
forest, in which every node has the number of the line of the text that its head stands on, after
the indentation and perhaps an `else`. -/
theorem parse_printed (spelling : Spelling) {nodes : List Node} (h : Printable nodes) :
    parse (print spelling nodes) = ⟨numberedAll 1 nodes, []⟩ ∧
      ∀ node ∈ walkAll (numberedAll 1 nodes), ∃ row : Row,
        (Text.newlinePieces (print spelling nodes).toList)[node.line - 1]? = some row.chars ∧
          (row.text = node.kind.head spelling ∨ row.text = "else " ++ node.kind.head spelling) := by
  have hlegible := legible_rowsAll spelling h 0 "" fun _ => id
  have hpieces : Text.newlinePieces (print spelling nodes).toList =
      (rowsAll spelling 0 "" nodes).map Row.chars ++ [[]] := by
    rw [print, String.toList_ofList, newlinePieces_rows hlegible]
  refine ⟨?_, fun node hnode => ?_⟩
  · have hlines : SourceLine.ofSource (print spelling nodes).toList =
        linesFrom 1 (rowsAll spelling 0 "" nodes) ++
          [⟨1 + (rowsAll spelling 0 "" nodes).length, 0, []⟩] := by
      rw [SourceLine.ofSource, hpieces, numberFrom_rows hlegible]
    have hblock := (reads_siblings none _ [] _).unique
      (reads_printed spelling h 1 (1 + (rowsAll spelling 0 "" nodes).length))
    rw [parse, hlines, block, hblock]
  · obtain ⟨offset, row, hline, hrow, htext⟩ :=
      printedOn_numberedAll nodes 1 0 (Or.inl rfl) node hnode
    refine ⟨row, ?_, htext⟩
    rw [hpieces, hline, Nat.add_sub_cancel_left, List.getElem?_append_left, List.getElem?_map, hrow]
    · rfl
    · rw [List.length_map]
      exact (List.getElem?_eq_some_iff.mp hrow).1

/-- A forest with a chain of conditionals, in which a loop with a branch is nested. -/
def basket : List Node :=
  [⟨.conditional "items.length" false, 0, none,
      [⟨.each "item" (some "i") "items", 0, none,
        [⟨.element "li" [] [], 0, none, [.leaf (.code "item.name" true true) 0], []⟩],
        [.leaf (.text "nothing") 0]⟩],
      [⟨.conditional "closed" false, 0, none, [.leaf (.region "notice" .append) 0],
        [⟨.mixin "offer" (some "price, (unit)"), 0, none,
          [.leaf (.inclusion "offer.pug" none) 0], []⟩]⟩]⟩,
    ⟨.loop "busy", 0, none, [.leaf (.code "wait()" false false) 0], []⟩]

theorem parse_printed_basket :
    print ⟨false, false⟩ basket =
        "if items.length\n" ++
        "  each item, i in items\n" ++
        "    li\n" ++
        "      = item.name\n" ++
        "  else\n" ++
        "    | nothing\n" ++
        "else if closed\n" ++
        "  block append notice\n" ++
        "else\n" ++
        "  mixin offer(price, (unit))\n" ++
        "    include offer.pug\n" ++
        "while busy\n" ++
        "  - wait()\n" ∧
      parse (print ⟨false, false⟩ basket) = ⟨numberedAll 1 basket, []⟩ :=
  ⟨by decide +kernel, (parse_printed ⟨false, false⟩ (by decide +kernel)).1⟩

end PugContracts.Template
