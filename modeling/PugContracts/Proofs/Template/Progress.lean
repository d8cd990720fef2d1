import PugContracts.Proofs.Template.Branches
import PugContracts.Proofs.Template.TagText

/-!
# Reading goes on

Reading a template is a recursion in which not every call takes a line: a line that is too deep
starts a block of its own at the same place (`siblings_block`), and the statement after a colon may
be longer than the line that it stands on, since a tag can take further lines. `Call` is a routine
at work on the lines that are left, and `Call.Makes` says which calls it makes.

No call gives lines back. A block that is entered at a line deeper than its floor takes this line,
so what follows a stray block is shorter, and within the stray block the line is no longer stray.
The statement after a colon has fewer lines to take from, or less text. Together these are one
measure (`Call.size`), in which the lines count first and the text or the stray line second.

## Main results

* `afterStatement_suffix`, `block_suffix`: no line is given back, and a block takes its first line.
* `Expands.progress`: the statement after a colon is shorter, or has fewer lines.
* `Call.wellFounded`: no call goes on for ever.
* `reading_progresses`: all of this at once.
-/

namespace PugContracts.Template

variable {floor : Option Nat} {number indent : Nat} {before : List Node} {text inner : List Char}
  {line : SourceLine} {lines after left rest : List SourceLine} {starts : List Start}

/-! ### No line is given back -/

theorem Statement.read_suffix (number indent : Nat) (text : List Char) (lines : List SourceLine) :
    (Statement.read number indent text lines).rest <:+ lines := by
  obtain ⟨taken, hlines, -⟩ := (Statement.faithful_read number indent text lines).further
  exact ⟨taken, hlines.symm⟩

theorem Passes.suffix (h : Passes floor indent lines starts left) : left <:+ lines := by
  induction h with
  | nil => exact List.suffix_refl _
  | @blank line after _ _ _ _ ih => exact ih.trans (List.suffix_cons line after)
  | ends => exact List.suffix_refl _
  | @statement line after _ _ _ _ _ ih =>
    have hread := Statement.read_suffix line.number line.indent line.text after
    exact (ih.trans hread).trans (List.suffix_cons line after)

/-- The block below a statement; nothing is read if the statement takes none. -/
def blockBelow (indent : Nat) (opened : StatementReading) : BlockReading :=
  if opened.statement.takesBlock then block (some indent) opened.rest else ⟨[], [], opened.rest⟩

/-- The lines after a statement and the block below it. -/
def afterStatement (number indent : Nat) (text : List Char) (lines : List SourceLine) :
    List SourceLine :=
  (blockBelow indent (Statement.read number indent text lines)).rest

theorem block_rest_suffix (floor : Option Nat) (lines : List SourceLine) :
    (block floor lines).rest <:+ lines := by
  obtain ⟨-, starts, hpasses, -⟩ := (reads_siblings floor (firstIndent lines) [] lines).accounts
  exact hpasses.suffix

/-- **A statement gives no line back**, with the block below it. -/
theorem afterStatement_suffix (number indent : Nat) (text : List Char) (lines : List SourceLine) :
    afterStatement number indent text lines <:+ lines := by
  have hread := Statement.read_suffix number indent text lines
  rw [afterStatement, blockBelow]
  split
  · exact (block_rest_suffix _ _).trans hread
  · exact hread

theorem firstIndent_cons (hblank : line.isBlank = false) (after : List SourceLine) :
    firstIndent (line :: after) = line.indent := by
  rw [firstIndent, List.find?_cons_of_pos (by rw [hblank]; rfl)]
  rfl

/-- A block has the indentation of the line that it is entered at. -/
theorem block_cons (hblank : line.isBlank = false) (floor : Option Nat) (after : List SourceLine) :
    block floor (line :: after) = (siblings floor line.indent [] (line :: after)).val := by
  rw [block, firstIndent_cons hblank]

/-- **A block takes the line that it is entered at**, if that is deeper than the floor. -/
theorem block_suffix {depth : Nat} (hblank : line.isBlank = false) (hdeep : depth < line.indent)
    (after : List SourceLine) : (block (some depth) (line :: after)).rest <:+ after := by
  have hgoes : endsBlock (some depth) line.indent line = false := by
    simp [endsBlock, hdeep]
  obtain ⟨-, starts, hpasses, -⟩ :=
    (reads_siblings (some depth) line.indent [] (line :: after)).accounts
  rw [block_cons hblank]
  generalize (siblings (some depth) line.indent [] (line :: after)).val.rest = left at hpasses ⊢
  cases hpasses with
  | blank hnot => simp [hblank] at hnot
  | ends _ hends => simp [hgoes] at hends
  | statement _ _ hafter =>
    exact hafter.suffix.trans (Statement.read_suffix line.number line.indent line.text after)

/-! ### The statement after a colon -/

/-- The statement `text` is a tag with a colon, and `inner` is the statement after it; the tag
leaves the lines `rest`. -/
def Expands (number indent : Nat) (text : List Char) (lines : List SourceLine) (inner : List Char)
    (rest : List SourceLine) : Prop :=
  Statement.simple? number indent (Text.trimEnd text) lines = none ∧
    ∃ node, Statement.element number indent (Text.trimEnd text) lines = .expansion node inner rest

/-- **The statement after a colon has fewer lines to take from, or is shorter.** -/
theorem Expands.progress (h : Expands number indent text lines inner rest) :
    rest <:+ lines ∧
      Prod.Lex (· < ·) (· < ·) (rest.length, inner.length) (lines.length, text.length) := by
  obtain ⟨-, node, hexpands⟩ := h
  obtain ⟨-, taken, hlines, -⟩ := Statement.exists_expansion hexpands
  refine ⟨⟨taken, hlines.symm⟩, ?_⟩
  rcases Statement.length_expansion hexpands with hfewer | ⟨hsame, hshorter⟩
  · exact .left _ _ hfewer
  · rw [hsame]
    exact .right _ (Nat.lt_of_lt_of_le hshorter (Text.length_trimEnd_le text))

theorem Expands.read_eq (h : Expands number indent text lines inner rest) :
    ∃ node, Statement.read number indent text lines =
      ⟨.nested node (Statement.read number indent inner rest).statement,
        (Statement.read number indent inner rest).errors,
        (Statement.read number indent inner rest).rest⟩ := by
  obtain ⟨hsimple, node, hexpands⟩ := h
  exact ⟨node, Statement.read_eq_of_expansion hsimple hexpands⟩

/-- What stands after a statement with a colon stands after the inner statement. -/
theorem Expands.afterStatement_eq (h : Expands number indent text lines inner rest) :
    afterStatement number indent text lines = afterStatement number indent inner rest := by
  obtain ⟨node, hread⟩ := h.read_eq
  rw [afterStatement, afterStatement, hread]
  rfl

/-! ### Stray lines -/

/-- **A line that is too deep is read by a block of its own**, which is entered at this line, and
then the block goes on after it. -/
theorem siblings_block (hblank : line.isBlank = false) (hends : endsBlock floor indent line = false)
    (hindent : indent < line.indent) (before : List Node) (after : List SourceLine) :
    let stray := block (some indent) (line :: after)
    (siblings floor indent before (line :: after)).val =
      (siblings floor indent (absorb before stray.nodes) stray.rest).val.afterErrors
        (⟨line.number, .unexpectedIndentation⟩ :: stray.errors) := by
  have hgoes : endsBlock (some indent) line.indent line = false := by
    simp [endsBlock, hindent]
  -- Within the stray block the line is a statement like any other.
  have hstray : block (some indent) (line :: after) = _ :=
    (block_cons hblank (some indent) after).trans (siblings_sibling ⟨hblank, hgoes⟩ rfl)
  rw [siblings_stray ⟨hblank, hends⟩ hindent, hstray]
  rfl

/-! ### Calls -/

/-- A routine of the reader at work. Which nodes were read before does not matter here. -/
inductive Call where
  /-- Read the statement `text` and the block below it. -/
  | statement (number indent : Nat) (text : List Char) (lines : List SourceLine)
  /-- Read on in a block of the indentation `indent`. -/
  | siblings (floor : Option Nat) (indent : Nat) (lines : List SourceLine)

/-- The call that reads the block which the next line starts. -/
def Call.block (floor : Option Nat) (lines : List SourceLine) : Call :=
  .siblings floor (firstIndent lines) lines

/-- A call makes another one. -/
inductive Call.Makes : Call → Call → Prop
  /-- A blank line is passed over. -/
  | blank {floor : Option Nat} {indent : Nat} {line : SourceLine} {after : List SourceLine}
      (hblank : line.isBlank = true) :
      Makes (.siblings floor indent (line :: after)) (.siblings floor indent after)
  /-- A statement of the block is read. -/
  | statement {floor : Option Nat} {indent : Nat} {line : SourceLine} {after : List SourceLine}
      (hblank : line.isBlank = false) (hends : endsBlock floor indent line = false)
      (hindent : ¬ indent < line.indent) :
      Makes (.siblings floor indent (line :: after))
        (.statement line.number line.indent line.text after)
  /-- The block goes on after the statement. -/
  | next {floor : Option Nat} {indent : Nat} {line : SourceLine} {after : List SourceLine}
      (hblank : line.isBlank = false) (hends : endsBlock floor indent line = false)
      (hindent : ¬ indent < line.indent) :
      Makes (.siblings floor indent (line :: after))
        (.siblings floor indent (afterStatement line.number line.indent line.text after))
  /-- A line that is too deep starts a block of its own, and is not taken before. -/
  | stray {floor : Option Nat} {indent : Nat} {line : SourceLine} {after : List SourceLine}
      (hblank : line.isBlank = false) (hends : endsBlock floor indent line = false)
      (hindent : indent < line.indent) :
      Makes (.siblings floor indent (line :: after)) (.block (some indent) (line :: after))
  /-- The block goes on after the stray block. -/
  | nextStray {floor : Option Nat} {indent : Nat} {line : SourceLine} {after : List SourceLine}
      (hblank : line.isBlank = false) (hends : endsBlock floor indent line = false)
      (hindent : indent < line.indent) :
      Makes (.siblings floor indent (line :: after))
        (.siblings floor indent (Template.block (some indent) (line :: after)).rest)
  /-- The statement after a colon is read. -/
  | expansion {number indent : Nat} {text inner : List Char} {lines rest : List SourceLine}
      (hexpands : Expands number indent text lines inner rest) :
      Makes (.statement number indent text lines) (.statement number indent inner rest)
  /-- The block below a statement is read. -/
  | below {number indent : Nat} {text : List Char} {lines : List SourceLine}
      {opened : StatementReading} (hopened : Statement.read number indent text lines = opened)
      (htakes : opened.statement.takesBlock = true) :
      Makes (.statement number indent text lines) (.block (some indent) opened.rest)

/-- What a call has before it: first the lines that are left, where a statement counts as half a
line more than what follows it, and then its text, or whether the next line is stray. -/
def Call.size : Call → Nat × Nat
  | .statement _ _ text lines => (2 * lines.length + 1, text.length)
  | .siblings _ indent lines =>
    (2 * lines.length, (lines.head?.any fun line => indent < line.indent).toNat)

/-- **Every call has less before it than the one that makes it.** -/
theorem Call.Makes.size_lt {caller call : Call} (h : Call.Makes caller call) :
    Prod.Lex (· < ·) (· < ·) call.size caller.size := by
  cases h with
  | @blank floor indent line after =>
    refine .left _ _ ?_
    rw [List.length_cons]
    omega
  | @statement floor indent line after =>
    refine .left _ _ ?_
    rw [List.length_cons]
    omega
  | @next floor indent line after =>
    have := (afterStatement_suffix line.number line.indent line.text after).length_le
    refine .left _ _ ?_
    rw [List.length_cons]
    omega
  | @stray floor indent line after hblank hends hindent =>
    rw [Call.block, firstIndent_cons hblank]
    simp only [Call.size]
    refine .right _ ?_
    simp [hindent]
  | @nextStray floor indent line after hblank hends hindent =>
    have := (block_suffix hblank hindent after).length_le
    refine .left _ _ ?_
    rw [List.length_cons]
    omega
  | @expansion number indent text inner lines rest hexpands =>
    have hprogress := hexpands.progress.2
    rw [Prod.lex_def] at hprogress ⊢
    rcases hprogress with hfewer | ⟨hsame, hshorter⟩
    · refine Or.inl ?_
      simp only [Call.size] at *
      omega
    · refine Or.inr ⟨?_, hshorter⟩
      simp only [Call.size] at *
      omega
  | @below number indent text lines opened hopened htakes =>
    have := (Statement.read_suffix number indent text lines).length_le
    rw [hopened] at this
    refine .left _ _ ?_
    omega

theorem Call.wellFounded : WellFounded fun call caller => Call.Makes caller call :=
  Subrelation.wf Call.Makes.size_lt
    (InvImage.wf Call.size (Prod.lex Nat.lt_wfRel Nat.lt_wfRel).wf)

/-! ### All of it -/

/-- A tag that takes a further line may have more text after its colon than there is on its own
line. -/
theorem expands_longer :
    Expands 1 0 "a(".toList [⟨2, 0, "): p text".toList⟩] "p text".toList [] := by
  have hopen : TagHead.ofText "a(".toList = .error .unclosed := by
    show TagHead.ofTail "a".toList ('(' :: []) = _
    rw [TagHead.ofTail_eq_bind, TagPart.readAll_open (.nil _)]
    rfl
  have hclosed : TagHead.ofText "a(\n): p text".toList =
      .ok ⟨"a".toList, [], [], .expansion "p text".toList⟩ := by
    have hinner : Scan.Through (fun _ => true) .start ['\n'] .start :=
      Scan.through_of_all rfl (Int.le_refl 0)
    have hattributes : attributes ['\n'] = .ok [] := by
      rw [attributes, attributesFrom]
      rfl
    have hrest : TagPart.readAll ": p text".toList = .ok ([], ": p text".toList) := by
      rw [TagPart.readAll]
      rfl
    show TagHead.ofTail "a".toList ('(' :: (['\n'] ++ ')' :: ": p text".toList)) = _
    rw [TagHead.ofTail_eq_bind, TagPart.readAll_list hinner, hattributes, hrest]
    rfl
  have hread : Statement.readTag "a(".toList [⟨2, 0, "): p text".toList⟩] =
      (.ok ⟨"a".toList, [], [], .expansion "p text".toList⟩, []) := by
    have hlast : Statement.readTag "a(\n): p text".toList [] =
        (TagHead.ofText "a(\n): p text".toList, []) :=
      (Statement.readTag_cases _ []).resolve_right (Nat.not_lt_zero _)
    rw [hclosed] at hlast
    rw [Statement.readTag.eq_1 _ _ _ hopen]
    exact hlast
  refine ⟨by rfl, Statement.elementNode 1 ⟨"a".toList, [], [], .empty⟩ [], ?_⟩
  show Statement.element 1 0 "a(".toList _ = _
  rw [Statement.element, hread]
  rfl

/-- **Reading goes on everywhere, so it ends on every template.** A statement gives no line back, a
block takes the line that it is entered at if that is deeper than its floor, and the statement after
a colon has fewer lines to take from or less text, although it may be longer than what stands before
it. A stray line is read by a block that is entered at this line. There is no endless sequence of
calls each of which makes the next. -/
theorem reading_progresses :
    (∀ number indent text lines, afterStatement number indent text lines <:+ lines) ∧
      (∀ depth line after, line.isBlank = false → depth < line.indent →
        (block (some depth) (line :: after)).rest <:+ after) ∧
      (∀ number indent text lines inner rest, Expands number indent text lines inner rest →
        rest <:+ lines ∧
          Prod.Lex (· < ·) (· < ·) (rest.length, inner.length) (lines.length, text.length) ∧
          afterStatement number indent text lines = afterStatement number indent inner rest) ∧
      (∃ number indent text lines inner rest, Expands number indent text lines inner rest ∧
        text.length < inner.length) ∧
      (∀ floor indent before line after, line.isBlank = false →
        endsBlock floor indent line = false → indent < line.indent →
        (siblings floor indent before (line :: after)).val =
          (siblings floor indent (absorb before (block (some indent) (line :: after)).nodes)
            (block (some indent) (line :: after)).rest).val.afterErrors
              (⟨line.number, .unexpectedIndentation⟩ ::
                (block (some indent) (line :: after)).errors)) ∧
      WellFounded fun call caller => Call.Makes caller call := by
  refine ⟨afterStatement_suffix, fun _ _ after hblank hdeep => block_suffix hblank hdeep after,
    fun _ _ _ _ _ _ h => ⟨h.progress.1, h.progress.2, h.afterStatement_eq⟩, ?_,
    fun _ _ before _ after hblank hends hindent => siblings_block hblank hends hindent before after,
    Call.wellFounded⟩
  exact ⟨1, 0, _, _, _, _, expands_longer, by decide⟩

/-- A stray line, and a tag over two lines with a statement after its colon. -/
theorem reading_progresses_stray :
    let stray : SourceLine := ⟨2, 4, "b".toList⟩
    let after : List SourceLine := [⟨3, 2, "c".toList⟩]
    let second : SourceLine := ⟨2, 0, "): p text".toList⟩
    (stray.isBlank = false ∧ 0 < stray.indent ∧
        (block (some 0) (stray :: after)).rest <:+ after) ∧
      (Expands 1 0 "a(".toList [second] "p text".toList [] ∧
        Prod.Lex (· < ·) (· < ·) (0, 6) (1, 2)) ∧
      endsBlock none 0 stray = false ∧
        (siblings none 0 [] (stray :: after)).val =
          (siblings none 0 (absorb [] (block (some 0) (stray :: after)).nodes)
            (block (some 0) (stray :: after)).rest).val.afterErrors
              (⟨2, .unexpectedIndentation⟩ :: (block (some 0) (stray :: after)).errors) := by
  intro stray after second
  obtain ⟨-, hblock, hexpands, -, hstray, -⟩ := reading_progresses
  refine ⟨⟨rfl, by decide, hblock 0 stray after rfl (by decide)⟩, ⟨expands_longer, ?_⟩, rfl,
    hstray none 0 [] stray after rfl rfl (by decide)⟩
  exact (hexpands _ _ _ _ _ _ expands_longer).2.1

end PugContracts.Template
