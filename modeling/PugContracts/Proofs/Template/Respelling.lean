import PugContracts.Proofs.Template.Order

/-!
# Lines that say the same

Reading a statement looks at the lines that it takes, and at the first line that it leaves: that is
where a raw block ends. Of that line it matters how deep it is and whether it is blank, and of the
lines behind it nothing does. So a line of a template can be replaced by any lines that are read as
the same statement, if these start as deep: the statements before it take the same lines, the
statement itself is the same, and the lines after it are untouched.

`Respells` says that two lists of lines differ by such a replacement. It follows the statements, as
it makes no sense to replace a line in the middle of a raw block.

## Main results

* `Statement.read_leaving`: reading a statement depends on the lines that it takes.
* `Passes.respells`: at a line where a statement starts, other lines can be put in its place.
* `Reads.respell`: lines that say the same are read as the same nodes and faults.
-/

namespace PugContracts.Template

variable {floor : Option Nat} {number indent : Nat} {before : List Node} {text : List Char}
  {line line' : SourceLine} {after after' lines lines' taken left left' : List SourceLine}

/-! ### Reading a statement -/

/-- Two lists of lines start with a line of the same width, and both lines are blank or none is. -/
inductive SameStart : List SourceLine → List SourceLine → Prop
  | cons {line line' : SourceLine} {after after' : List SourceLine}
      (hindent : line'.indent = line.indent) (hblank : line'.isBlank = line.isBlank) :
      SameStart (line :: after) (line' :: after')

theorem SameStart.append (h : SameStart left left') (taken : List SourceLine) :
    SameStart (taken ++ left) (taken ++ left') := by
  cases taken with
  | nil => exact h
  | cons line taken => exact .cons rfl rfl

theorem SameStart.ne_nil (h : SameStart left left') : left ≠ [] := by
  cases h
  exact List.cons_ne_nil _ _

/-- What was read of a statement that leaves other lines. -/
def StatementReading.leaving (reading : StatementReading) (rest : List SourceLine) :
    StatementReading :=
  { reading with rest }

namespace Statement

/-- The lines after what was read of an element. -/
def ElementReading.rest : ElementReading → List SourceLine
  | .done reading => reading.rest
  | .expansion _ _ rest => rest

/-- What was read of an element that leaves other lines. -/
def ElementReading.leaving (rest : List SourceLine) : ElementReading → ElementReading
  | .done reading => .done (reading.leaving rest)
  | .expansion element inner _ => .expansion element inner rest

/-- **A raw block** ends where it ends, whatever comes after its end. -/
theorem raw_leaving (h : afterRaw indent (taken ++ left) = left) (hsame : SameStart left left') :
    afterRaw indent (taken ++ left') = left' ∧
      rawLines indent (taken ++ left') = rawLines indent (taken ++ left) := by
  cases hsame with
  | @cons line line' after after' hindent hblank =>
    have hends : isRaw indent line = false := by
      have hhead := List.head?_dropWhile_not (isRaw indent) (taken ++ line :: after)
      rwa [← afterRaw, h] at hhead
    have hends' : isRaw indent line' = false := by
      rwa [isRaw, hblank, hindent, ← isRaw]
    have hraw : ∀ other ∈ taken, isRaw indent other = true := by
      have hcut := List.takeWhile_append_dropWhile (p := isRaw indent) (l := taken ++ line :: after)
      rw [← afterRaw, h] at hcut
      exact fun other hother => List.mem_takeWhile_imp (List.append_cancel_right hcut ▸ hother)
    constructor
    · rw [afterRaw, List.dropWhile_append_of_pos hraw,
        List.dropWhile_cons_of_neg (Bool.eq_false_iff.mp hends')]
    · rw [rawLines, rawLines, List.takeWhile_append_of_pos hraw, List.takeWhile_append_of_pos hraw,
        List.takeWhile_cons_of_neg (Bool.eq_false_iff.mp hends),
        List.takeWhile_cons_of_neg (Bool.eq_false_iff.mp hends')]

theorem textStatement_leaving (h : (textStatement number text (taken ++ left)).rest = left) :
    textStatement number text (taken ++ left') =
      (textStatement number text (taken ++ left)).leaving left' := by
  obtain rfl := List.append_left_eq_self.mp h
  rfl

/-- A line of code sees the lines of a code block if it has no code itself. -/
theorem codeStatement_leaving (h : (codeStatement number indent text (taken ++ left)).rest = left)
    (hsame : SameStart left left') :
    codeStatement number indent text (taken ++ left') =
      (codeStatement number indent text (taken ++ left)).leaving left' := by
  rw [codeStatement] at h ⊢
  rw [codeStatement]
  split at h
  · next hblank =>
    obtain ⟨hafter, hraw⟩ := raw_leaving h hsame
    rw [if_pos hblank, if_pos hblank, hafter, hraw]
    rfl
  · next hblank =>
    obtain rfl := List.append_left_eq_self.mp h
    rw [if_neg hblank, if_neg hblank]
    rfl

theorem callStatement_leaving (h : (callStatement number text (taken ++ left)).rest = left) :
    callStatement number text (taken ++ left') =
      (callStatement number text (taken ++ left)).leaving left' := by
  rw [callStatement] at h ⊢
  rw [callStatement]
  split at h
  · obtain rfl := List.append_left_eq_self.mp h
    rfl
  · obtain rfl := List.append_left_eq_self.mp h
    rfl

/-- **A statement that is no element** sees no line behind the first one that it leaves. -/
theorem simple?_leaving (h : ∀ reading ∈ simple? number indent text (taken ++ left),
      reading.rest = left) (hsame : SameStart left left') :
    simple? number indent text (taken ++ left') =
      (simple? number indent text (taken ++ left)).map (·.leaving left') := by
  rw [simple?.eq_def] at h ⊢
  rw [simple?.eq_def]
  split at h
  · have hrest := h _ rfl
    rw [commentStatement.eq_def] at hrest
    rw [Option.map_some, commentStatement.eq_def, commentStatement.eq_def,
      (raw_leaving hrest hsame).1]
    rfl
  · exact congrArg some (textStatement_leaving (h _ rfl))
  · exact congrArg some (textStatement_leaving (h _ rfl))
  · exact congrArg some (textStatement_leaving (h _ rfl))
  · exact congrArg some (codeStatement_leaving (h _ rfl) hsame)
  · obtain rfl := List.append_left_eq_self.mp (h _ rfl)
    rfl
  · obtain rfl := List.append_left_eq_self.mp (h _ rfl)
    rfl
  · have hrest := h _ rfl
    rw [Option.map_some, filterStatement, filterStatement, (raw_leaving hrest hsame).1]
    rfl
  · exact congrArg some (callStatement_leaving (h _ rfl))
  · cases hword : ofKeyword? number text with
    | none => rfl
    | some worded =>
      obtain rfl := List.append_left_eq_self.mp (h _ (by rw [hword]; rfl))
      rfl

theorem readTag_of_closed (h : TagHead.ofText text ≠ .error .unclosed) (lines : List SourceLine) :
    readTag text lines = (TagHead.ofText text, lines) := by
  rw [readTag.eq_def]
  split
  · next hopen => exact absurd hopen h
  · rfl

/-- **A tag** that is closed before a line does not see it. -/
theorem readTag_leaving (h : (readTag text (taken ++ left)).2 = left) (hne : left ≠ [])
    (left' : List SourceLine) :
    readTag text (taken ++ left') = ((readTag text (taken ++ left)).1, left') := by
  induction taken generalizing text with
  | nil =>
    obtain ⟨next, after, rfl⟩ := List.exists_cons_of_ne_nil hne
    rw [List.nil_append, List.nil_append] at *
    have hclosed : TagHead.ofText text ≠ .error .unclosed := by
      intro hopen
      have hfewer := length_readTag (text ++ '\n' :: Text.trimEnd next.text) after
      simp only [readTag, hopen] at h
      rw [h, List.length_cons] at hfewer
      omega
    rw [readTag_of_closed hclosed, readTag_of_closed hclosed]
  | cons next taken ih =>
    by_cases hopen : TagHead.ofText text = .error .unclosed
    · simp only [List.cons_append, readTag, hopen] at h ⊢
      exact ih h
    · rw [readTag_of_closed hopen] at h
      cases List.append_left_eq_self.mp h

theorem rest_element_suffix (number indent : Nat) (text : List Char) (lines : List SourceLine) :
    (element number indent text lines).rest <:+ (readTag text lines).2 := by
  rw [element]
  generalize readTag text lines = read
  obtain ⟨result, rest⟩ := read
  cases result with
  | error fault => cases fault <;> exact List.suffix_refl _
  | ok head =>
    dsimp only
    cases head.rest with
    | dotBlock => exact afterRaw_suffix indent rest
    | _ => exact List.suffix_refl _

/-- **An element** sees no line behind the first one that it leaves. -/
theorem element_leaving (h : (element number indent text (taken ++ left)).rest = left)
    (hsame : SameStart left left') :
    element number indent text (taken ++ left') =
      (element number indent text (taken ++ left)).leaving left' := by
  -- the tag takes some of the lines, and the raw block below it those that are left of them
  obtain ⟨raw, hraw⟩ := h ▸ rest_element_suffix number indent text (taken ++ left)
  obtain ⟨tag, htag⟩ := readTag_suffix text (taken ++ left)
  obtain rfl : taken = tag ++ raw := by
    rw [← hraw, ← List.append_assoc] at htag
    exact (List.append_cancel_right htag).symm
  have hsame' := hsame.append raw
  rw [List.append_assoc] at h hraw ⊢
  have hread := readTag_leaving hraw.symm hsame'.ne_nil (raw ++ left')
  rw [List.append_assoc, element, hread]
  rw [element] at h ⊢
  generalize readTag text (tag ++ (raw ++ left)) = read at h hraw
  obtain ⟨result, rest⟩ := read
  obtain rfl : raw ++ left = rest := hraw
  cases result with
  | error fault =>
    cases fault <;> obtain rfl := List.append_left_eq_self.mp h <;> rfl
  | ok head =>
    dsimp only at h ⊢
    cases hrest : head.rest with
    | dotBlock =>
      rw [hrest] at h
      obtain ⟨hafter, hlines⟩ := raw_leaving h hsame
      dsimp only
      rw [hafter, hlines]
      rfl
    | _ =>
      rw [hrest] at h
      obtain rfl := List.append_left_eq_self.mp h
      rfl

/-- **Reading a statement** depends on the lines that it takes, and on how the lines that it leaves
start. -/
theorem read_leaving (h : (read number indent text (taken ++ left)).rest = left)
    (hsame : SameStart left left') :
    read number indent text (taken ++ left') =
      (read number indent text (taken ++ left)).leaving left' := by
  suffices hread : ∀ lines, (read number indent text lines).rest = left →
      ∀ passed, passed ++ left = lines → read number indent text (passed ++ left') =
        (read number indent text lines).leaving left' from hread _ h _ rfl
  clear h
  intro lines
  fun_induction read number indent text lines with
  | case1 text lines reading hsimple =>
    rintro h passed rfl
    have hread := simple?_leaving (fun other hother => by
      rw [hsimple] at hother
      exact Option.some.inj hother ▸ h) hsame
    rw [hsimple] at hread
    exact read_eq_of_simple? hread
  | case2 text lines hsimple reading hdone =>
    rintro h passed rfl
    have hread := simple?_leaving (by rw [hsimple]; simp) hsame
    have helement := element_leaving (by rw [hdone]; exact h) hsame
    rw [hsimple] at hread
    rw [hdone] at helement
    exact read_eq_of_done hread helement
  | case3 text lines hsimple node inner rest hexpands reading ih =>
    rintro h passed rfl
    have hread := simple?_leaving (by rw [hsimple]; simp) hsame
    -- the element takes some of the lines, and the statement after the colon those that are left
    obtain ⟨-, -, tag, htag⟩ := ordered_expansion hexpands
    obtain ⟨-, more, hmore, -⟩ := ordered_read number indent inner rest
    rw [h] at hmore
    obtain rfl : passed = tag ++ more := by
      rw [hmore, ← List.append_assoc] at htag
      exact (List.append_cancel_right htag).symm
    rw [hsimple, List.append_assoc] at hread
    rw [List.append_assoc] at hexpands
    have helement := element_leaving (by rw [hexpands]; exact hmore) (hsame.append more)
    rw [hexpands] at helement
    rw [List.append_assoc, read_eq_of_expansion hread helement, ih h more hmore.symm]
    rfl

end Statement

/-! ### Lines that are replaced -/

/-- The second list says what the first one does. -/
inductive Respells : List SourceLine → List SourceLine → Prop
  /-- Nothing is replaced from here on. -/
  | refl (lines : List SourceLine) : Respells lines lines
  /-- A blank line stays. -/
  | blank {line : SourceLine} {after after' : List SourceLine} (hblank : line.isBlank = true)
      (hafter : Respells after after') : Respells (line :: after) (line :: after')
  /-- A line on which a statement starts says the same, and leaves lines that do. -/
  | statement {line line' : SourceLine} {after after' left : List SourceLine}
      (hnumber : line'.number = line.number) (hindent : line'.indent = line.indent)
      (hblank : line.isBlank = false) (hblank' : line'.isBlank = false)
      (hreading : (Start.mk line' after').reading = (Start.mk line after).reading.leaving left)
      (hleft : Respells (Start.mk line after).reading.rest left) :
      Respells (line :: after) (line' :: after')

theorem Respells.firstIndent_eq (h : Respells lines lines') :
    firstIndent lines' = firstIndent lines := by
  induction h with
  | refl => rfl
  | blank hblank _ ih => simpa [firstIndent, hblank] using ih
  | statement _ hindent hblank hblank' => simp [firstIndent, hblank, hblank', hindent]

theorem endsBlock_congr (hindent : line'.indent = line.indent) :
    endsBlock floor indent line' = endsBlock floor indent line := by
  rw [endsBlock, endsBlock, hindent]

/-- The block below a statement whose lines say the same. -/
theorem exists_block_respell {opened : StatementReading} {block : BlockReading}
    (hleft : Respells opened.rest left)
    (hleaves : opened.statement.takesBlock = false → block = ⟨[], [], opened.rest⟩)
    (htakes : opened.statement.takesBlock = true → ∀ {lines'}, Respells opened.rest lines' →
      ∃ rest, Respells block.rest rest ∧
        Reads (some indent) (firstIndent opened.rest) [] lines' ⟨block.nodes, block.errors, rest⟩) :
    ∃ rest, Respells block.rest rest ∧
      (opened.statement.takesBlock = false →
        (⟨block.nodes, block.errors, rest⟩ : BlockReading) = ⟨[], [], left⟩) ∧
      (opened.statement.takesBlock = true → Reads (some indent) (firstIndent left) [] left
        ⟨block.nodes, block.errors, rest⟩) := by
  cases htaken : opened.statement.takesBlock with
  | true =>
    obtain ⟨rest, hrest, hreads⟩ := htakes htaken hleft
    rw [← hleft.firstIndent_eq] at hreads
    exact ⟨rest, hrest, nofun, fun _ => hreads⟩
  | false =>
    rw [hleaves htaken]
    exact ⟨left, hleft, fun _ => rfl, nofun⟩

/-- **Lines that say the same** are read as the same nodes and faults. -/
theorem Reads.respell {reading : BlockReading} (h : Reads floor indent before lines reading)
    (hrespells : Respells lines lines') :
    ∃ left, Respells reading.rest left ∧
      Reads floor indent before lines' ⟨reading.nodes, reading.errors, left⟩ := by
  induction h generalizing lines' with
  | nil =>
    cases hrespells
    exact ⟨[], .refl [], .nil⟩
  | blank hblank hafter ih =>
    cases hrespells with
    | refl => exact ⟨_, .refl _, .blank hblank hafter⟩
    | blank _ hrespells =>
      obtain ⟨left, hleft, hreads⟩ := ih hrespells
      exact ⟨left, hleft, .blank hblank hreads⟩
    | statement _ _ hnot => simp [hblank] at hnot
  | ends hblank hends =>
    refine ⟨lines', hrespells, ?_⟩
    cases hrespells with
    | refl => exact .ends hblank hends
    | blank hnot => simp [hblank] at hnot
    | statement _ hindent _ hblank' => exact .ends hblank' ((endsBlock_congr hindent).trans hends)
  | @sibling floor indent before line after opened block reading hblank hends hindent hopened htakes
      hleaves hafter ihblock ih =>
    cases hrespells with
    | refl => exact ⟨_, .refl _, .sibling hblank hends hindent hopened htakes hleaves hafter⟩
    | blank hnot => simp [hblank] at hnot
    | @statement _ line' _ after' rest hnumber hwidth _ hblank' hreading hrest =>
      rw [hopened] at hreading hrest
      obtain ⟨middle, hmiddle, hleaves', htakes'⟩ := exists_block_respell hrest hleaves ihblock
      obtain ⟨left, hleft, hreads⟩ := ih hmiddle
      refine ⟨left, hleft, ?_⟩
      rw [← hnumber] at hreads ⊢
      rw [← hwidth] at htakes'
      exact .sibling hblank' ((endsBlock_congr hwidth).trans hends) (hwidth ▸ hindent) hreading
        htakes' hleaves' hreads
  | @stray floor indent before line after opened block more reading hblank hends hindent hopened
      htakes hleaves hmore hafter ihblock ihmore ih =>
    cases hrespells with
    | refl => exact ⟨_, .refl _, .stray hblank hends hindent hopened htakes hleaves hmore hafter⟩
    | blank hnot => simp [hblank] at hnot
    | @statement _ line' _ after' rest hnumber hwidth _ hblank' hreading hrest =>
      rw [hopened] at hreading hrest
      obtain ⟨middle, hmiddle, hleaves', htakes'⟩ := exists_block_respell hrest hleaves ihblock
      obtain ⟨last, hlast, hmore'⟩ := ihmore hmiddle
      obtain ⟨left, hleft, hreads⟩ := ih hlast
      refine ⟨left, hleft, ?_⟩
      rw [← hnumber] at hmore' ⊢
      rw [← hwidth] at hmore' htakes'
      exact .stray hblank' ((endsBlock_congr hwidth).trans hends) (hwidth ▸ hindent) hreading
        htakes' hleaves' hmore' hreads

/-- **Where a statement starts**, other lines can be put that start as deep and say the same. -/
theorem Passes.respells {starts : List Start} {start : Start}
    (h : Passes floor indent lines starts left) (hstart : start ∈ starts) :
    ∃ taken, lines = taken ++ start.line :: start.after ∧
      ∀ replaced, SameStart (start.line :: start.after) replaced →
        Respells (start.line :: start.after) replaced → Respells lines (taken ++ replaced) := by
  induction h with
  | nil => cases hstart
  | ends => cases hstart
  | @blank line _ _ _ hblank _ ih =>
    obtain ⟨taken, rfl, hrespells⟩ := ih hstart
    exact ⟨line :: taken, rfl, fun replaced hsame hspelled =>
      .blank hblank (hrespells replaced hsame hspelled)⟩
  | @statement line after left starts hblank _ _ ih =>
    rcases List.mem_cons.mp hstart with rfl | hstart
    · exact ⟨[], rfl, fun replaced _ hspelled => hspelled⟩
    obtain ⟨passed, hpassed, hrespells⟩ := ih hstart
    obtain ⟨-, own, hown, -⟩ := (Start.mk line after).ordered
    refine ⟨line :: (own ++ passed), ?_, fun replaced hsame hspelled => ?_⟩
    · rw [List.cons_append, List.append_assoc, ← hpassed]
      exact congrArg (line :: ·) hown
    · have hrest : (Statement.read line.number line.indent line.text
          (own ++ (Start.mk line after).reading.rest)).rest =
            (Start.mk line after).reading.rest := by
        rw [← hown]
        rfl
      have hread := Statement.read_leaving hrest (hpassed ▸ hsame.append passed)
      rw [← hown] at hread
      rw [List.cons_append, List.append_assoc]
      exact .statement rfl rfl hblank hblank hread (hrespells replaced hsame hspelled)

end PugContracts.Template
