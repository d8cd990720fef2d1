import PugContracts.Proofs.Template.Statement
import PugContracts.Template.Parser

/-!
# The lines of a template

A template is read statement by statement, and `Passes` says which statements these are: blank lines
are passed over, a statement takes its further lines, and a line that is not deep enough ends the
block. `Reads` is the reading itself as a relation, with one constructor for each case of
`siblings`; what holds of all readings is proved by induction on it. By `Reads.accounts` every
statement that is passed can be seen in what is returned: there is a node or a fault with its line,
unless the statement is `Statement.bare` or hidden below a mixin without a name.

The block of the whole template has no floor, but it has an indentation, that of the first line. A
line that is less deep ends it, and there is no block around it that could go on. So the rest of
such a template is not read, and nothing is reported; `parse_accounts_for_lines` says exactly when
that is so.

## Main results

* `reads_siblings`: reading follows the relation.
* `Reads.accounts`: every statement of a block is accounted for.
* `parse_accounts_for_lines`: what becomes of the lines of a template.
-/

namespace PugContracts.Template

variable {floor : Option Nat} {indent : Nat} {before : List Node} {line : SourceLine}
  {lines after left middle : List SourceLine}

/-! ### Statements of a template -/

/-- A statement of a template: the line it starts on and the lines after that. -/
structure Start where
  /-- The line. -/
  line : SourceLine
  /-- The lines after it. -/
  after : List SourceLine

/-- What the statement says. -/
def Start.reading (start : Start) : StatementReading :=
  Statement.read start.line.number start.line.indent start.line.text start.after

/-- Going through the lines of a block and of the blocks in it, from statement to statement, up to
a line that ends the block. -/
inductive Passes (floor : Option Nat) (indent : Nat) :
    List SourceLine → List Start → List SourceLine → Prop
  /-- The lines are used up. -/
  | nil : Passes floor indent [] [] []
  /-- A blank line is passed over. -/
  | blank {line : SourceLine} {after left : List SourceLine} {starts : List Start}
      (hblank : line.isBlank = true) (hafter : Passes floor indent after starts left) :
      Passes floor indent (line :: after) starts left
  /-- The line ends the block. -/
  | ends {line : SourceLine} {after : List SourceLine} (hblank : line.isBlank = false)
      (hends : endsBlock floor indent line = true) :
      Passes floor indent (line :: after) [] (line :: after)
  /-- A statement starts, and what comes next stands on the lines that it leaves. -/
  | statement {line : SourceLine} {after left : List SourceLine} {starts : List Start}
      (hblank : line.isBlank = false) (hends : endsBlock floor indent line = false)
      (hafter : Passes floor indent (Start.mk line after).reading.rest starts left) :
      Passes floor indent (line :: after) (⟨line, after⟩ :: starts) left

/-- Going through an inner block and then on in the outer one is going through the outer one, if
what ends the outer block ends the inner one too. -/
theorem Passes.append {innerFloor : Option Nat} {innerIndent : Nat} {starts more : List Start}
    (hends : ∀ line, endsBlock floor indent line = true →
      endsBlock innerFloor innerIndent line = true)
    (hinner : Passes innerFloor innerIndent lines starts middle)
    (houter : Passes floor indent middle more left) :
    Passes floor indent lines (starts ++ more) left := by
  induction hinner with
  | nil => exact houter
  | blank hblank _ ih => exact .blank hblank (ih houter)
  | ends => exact houter
  | statement hblank hgoes _ ih =>
    refine .statement hblank (Bool.eq_false_iff.mpr fun h => ?_) (ih houter)
    exact Bool.false_ne_true (hgoes.symm.trans (hends _ h))

/-! ### Reading as a relation -/

/-- How a block is read: the cases of `siblings`, one constructor each. -/
inductive Reads : Option Nat → Nat → List Node → List SourceLine → BlockReading → Prop
  /-- The lines are used up. -/
  | nil {floor : Option Nat} {indent : Nat} {before : List Node} :
      Reads floor indent before [] ⟨before, [], []⟩
  /-- A blank line is passed over. -/
  | blank {floor : Option Nat} {indent : Nat} {before : List Node} {line : SourceLine}
      {after : List SourceLine} {reading : BlockReading} (hblank : line.isBlank = true)
      (hafter : Reads floor indent before after reading) :
      Reads floor indent before (line :: after) reading
  /-- The line ends the block. -/
  | ends {floor : Option Nat} {indent : Nat} {before : List Node} {line : SourceLine}
      {after : List SourceLine} (hblank : line.isBlank = false)
      (hends : endsBlock floor indent line = true) :
      Reads floor indent before (line :: after) ⟨before, [], line :: after⟩
  /-- A statement of the block, with the block below it. -/
  | sibling {floor : Option Nat} {indent : Nat} {before : List Node} {line : SourceLine}
      {after : List SourceLine} {opened : StatementReading} {block reading : BlockReading}
      (hblank : line.isBlank = false) (hends : endsBlock floor indent line = false)
      (hindent : ¬ indent < line.indent) (hopened : (Start.mk line after).reading = opened)
      (htakes : opened.statement.takesBlock = true →
        Reads (some line.indent) (firstIndent opened.rest) [] opened.rest block)
      (hleaves : opened.statement.takesBlock = false → block = ⟨[], [], opened.rest⟩)
      (hafter : Reads floor indent (opened.statement.close line.number block.nodes before).1
        block.rest reading) :
      Reads floor indent before (line :: after)
        (reading.afterErrors (opened.errors ++ block.errors ++
          (opened.statement.close line.number block.nodes before).2))
  /-- A statement that is deeper than the block, with the block below it and those beside it. -/
  | stray {floor : Option Nat} {indent : Nat} {before : List Node} {line : SourceLine}
      {after : List SourceLine} {opened : StatementReading} {block more reading : BlockReading}
      (hblank : line.isBlank = false) (hends : endsBlock floor indent line = false)
      (hindent : indent < line.indent) (hopened : (Start.mk line after).reading = opened)
      (htakes : opened.statement.takesBlock = true →
        Reads (some line.indent) (firstIndent opened.rest) [] opened.rest block)
      (hleaves : opened.statement.takesBlock = false → block = ⟨[], [], opened.rest⟩)
      (hmore : Reads (some indent) line.indent
        (opened.statement.close line.number block.nodes []).1 block.rest more)
      (hafter : Reads floor indent (absorb before more.nodes) more.rest reading) :
      Reads floor indent before (line :: after)
        (reading.afterErrors (⟨line.number, .unexpectedIndentation⟩ ::
          (opened.errors ++ block.errors ++
            (opened.statement.close line.number block.nodes []).2) ++ more.errors))

/-- **Reading a block follows the relation.** -/
theorem reads_siblings (floor : Option Nat) (indent : Nat) (before : List Node)
    (lines : List SourceLine) :
    Reads floor indent before lines (siblings floor indent before lines).val := by
  fun_induction siblings floor indent before lines with
  | case1 => exact .nil
  | case2 floor indent before line after hblank reading _ hreading ih =>
    rw [hreading] at ih
    exact .blank hblank ih
  | case3 floor indent before line after hblank hends =>
    exact .ends (Bool.eq_false_iff.mpr hblank) hends
  | case4 floor indent before line after hblank hends stray opened _ hopened block _ hblock nodes
      late hclose errors hstray more _ hmore reading _ hreading ihblock ihmore ih =>
    simp only [dif_pos hstray] at hclose
    rw [hmore] at ihmore
    rw [hreading] at ih
    have hnodes : nodes = (opened.statement.close line.number block.nodes []).1 := by rw [hclose]
    have hlate : late = (opened.statement.close line.number block.nodes []).2 := by rw [hclose]
    subst hnodes hlate
    refine .stray (Bool.eq_false_iff.mpr hblank) (Bool.eq_false_iff.mpr hends) hstray
      (congrArg Subtype.val hopened) (fun htakes => ?_) (fun hleaves => ?_) ihmore ih
    · rw [dif_pos htakes] at hblock
      rwa [hblock] at ihblock
    · rw [dif_neg (by simp [hleaves])] at hblock
      exact (congrArg Subtype.val hblock).symm
  | case5 floor indent before line after hblank hends stray opened _ hopened block _ hblock nodes
      late hclose errors hstray reading _ hreading ihblock ih =>
    simp only [dif_neg hstray] at hclose
    rw [hreading] at ih
    have hnodes : nodes = (opened.statement.close line.number block.nodes before).1 := by
      rw [hclose]
    have hlate : late = (opened.statement.close line.number block.nodes before).2 := by rw [hclose]
    subst hnodes hlate
    refine .sibling (Bool.eq_false_iff.mpr hblank) (Bool.eq_false_iff.mpr hends) hstray
      (congrArg Subtype.val hopened) (fun htakes => ?_) (fun hleaves => ?_) ih
    · rw [dif_pos htakes] at hblock
      rwa [hblock] at ihblock
    · rw [dif_neg (by simp [hleaves])] at hblock
      exact (congrArg Subtype.val hblock).symm

/-- **A block is read in one way only.** -/
theorem Reads.unique {reading other : BlockReading} (h : Reads floor indent before lines reading)
    (hother : Reads floor indent before lines other) : reading = other := by
  induction h generalizing other with
  | nil =>
    cases hother
    rfl
  | blank hblank _ ih =>
    cases hother with
    | blank _ hafter => exact ih hafter
    | ends hnot | sibling hnot | stray hnot => simp [hblank] at hnot
  | ends hblank hends =>
    cases hother with
    | blank hnot => simp [hblank] at hnot
    | ends => rfl
    | sibling _ hnot | stray _ hnot => simp [hends] at hnot
  | @sibling _ _ _ _ _ opened block _ hblank hends hindent hopened _ hleaves _ ihblock ih =>
    cases hother with
    | blank hnot => simp [hblank] at hnot
    | ends _ hnot => simp [hends] at hnot
    | stray _ _ hnot => exact absurd hnot hindent
    | @sibling _ _ _ _ _ opened' block' _ _ _ _ hopened' htakes' hleaves' hafter' =>
      obtain rfl : opened = opened' := hopened.symm.trans hopened'
      obtain rfl : block = block' := by
        cases htaken : opened.statement.takesBlock with
        | true => exact ihblock htaken (htakes' htaken)
        | false => exact (hleaves htaken).trans (hleaves' htaken).symm
      rw [ih hafter']
  | @stray _ _ _ _ _ opened block more _ hblank hends hindent hopened _ hleaves _ _ ihblock ihmore
      ih =>
    cases hother with
    | blank hnot => simp [hblank] at hnot
    | ends _ hnot => simp [hends] at hnot
    | sibling _ _ hnot => exact absurd hindent hnot
    | @stray _ _ _ _ _ opened' block' more' _ _ _ _ hopened' htakes' hleaves' hmore' hafter' =>
      obtain rfl : opened = opened' := hopened.symm.trans hopened'
      obtain rfl : block = block' := by
        cases htaken : opened.statement.takesBlock with
        | true => exact ihblock htaken (htakes' htaken)
        | false => exact (hleaves htaken).trans (hleaves' htaken).symm
      obtain rfl : more = more' := ihmore hmore'
      rw [ih hafter']

/-! ### What becomes of statements -/

theorem mem_linesOf_absorb {n : Nat} {stray : List Node} :
    n ∈ linesOf (absorb before stray) ↔ n ∈ linesOf before ∨ n ∈ linesOf stray := by
  rw [absorb]
  split
  · next last hlast =>
    obtain ⟨others, rfl⟩ := List.getLast?_eq_some_iff.mp hlast
    simp [or_assoc]
  · next hnone => simp [List.getLast?_eq_none_iff.mp hnone]

/-- The line of a statement is that of a node or of a fault, or the statement is bare. -/
def Seen (nodes : List Node) (errors : List SyntaxError) (start : Start) : Prop :=
  start.line.number ∈ linesOf nodes ∨ (∃ error ∈ errors, error.line = start.line.number) ∨
    Text.trimEnd start.line.text ∈ Statement.bare

/-- A statement stands in the block below one that drops its block. -/
def Hidden (starts : List Start) (start : Start) : Prop :=
  ∃ dropping ∈ starts, dropping.reading.statement.drops = true ∧
    ∃ below left, Passes (some dropping.line.indent) (firstIndent dropping.reading.rest)
      dropping.reading.rest below left ∧ start ∈ below

/-- Nodes and faults account for statements. -/
structure Accounts (starts : List Start) (nodes : List Node) (errors : List SyntaxError) :
    Prop where
  /-- The faults found in a statement are reported. -/
  reported : ∀ start ∈ starts, ∀ error ∈ start.reading.errors, error ∈ errors
  /-- Every statement is seen, unless it is hidden. -/
  seen : ∀ start ∈ starts, Seen nodes errors start ∨ Hidden starts start

variable {starts more : List Start} {nodes others : List Node} {errors faults : List SyntaxError}

theorem accounts_nil : Accounts [] nodes errors :=
  ⟨by simp, by simp⟩

theorem Hidden.mono {start : Start} (h : Hidden starts start) (hsub : ∀ s ∈ starts, s ∈ more) :
    Hidden more start := by
  obtain ⟨dropping, hdropping, hdrops⟩ := h
  exact ⟨dropping, hsub dropping hdropping, hdrops⟩

theorem Accounts.mono (h : Accounts starts nodes errors)
    (hnodes : ∀ n ∈ linesOf nodes, n ∈ linesOf others) (herrors : ∀ e ∈ errors, e ∈ faults) :
    Accounts starts others faults := by
  refine ⟨fun start hstart e he => herrors e (h.reported start hstart e he), fun start hstart => ?_⟩
  refine (h.seen start hstart).imp (fun hseen => ?_) id
  rcases hseen with hnode | ⟨e, he, heq⟩ | hbare
  · exact Or.inl (hnodes _ hnode)
  · exact Or.inr (Or.inl ⟨e, herrors e he, heq⟩)
  · exact Or.inr (Or.inr hbare)

theorem Accounts.append (h : Accounts starts nodes errors) (hmore : Accounts more nodes errors) :
    Accounts (starts ++ more) nodes errors := by
  refine ⟨fun start hstart => ?_, fun start hstart => ?_⟩
  · exact (List.mem_append.mp hstart).elim (h.reported start) (hmore.reported start)
  · rcases List.mem_append.mp hstart with hstart | hstart
    · exact (h.seen start hstart).imp id fun hidden =>
        hidden.mono fun _ => List.mem_append_left _
    · exact (hmore.seen start hstart).imp id fun hidden =>
        hidden.mono fun _ => List.mem_append_right _

/-- Reading a statement sees its line. -/
theorem seen_of_close (start : Start) (block before : List Node) (errors : List SyntaxError) :
    let closed := start.reading.statement.close start.line.number block before
    Seen closed.1 (start.reading.errors ++ errors ++ closed.2) start := by
  intro closed
  rcases (Statement.faithful_read start.line.number start.line.indent start.line.text
    start.after).leaves with (hnode | ⟨e, he, heq⟩ | ⟨fault, hdissolved⟩) | hbare
  · exact Or.inl (Statement.mem_linesOf_close.mpr (Or.inr (Or.inl hnode)))
  · exact Or.inr (Or.inl ⟨e, List.mem_append_left _ (List.mem_append_left _ he), heq⟩)
  · refine Or.inr (Or.inl ⟨⟨start.line.number, fault⟩, List.mem_append_right _ ?_, rfl⟩)
    have hlate : closed.2 =
        (Statement.close start.line.number (.dissolved (some fault)) block before).2 := by
      rw [← hdissolved]
      rfl
    rw [hlate]
    exact List.mem_singleton_self _
  · exact Or.inr (Or.inr hbare)

/-- A statement and those in the block below it are accounted for when it is closed. -/
theorem accounts_close {start : Start} {below : List Start} {block : BlockReading}
    (htakes : start.reading.statement.takesBlock = true →
      Passes (some start.line.indent) (firstIndent start.reading.rest) start.reading.rest below
        block.rest)
    (hleaves : start.reading.statement.takesBlock = false → below = [])
    (hblock : Accounts below block.nodes block.errors) (before : List Node) :
    Accounts (start :: below) (start.reading.statement.close start.line.number block.nodes before).1
      (start.reading.errors ++ block.errors ++
        (start.reading.statement.close start.line.number block.nodes before).2) := by
  refine ⟨fun other hother e he => ?_, fun other hother => ?_⟩
  · rcases List.mem_cons.mp hother with rfl | hother
    · exact List.mem_append_left _ (List.mem_append_left _ he)
    · exact List.mem_append_left _ (List.mem_append_right _ (hblock.reported other hother e he))
  · rcases List.mem_cons.mp hother with rfl | hother
    · exact Or.inl (seen_of_close other block.nodes before block.errors)
    have htaken : start.reading.statement.takesBlock = true := by
      by_contra hnot
      rw [hleaves (Bool.eq_false_iff.mpr hnot)] at hother
      simp at hother
    rcases hblock.seen other hother with hseen | hidden
    · cases hdrops : start.reading.statement.drops with
      | true =>
        exact Or.inr ⟨start, List.mem_cons_self, hdrops, below, block.rest, htakes htaken, hother⟩
      | false =>
        refine Or.inl ?_
        rcases hseen with hnode | ⟨e, he, heq⟩ | hbare
        · exact Or.inl (Statement.mem_linesOf_close.mpr (Or.inr (Or.inr ⟨htaken, hdrops, hnode⟩)))
        · exact Or.inr (Or.inl
            ⟨e, List.mem_append_left _ (List.mem_append_right _ he), heq⟩)
        · exact Or.inr (Or.inr hbare)
    · exact Or.inr (hidden.mono fun _ => List.mem_cons_of_mem _)

/-- Where a block of the indentation `indent` ends, so does a deeper one below a statement of it. -/
theorem endsBlock_below (hends : endsBlock floor indent line = false) {other : SourceLine}
    (hother : endsBlock floor indent other = true) (deep : Nat) :
    endsBlock (some line.indent) deep other = true := by
  cases floor <;> simp [endsBlock] at * <;> omega

theorem endsBlock_beside (hends : endsBlock floor indent line = false) {other : SourceLine}
    (hother : endsBlock floor indent other = true) :
    endsBlock (some indent) line.indent other = true := by
  cases floor <;> simp [endsBlock] at * <;> omega

/-- The statements in the block below a statement, if it takes one. Going through them and on in a
block that the statement belongs to is going through that block. -/
theorem exists_below (start : Start) (before : List Node) {block : BlockReading}
    (htakes : start.reading.statement.takesBlock = true →
      ∃ below, Passes (some start.line.indent) (firstIndent start.reading.rest) start.reading.rest
        below block.rest ∧ Accounts below block.nodes block.errors)
    (hleaves : start.reading.statement.takesBlock = false →
      block = ⟨[], [], start.reading.rest⟩)
    (hends : endsBlock floor indent start.line = false) :
    ∃ below, Accounts (start :: below)
        (start.reading.statement.close start.line.number block.nodes before).1
        (start.reading.errors ++ block.errors ++
          (start.reading.statement.close start.line.number block.nodes before).2) ∧
      ∀ more left, Passes floor indent block.rest more left →
        Passes floor indent start.reading.rest (below ++ more) left := by
  cases htaken : start.reading.statement.takesBlock with
  | true =>
    obtain ⟨below, hpasses, haccounts⟩ := htakes htaken
    exact ⟨below, accounts_close (fun _ => hpasses) (by simp [htaken]) haccounts before,
      fun more left hmore => hpasses.append (fun _ h => endsBlock_below hends h _) hmore⟩
  | false =>
    obtain rfl := hleaves htaken
    exact ⟨[], accounts_close (by simp [htaken]) (fun _ => rfl) accounts_nil before, fun _ _ => id⟩

/-- **Every statement of a block that is read is accounted for.** The lines that are left are those
that going through the block leaves. -/
theorem Reads.accounts {reading : BlockReading} (h : Reads floor indent before lines reading) :
    (∀ n ∈ linesOf before, n ∈ linesOf reading.nodes) ∧
      ∃ starts, Passes floor indent lines starts reading.rest ∧
        Accounts starts reading.nodes reading.errors := by
  induction h with
  | nil => exact ⟨fun _ => id, [], .nil, accounts_nil⟩
  | blank hblank _ ih =>
    obtain ⟨hbefore, starts, hpasses, haccounts⟩ := ih
    exact ⟨hbefore, starts, .blank hblank hpasses, haccounts⟩
  | ends hblank hends => exact ⟨fun _ => id, [], .ends hblank hends, accounts_nil⟩
  | @sibling floor indent before line after opened block reading hblank hends _ hopened _ hleaves _
      ihblock ih =>
    subst hopened
    obtain ⟨below, hclosed, hthrough⟩ := exists_below ⟨line, after⟩ before
      (fun htaken => (ihblock htaken).2) hleaves hends
    obtain ⟨hkept, more, hmore, haccounts⟩ := ih
    refine ⟨fun n hn => hkept n (Statement.mem_linesOf_close.mpr (Or.inl hn)),
      ⟨line, after⟩ :: below ++ more, .statement hblank hends (hthrough _ _ hmore), ?_⟩
    exact (hclosed.mono hkept fun _ => List.mem_append_left _).append
      (haccounts.mono (fun _ => id) fun _ => List.mem_append_right _)
  | @stray floor indent before line after opened block more reading hblank hends _ hopened _ hleaves
      _ _ ihblock ihmore ih =>
    subst hopened
    obtain ⟨below, hclosed, hthrough⟩ := exists_below ⟨line, after⟩ []
      (fun htaken => (ihblock htaken).2) hleaves hends
    obtain ⟨hbeside, deep, hdeep, hdeepAccounts⟩ := ihmore
    obtain ⟨hkept, rest, hrest, haccounts⟩ := ih
    have habsorbed : ∀ n ∈ linesOf more.nodes, n ∈ linesOf reading.nodes := fun n hn =>
      hkept n (mem_linesOf_absorb.mpr (Or.inr hn))
    refine ⟨fun n hn => hkept n (mem_linesOf_absorb.mpr (Or.inl hn)),
      ⟨line, after⟩ :: below ++ (deep ++ rest), .statement hblank hends (hthrough _ _
        (hdeep.append (fun _ => endsBlock_beside hends) hrest)), ?_⟩
    refine (hclosed.mono (fun n hn => habsorbed n (hbeside n hn)) fun e he => ?_).append
      ((hdeepAccounts.mono habsorbed fun e he => ?_).append
        (haccounts.mono (fun _ => id) fun _ => List.mem_append_right _))
    · exact List.mem_append_left _ (List.mem_append_left _ (List.mem_cons_of_mem _ he))
    · exact List.mem_append_left _ (List.mem_append_right _ he)

/-! ### Main results -/

/-- The further lines of a statement. -/
def Start.Takes (start : Start) (taken : List SourceLine) : Prop :=
  start.after = taken ++ start.reading.rest ∧
    Statement.Further start.line.indent (Text.trimEnd start.line.text) taken

/-- Every line of a block that is gone through is blank, the line of a statement or a further line
of one, or it is left. -/
theorem Passes.mem (h : Passes floor indent lines starts left) {line : SourceLine}
    (hline : line ∈ lines) :
    line.isBlank = true ∨ line ∈ left ∨
      ∃ start ∈ starts, line = start.line ∨ ∃ taken, start.Takes taken ∧ line ∈ taken := by
  induction h with
  | nil => simp at hline
  | blank hblank _ ih =>
    rcases List.mem_cons.mp hline with rfl | hline
    · exact Or.inl hblank
    · exact ih hline
  | ends => exact Or.inr (Or.inl hline)
  | @statement first after left starts hblank hends hafter ih =>
    rcases List.mem_cons.mp hline with rfl | hline
    · exact Or.inr (Or.inr ⟨_, List.mem_cons_self, Or.inl rfl⟩)
    obtain ⟨taken, htaken, hfurther⟩ :=
      (Statement.faithful_read first.number first.indent first.text after).further
    rw [htaken, List.mem_append] at hline
    rcases hline with hline | hline
    · exact Or.inr (Or.inr ⟨_, List.mem_cons_self, Or.inr ⟨taken, ⟨htaken, hfurther⟩, hline⟩⟩)
    · refine (ih hline).imp id (Or.imp id fun ⟨start, hstart, hof⟩ => ?_)
      exact ⟨start, List.mem_cons_of_mem _ hstart, hof⟩

theorem Passes.ends_of_left (h : Passes floor indent lines starts left) :
    ∀ line ∈ left.head?, line.isBlank = false ∧ endsBlock floor indent line = true := by
  induction h with
  | nil => simp
  | blank _ _ ih => exact ih
  | ends hblank hends => simpa using ⟨hblank, hends⟩
  | statement _ _ _ ih => exact ih

/-- Going through a block leaves nothing exactly if no statement of all that are there ends it. -/
theorem Passes.left_eq_nil_iff {all : List Start} (h : Passes floor indent lines starts left)
    (hall : Passes none 0 lines all []) :
    left = [] ↔ ∀ start ∈ all, endsBlock floor indent start.line = false := by
  induction h generalizing all with
  | nil =>
    cases hall
    simp
  | blank hblank _ ih =>
    cases hall with
    | blank _ hafter => exact ih hafter
    | statement hnot => simp [hblank] at hnot
  | ends hblank hends =>
    cases hall with
    | blank hnot => simp [hblank] at hnot
    | statement => simp [hends]
  | statement hblank hends _ ih =>
    cases hall with
    | blank hnot => simp [hblank] at hnot
    | statement _ _ hafter => simp [ih hafter, hends]

theorem endsBlock_none : endsBlock none indent line = decide (line.indent < indent) := by
  simp [endsBlock]

/-- Going on at every line, all statements are found. -/
theorem exists_passes (lines : List SourceLine) : ∃ all, Passes none 0 lines all [] := by
  obtain ⟨-, all, hall, -⟩ := (reads_siblings none 0 [] lines).accounts
  have hnil : (siblings none 0 [] lines).val.rest = [] := by
    refine List.head?_eq_none_iff.mp (Option.eq_none_iff_forall_not_mem.mpr fun line hline => ?_)
    have hends := (hall.ends_of_left line hline).2
    simp [endsBlock_none] at hends
  rw [hnil] at hall
  exact ⟨all, hall⟩

/-- What reading a template does with its lines. -/
structure LineAccount (lines : List SourceLine) (parsed : ParsedTemplate) (starts all : List Start)
    (left : List SourceLine) : Prop where
  /-- Reading goes from statement to statement, at whatever depth, up to a line that ends the block
  of the whole template. -/
  passes : Passes none (firstIndent lines) lines starts left
  /-- These lines are left when the template has been read. -/
  rest_eq : (block none lines).rest = left
  /-- Going on at every line that is left, all statements would be found. -/
  passes_all : Passes none 0 lines all []
  /-- No line is left exactly if no statement is less deep than the first one. -/
  left_eq_nil_iff : left = [] ↔ ∀ start ∈ all, firstIndent lines ≤ start.line.indent
  /-- The first line that is left is less deep than the first line of the template. -/
  head_left : ∀ line ∈ left.head?, line.isBlank = false ∧ line.indent < firstIndent lines
  /-- Every other line is blank, the line of a statement, or a further line of one: a line of a raw
  block or of a tag that is not closed before. -/
  covered : ∀ line ∈ lines, line.isBlank = true ∨ line ∈ left ∨
    ∃ start ∈ starts, line = start.line ∨ ∃ taken, start.Takes taken ∧ line ∈ taken
  /-- The line of a statement is that of a node or of a fault, unless the statement is bare or
  hidden below a mixin without a name. -/
  seen : ∀ start ∈ starts, Seen parsed.nodes parsed.errors start ∨ Hidden starts start
  /-- A mixin without a name is a fault. -/
  dropping_reported : ∀ start ∈ starts, start.reading.statement.drops = true →
    ⟨start.line.number, .unnamedMixin⟩ ∈ parsed.errors

/-- **What becomes of the lines of a template.** Reading takes line after line, and each line that
is not blank belongs to a statement of which there is a node or a fault, up to the first statement
that is less deep than the first line of the template. -/
theorem parse_accounts_for_lines (source : String) :
    ∃ starts all left,
      LineAccount (SourceLine.ofSource source.toList) (parse source) starts all left := by
  generalize hlines : SourceLine.ofSource source.toList = lines
  obtain ⟨-, starts, hpasses, haccounts⟩ :=
    (reads_siblings none (firstIndent lines) [] lines).accounts
  obtain ⟨all, hall⟩ := exists_passes lines
  have hparse : parse source = ⟨(block none lines).nodes, (block none lines).errors⟩ := by
    rw [parse, hlines]
  refine ⟨starts, all, (block none lines).rest, hpasses, rfl, hall, ?_, fun line hline => ?_,
    fun line hline => hpasses.mem hline, ?_, fun start hstart hdrops => ?_⟩
  · have hleft := hpasses.left_eq_nil_iff hall
    simp only [endsBlock_none, decide_eq_false_iff_not, Nat.not_lt] at hleft
    exact hleft
  · simpa [endsBlock_none] using hpasses.ends_of_left line hline
  · rw [hparse]
    exact haccounts.seen
  · rw [hparse]
    exact haccounts.reported start hstart _
      ((Statement.faithful_read _ _ start.line.text start.after).reported hdrops)

/-- Reading stops at a line that is less deep than the first one. -/
example : (block none (SourceLine.ofSource "  | a\n| b".toList)).rest.length = 1 := by
  cbv

end PugContracts.Template
