import Mathlib.Data.List.TakeWhile
import Mathlib.Data.Option.Basic
import PugContracts.Proofs.Template.Forest
import PugContracts.Template.Statement

/-!
# The lines of statements

A statement starts on one line and may go on over others: a tag goes on until its attributes are
closed, and a raw block belongs to the comment, the filter, the code or the dotted tag above it
(`Further`). Reading a statement therefore gives back the lines after these, and no others.

Of the line itself something is left in almost every case (`Leaves`): a node of that line, or a
fault that names it. The exceptions are `bare`: an empty line of text, code whose statements stand
on the lines below, and a branch, which has no node of its own. Closing a statement keeps the nodes
of the block below it, unless the statement drops its block, as a mixin without a name does
(`mem_linesOf_close`).

## Main results

* `Statement.mem_linesOf_close`: the nodes that closing a statement leads to.
* `Statement.faithful_read`: what reading a statement does with lines.
-/

namespace PugContracts

/-! ### Texts that end with something -/

namespace Text

/-- A text does not end with a blank. -/
def EndsUnblank (cs : List Char) : Prop :=
  ∀ c ∈ cs.getLast?, isBlank c = false

theorem endsUnblank_trimEnd (cs : List Char) : EndsUnblank (trimEnd cs) := by
  intro c hc
  rw [trimEnd, dropTrailing, List.getLast?_reverse] at hc
  have hhead := List.head?_dropWhile_not isBlank cs.reverse
  rwa [Option.mem_def.mp hc] at hhead

theorem EndsUnblank.of_append {after : List Char} (before : List Char)
    (h : EndsUnblank (before ++ after)) :
    EndsUnblank after := by
  intro c hc
  exact h c (by rw [List.getLast?_append, Option.mem_def.mp hc]; rfl)

/-- Such a text is empty if it holds nothing but blanks. -/
theorem EndsUnblank.eq_nil {cs : List Char} (h : EndsUnblank cs)
    (hblank : ∀ c ∈ cs, isBlank c = true) : cs = [] := by
  cases hlast : cs.getLast? with
  | none => exact List.getLast?_eq_none_iff.mp hlast
  | some c =>
    have hc := hblank c (List.mem_of_getLast? hlast)
    rw [h c hlast] at hc
    exact absurd hc Bool.false_ne_true

theorem eq_nil_of_trim_eq_nil {cs : List Char} (h : EndsUnblank cs) (htrim : trim cs = []) :
    cs = [] := by
  refine h.eq_nil fun c hc => ?_
  rw [trim, trimEnd, dropTrailing, List.reverse_eq_nil_iff, List.dropWhile_eq_nil_iff] at htrim
  rw [← List.takeWhile_append_dropWhile (p := isBlank) (l := cs), List.mem_append] at hc
  rcases hc with hc | hc
  · exact List.mem_takeWhile_imp hc
  · exact htrim c (List.mem_reverse.mpr hc)

end Text

namespace Template

variable {n line number indent : Nat} {node : Node} {nodes before branch more block : List Node}
  {text : List Char} {lines : List SourceLine}

/-! ### Lines of a forest -/

/-- The lines that the nodes of a forest were read from. -/
def linesOf (nodes : List Node) : List Nat :=
  (walkAll nodes).map Node.line

@[simp] theorem linesOf_nil : linesOf [] = [] := rfl

@[simp] theorem linesOf_append (before after : List Node) :
    linesOf (before ++ after) = linesOf before ++ linesOf after := by
  simp [linesOf]

@[simp] theorem linesOf_singleton {kind : NodeKind} {file : Option Path}
    {children alternate : List Node} :
    linesOf [⟨kind, line, file, children, alternate⟩] =
      line :: (linesOf children ++ linesOf alternate) := by
  simp [linesOf, walkAll, Node.walk]

@[simp] theorem linesOf_leaf {kind : NodeKind} : linesOf [Node.leaf kind line] = [line] := rfl

/-- Nodes that become children of a node keep their lines, and the node keeps its own. -/
@[simp] theorem mem_linesOf_addChildren :
    n ∈ linesOf [node.addChildren more] ↔ n ∈ linesOf [node] ∨ n ∈ linesOf more := by
  obtain ⟨kind, line, file, children, alternate⟩ := node
  simp only [Node.addChildren, linesOf_singleton, linesOf_append, List.mem_cons, List.mem_append]
  grind

namespace Statement

/-! ### The equations of reading -/

theorem read_eq_of_simple? {reading : StatementReading}
    (h : simple? number indent (Text.trimEnd text) lines = some reading) :
    read number indent text lines = reading := by
  rw [read, h]

theorem read_eq_of_done {reading : StatementReading}
    (hsimple : simple? number indent (Text.trimEnd text) lines = none)
    (h : element number indent (Text.trimEnd text) lines = .done reading) :
    read number indent text lines = reading := by
  rw [read, hsimple]
  dsimp only
  split
  · next hdone => exact ElementReading.done.inj (hdone.symm.trans h)
  · next hexpands => cases hexpands.symm.trans h

theorem read_eq_of_expansion {node : Node} {inner : List Char} {rest : List SourceLine}
    (hsimple : simple? number indent (Text.trimEnd text) lines = none)
    (h : element number indent (Text.trimEnd text) lines = .expansion node inner rest) :
    read number indent text lines =
      ⟨.nested node (read number indent inner rest).statement,
        (read number indent inner rest).errors, (read number indent inner rest).rest⟩ := by
  rw [read, hsimple]
  dsimp only
  split
  · next hdone => cases hdone.symm.trans h
  · next hexpands =>
    obtain ⟨rfl, rfl, rfl⟩ := ElementReading.expansion.inj (hexpands.symm.trans h)
    rfl

/-! ### Closing a statement -/

/-- A branch is attached: to the node itself or, in a chain of conditionals, to the last of them. -/
inductive Attaches (branch : List Node) : Node → Node → Prop
  /-- A conditional that has no branch takes it. -/
  | conditional {test : String} {negated : Bool} {line : Nat} {file : Option Path}
      {children : List Node} :
      Attaches branch ⟨.conditional test negated, line, file, children, []⟩
        ⟨.conditional test negated, line, file, children, branch⟩
  /-- A conditional whose branch is another one hands it on. -/
  | further {test test' : String} {negated negated' : Bool} {line : Nat} {file : Option Path}
      {children : List Node} {last attached : Node}
      (hkind : last.kind = .conditional test' negated') (hlast : Attaches branch last attached) :
      Attaches branch ⟨.conditional test negated, line, file, children, [last]⟩
        ⟨.conditional test negated, line, file, children, [attached]⟩
  /-- A loop that has no branch takes it. -/
  | each {item collection : String} {key : Option String} {line : Nat} {file : Option Path}
      {children : List Node} :
      Attaches branch ⟨.each item key collection, line, file, children, []⟩
        ⟨.each item key collection, line, file, children, branch⟩

theorem attaches_of_attachElse? {node whole : Node} (h : attachElse? branch node = some whole) :
    Attaches branch node whole := by
  induction node using attachElse?.induct generalizing whole with
  | case1 test negated line file children =>
    rw [attachElse?, Option.some.injEq] at h
    exact h ▸ .conditional
  | case2 test negated line file children last _ _ hkind ih =>
    rw [attachElse?, hkind] at h
    obtain ⟨attached, hattached, rfl⟩ := Option.map_eq_some_iff.mp h
    exact .further hkind (ih hattached)
  | case3 test negated line file children last hkind =>
    rw [attachElse?] at h
    split at h
    · exact absurd ‹_› (hkind _ _)
    · cases h
  | case4 item key collection line file children =>
    rw [attachElse?, Option.some.injEq] at h
    exact h ▸ .each
  | case5 node h1 h2 h3 =>
    rw [attachElse?] at h
    · cases h
    all_goals assumption

/-- A branch that is attached comes last. -/
theorem Attaches.linesOf_eq {node whole : Node} (h : Attaches branch node whole) :
    linesOf [whole] = linesOf [node] ++ linesOf branch := by
  induction h with
  | conditional | each => simp
  | further _ _ ih => simp [ih]

theorem linesOf_attachToLast (line : Nat) (branch before : List Node) :
    linesOf (attachToLast line branch before).1 = linesOf before ++ linesOf branch := by
  rw [attachToLast]
  split
  · next last hlast =>
    obtain ⟨node, hnode, hattach⟩ := Option.bind_eq_some_iff.mp hlast
    obtain ⟨others, rfl⟩ := List.getLast?_eq_some_iff.mp hnode
    simp [(attaches_of_attachElse? hattach).linesOf_eq]
  · rw [linesOf_append]

/-- The lines of the nodes that a statement has before its block is read. -/
def ownLines : Statement → List Nat
  | complete nodes => linesOf nodes
  | heading node => linesOf [node]
  | dissolved _ | dropped | elseBranch => []
  | elseIf conditional => linesOf [conditional]
  | nested element inner => linesOf [element] ++ ownLines inner

/-- Whether a statement reads a block and drops it. -/
def drops : Statement → Bool
  | dropped => true
  | nested _ inner => inner.drops
  | _ => false

/-- **Closing a statement loses no node**, except the block below one that drops it. -/
theorem mem_linesOf_close {statement : Statement} :
    n ∈ linesOf (close line statement block before).1 ↔
      n ∈ linesOf before ∨ n ∈ statement.ownLines ∨
        (statement.takesBlock = true ∧ statement.drops = false ∧ n ∈ linesOf block) := by
  induction statement generalizing before with
  | elseBranch => simp [close, ownLines, takesBlock, drops, linesOf_attachToLast]
  | elseIf conditional => simp [close, ownLines, takesBlock, drops, linesOf_attachToLast]
  | nested element inner ih => simp [close, ownLines, takesBlock, drops, ih, or_assoc]
  | _ => simp [close, ownLines, takesBlock, drops]

/-- A fault found when a statement is closed belongs to its line. -/
theorem line_of_mem_close {statement : Statement} {error : SyntaxError}
    (herror : error ∈ (close line statement block before).2) : error.line = line := by
  induction statement generalizing before with
  | complete | heading | dropped => simp [close] at herror
  | dissolved fault? =>
    obtain ⟨fault, -, rfl⟩ := List.mem_map.mp herror
    rfl
  | elseBranch | elseIf =>
    rw [close, attachToLast] at herror
    split at herror
    · simp at herror
    · rw [List.mem_singleton.mp herror]
  | nested element inner ih => exact ih herror

/-! ### Further lines -/

/-- The statements that a raw block belongs to: comments, filters, code without a statement on its
own line, and tags that end with a dot. -/
inductive OpensRaw : List Char → Prop
  | comment {rest : List Char} : OpensRaw ('/' :: '/' :: rest)
  | filter {rest : List Char} : OpensRaw (':' :: rest)
  | code {code : List Char} (hcode : Text.isAllBlank code = true) : OpensRaw ('-' :: code)
  | tag {text : List Char} {head : TagHead} (hhead : TagHead.ofText text = .ok head)
      (hrest : head.rest = .dotBlock) : OpensRaw text

/-- The lines that a statement takes besides its own: those over which a tag in it is not closed,
and then those of a raw block. -/
inductive Further (indent : Nat) : List Char → List SourceLine → Prop
  /-- No line. -/
  | nil {text : List Char} : Further indent text []
  /-- A raw block. -/
  | raw {text : List Char} {lines : List SourceLine} (hopens : OpensRaw text)
      (hraw : ∀ line ∈ lines, isRaw indent line = true) : Further indent text lines
  /-- A line after a tag that is not closed yet. -/
  | openTag {text : List Char} {next : SourceLine} {lines : List SourceLine}
      (hopen : TagHead.ofText text = .error .unclosed)
      (hlines : Further indent (text ++ '\n' :: Text.trimEnd next.text) lines) :
      Further indent text (next :: lines)
  /-- The lines of the statement after the colon of a tag. -/
  | expansion {text inner : List Char} {head : TagHead} {lines : List SourceLine}
      (hhead : TagHead.ofText text = .ok head) (hrest : head.rest = .expansion inner)
      (hlines : Further indent (Text.trimEnd inner) lines) : Further indent text lines

theorem further_raw (hopens : OpensRaw text) (lines : List SourceLine) :
    ∃ taken, lines = taken ++ afterRaw indent lines ∧ Further indent text taken :=
  ⟨lines.takeWhile (isRaw indent), List.takeWhile_append_dropWhile.symm,
    .raw hopens fun _ => List.mem_takeWhile_imp⟩

/-- A tag is read alike from other lines with the same texts. -/
theorem readTag_map {g : SourceLine → SourceLine} (hg : ∀ line, (g line).text = line.text)
    (text : List Char) (lines : List SourceLine) :
    readTag text (lines.map g) = ((readTag text lines).1, (readTag text lines).2.map g) := by
  induction lines generalizing text with
  | nil =>
    cases htag : TagHead.ofText text with
    | ok head => simp [readTag, htag]
    | error fault => cases fault <;> simp [readTag, htag]
  | cons next rest ih =>
    cases htag : TagHead.ofText text with
    | ok head => simp [readTag, htag]
    | error fault =>
      cases fault with
      | unclosed =>
        simp only [List.map_cons, readTag, htag, hg]
        exact ih _
      | invalid fault => simp [readTag, htag]

/-- A tag takes the lines over which it is not closed; what it says is what these and its own line
say together, and what that takes further is taken by the tag. -/
theorem exists_readTag (indent : Nat) (text : List Char) (lines : List SourceLine) :
    ∃ whole taken, lines = taken ++ (readTag text lines).2 ∧
      (readTag text lines).1 = TagHead.ofText whole ∧
      ∀ more, Further indent whole more → Further indent text (taken ++ more) := by
  induction text, lines using readTag.induct with
  | case1 text next rest hopen ih =>
    obtain ⟨whole, taken, hlines, hhead, hmore⟩ := ih
    rw [readTag]
    swap
    · exact hopen
    exact ⟨whole, next :: taken, congrArg (next :: ·) hlines, hhead, fun more hfurther =>
      .openTag hopen (hmore more hfurther)⟩
  | case2 text lines hclosed =>
    have hread : readTag text lines = (TagHead.ofText text, lines) := by
      rw [readTag.eq_def]
      split
      · exact absurd rfl (hclosed _ _ ‹_›)
      · rfl
    exact ⟨text, [], by rw [hread]; rfl, by rw [hread], fun _ hfurther => hfurther⟩

/-! ### Texts -/

theorem consLiteral_cons_ne_nil {literal : List Char} {segment : Segment}
    {segments : List Segment} :
    Segment.consLiteral literal (segment :: segments) ≠ [] := by
  rw [Segment.consLiteral]
  split <;> simp

/-- A text that is not empty has a piece. -/
theorem splitFrom_ne_nil {offset : Nat} {literal text : List Char}
    (hnonempty : literal ≠ [] ∨ text ≠ []) : Segment.splitFrom offset literal text ≠ .ok [] := by
  induction offset, literal, text using Segment.splitFrom.induct with
  | case1 offset literal =>
    have hliteral : literal ≠ [] := by simpa using hnonempty
    simp [Segment.splitFrom, Segment.consLiteral, hliteral]
  | case2 offset literal marker rest hmarker ih =>
    rw [Segment.splitFrom, if_pos hmarker]
    exact ih (Or.inl (by simp))
  | case3 offset literal marker rest hmarker ih =>
    rw [Segment.splitFrom, if_neg hmarker]
    exact ih (Or.inl (by simp))
  | case4 offset literal marker rest hescaped hmarker hgroup =>
    rw [Segment.splitFrom.eq_3 _ _ _ _ hescaped, if_pos hmarker]
    split <;> simp_all
  | case5 offset literal marker rest hescaped hmarker value tail hgroup ih =>
    rw [Segment.splitFrom.eq_3 _ _ _ _ hescaped, if_pos hmarker]
    split
    · simp
    · next value tail hfound =>
      cases Segment.splitFrom (offset + 3 + Text.byteLength value) [] tail with
      | error => simp [Except.map]
      | ok segments => simp [Except.map, consLiteral_cons_ne_nil]
  | case6 offset literal marker rest hescaped hmarker ih =>
    rw [Segment.splitFrom.eq_3 _ _ _ _ hescaped, if_neg hmarker]
    exact ih (Or.inl (by simp))
  | case7 offset literal c rest hescaped hmarked ih =>
    rw [Segment.splitFrom.eq_4 _ _ _ _ hescaped hmarked]
    exact ih (Or.inl (by simp))

theorem linesOf_segments (segments : List Segment) :
    linesOf (segments.map (segmentNode number)) = segments.map fun _ => number := by
  induction segments with
  | nil => rfl
  | cons segment rest ih =>
    rw [List.map_cons, ← List.singleton_append, linesOf_append, ih]
    cases segment <;> rfl

/-- The nodes of a text are on its line. -/
theorem linesOf_textNodes : ∀ n ∈ linesOf (textNodes number text).1, n = number := by
  rw [textNodes]
  split <;> simp [linesOf_segments]

theorem mem_linesOf_textNodes (htext : text ≠ []) : number ∈ linesOf (textNodes number text).1 := by
  rw [textNodes]
  split
  · next segments hsplit =>
    cases segments with
    | nil => exact absurd hsplit (splitFrom_ne_nil (Or.inr htext))
    | cons segment rest =>
      rw [linesOf_segments]
      exact List.mem_cons_self
  · simp

theorem line_of_mem_textNodes {error : SyntaxError} (herror : error ∈ (textNodes number text).2) :
    error.line = number := by
  rw [textNodes] at herror
  split at herror
  · simp at herror
  · rw [List.mem_singleton.mp herror]

theorem linesOf_textBlock : ∀ n ∈ linesOf (textBlock lines).1, ∃ line ∈ lines, line.number = n := by
  induction lines with
  | nil => simp [textBlock]
  | cons line rest ih =>
    intro n hn
    simp only [textBlock, List.map_cons, List.flatMap_cons, linesOf_append, List.mem_append] at hn
    rcases hn with hn | hn
    · exact ⟨line, List.mem_cons_self, (linesOf_textNodes n hn).symm⟩
    · obtain ⟨other, hother, heq⟩ := ih n hn
      exact ⟨other, List.mem_cons_of_mem _ hother, heq⟩

theorem line_of_mem_textBlock {error : SyntaxError} (herror : error ∈ (textBlock lines).2) :
    ∃ line ∈ lines, line.number = error.line := by
  obtain ⟨read, hread, herror⟩ := List.mem_flatMap.mp herror
  obtain ⟨line, hline, rfl⟩ := List.mem_map.mp hread
  exact ⟨line, hline, (line_of_mem_textNodes herror).symm⟩

theorem exists_of_mem_rawLines {line : SourceLine} (hline : line ∈ rawLines indent lines) :
    ∃ other ∈ lines, other.number = line.number := by
  obtain ⟨other, hother, rfl⟩ := List.mem_map.mp hline
  exact ⟨other, (List.takeWhile_sublist _).subset (List.mem_filter.mp hother).1, rfl⟩

/-! ### Reading a statement -/

/-- The statements that may say nothing of their own line: an empty line of text, code whose
statements are all below it, and a branch, which belongs to the statement before. -/
def bare : List (List Char) :=
  ["|".toList, "-".toList, "else".toList]

/-- A statement leaves a trace of its line: a node of that line, or a fault that is reported when it
is read or when it is closed. -/
def Leaves (number : Nat) (statement : Statement) (errors : List SyntaxError) : Prop :=
  number ∈ statement.ownLines ∨ (∃ error ∈ errors, error.line = number) ∨
    ∃ fault, statement = .dissolved (some fault)

theorem append_of_afterKeyword? {word : String} {extra rest : List Char}
    (h : afterKeyword? word extra text = some rest) : text = word.toList ++ rest := by
  rw [afterKeyword?] at h
  split at h
  · next hafter =>
    rw [Option.some.injEq] at h
    rw [Text.afterPrefix?_eq_some_iff.mp hafter, h]
  · next hafter =>
    split at h
    · rw [Option.some.injEq] at h
      rw [Text.afterPrefix?_eq_some_iff.mp hafter, h]
    · simp at h
  · simp at h

/-- What reading a statement does with lines. -/
structure Faithful (number indent : Nat) (text : List Char) (lines : List SourceLine)
    (reading : StatementReading) : Prop where
  /-- The lines that are taken are further lines of the statement. -/
  further : ∃ taken, lines = taken ++ reading.rest ∧ Further indent text taken
  /-- The nodes are on the line of the statement or on one of those that follow. -/
  line_of_node : ∀ n ∈ reading.statement.ownLines, n = number ∨ ∃ line ∈ lines, line.number = n
  /-- So are the faults. -/
  line_of_error : ∀ error ∈ reading.errors,
    error.line = number ∨ ∃ line ∈ lines, line.number = error.line
  /-- The statement leaves a trace, unless it is bare. -/
  leaves : Leaves number reading.statement reading.errors ∨ text ∈ bare
  /-- A statement that drops its block is reported. -/
  reported : reading.statement.drops = true → ⟨number, .unnamedMixin⟩ ∈ reading.errors

theorem takesContent_of_loopHeader? {header : List Char} {kind : NodeKind}
    (h : loopHeader? header = some kind) : kind.takesContent = true := by
  simp only [loopHeader?, Option.bind_eq_bind, Option.bind_eq_some_iff] at h
  obtain ⟨_, _, _, _, _, _, h⟩ := h
  split at h
  all_goals simp only [Option.bind_eq_some_iff, Option.pure_def, Option.some.injEq,
    reduceCtorEq] at h
  · obtain ⟨_, _, rfl⟩ := h
    rfl
  · obtain ⟨_, _, _, _, rfl⟩ := h
    rfl

/-- What a text that starts with a word of its own can say, with its faults. -/
inductive Says (number : Nat) (text : List Char) : Worded → Prop
  /-- A node that takes no block. -/
  | leaf {kind : NodeKind} : Says number text (.complete [.leaf kind number], [])
  /-- A directive that names no file. -/
  | untargeted {fault : Fault} : Says number text (.complete [], [fault])
  /-- A node that the block below is given to. -/
  | heading {kind : NodeKind} {faults : List Fault} (hkind : kind.takesContent = true) :
      Says number text (.heading (.leaf kind number), faults)
  /-- A mixin without a name. -/
  | unnamed : Says number text (.dropped, [.unnamedMixin])
  /-- A loop whose header cannot be read. -/
  | malformed {fault : Fault} : Says number text (.dissolved (some fault), [])
  /-- A branch with a condition. -/
  | elseIf {test : String} :
      Says number text (.elseIf (.leaf (.conditional test false) number), [])
  /-- A branch; what else stands on its line is a fault. -/
  | otherwise {rest : List Char} {faults : List Fault} (htext : text = "else".toList ++ rest)
      (hfaults : Text.trim rest ≠ [] → faults ≠ []) : Says number text (.elseBranch, faults)

theorem says_parentDirective (keyword : String) (rest : List Char) :
    Says number text (parentDirective number keyword rest) := by
  rw [parentDirective]
  split
  · exact .untargeted
  · exact .leaf

theorem says_includeDirective (rest : List Char) :
    Says number text (includeDirective number rest) := by
  rw [includeDirective.eq_def]
  dsimp only
  split
  · exact .untargeted
  · exact .leaf

theorem says_shortRegion? {mode : RegionMode} {worded : Worded}
    (h : shortRegion? number mode text = some worded) : Says number text worded := by
  rw [shortRegion?] at h
  split at h
  · cases h
  · cases h
  · rw [Option.some.injEq] at h
    exact h ▸ .heading rfl

theorem says_mixinStatement (rest : List Char) :
    Says number text (mixinStatement number rest) := by
  rw [mixinStatement]
  split
  · exact .unnamed
  · exact .heading rfl

theorem says_loopStatement (keyword : String) (rest : List Char) :
    Says number text (loopStatement number keyword rest) := by
  rw [loopStatement]
  split
  · exact .malformed
  · next hkind => exact .heading (takesContent_of_loopHeader? hkind)

theorem says_elseStatement {rest : List Char} (h : afterKeyword? "else" [] text = some rest) :
    Says number text (elseStatement number rest) := by
  rw [elseStatement]
  split
  · exact .elseIf
  · exact .otherwise (append_of_afterKeyword? h) fun hne => by simp [hne]

/-- **What a text says that starts with a word of its own.** -/
theorem says_ofKeyword? : ∀ worded ∈ ofKeyword? number text, Says number text worded := by
  have hmap : ∀ {word : Option (List Char)} {statement : List Char → Worded},
      (∀ rest ∈ word, Says number text (statement rest)) →
      ∀ worded ∈ word.map statement, Says number text worded := by
    rintro word statement h worded hworded
    obtain ⟨rest, hrest, rfl⟩ := Option.map_eq_some_iff.mp hworded
    exact h rest hrest
  have horElse : ∀ {first second : Option Worded}, (∀ worded ∈ first, Says number text worded) →
      (∀ worded ∈ second, Says number text worded) →
      ∀ worded ∈ (first <|> second), Says number text worded := by
    intro first second hfirst hsecond
    cases first with
    | none => exact hsecond
    | some => exact hfirst
  exact
    horElse (hmap fun _ _ => .leaf) <|
    horElse (hmap fun _ _ => says_parentDirective _ _) <|
    horElse (hmap fun _ _ => says_parentDirective _ _) <|
    horElse (hmap fun _ _ => says_includeDirective _) <|
    horElse (hmap fun _ _ => .heading rfl) <|
    horElse (fun _ => says_shortRegion?) <|
    horElse (fun _ => says_shortRegion?) <|
    horElse (hmap fun _ _ => says_mixinStatement _) <|
    horElse (hmap fun _ _ => says_loopStatement _ _) <|
    horElse (hmap fun _ _ => says_loopStatement _ _) <|
    horElse (hmap fun _ _ => .heading rfl) <|
    horElse (hmap fun _ _ => .heading rfl) <|
    horElse (hmap fun _ _ => .heading rfl) <|
    hmap fun _ => says_elseStatement

/-- A statement found by its first word is on its line, and leaves a trace there. -/
structure WordedFaithful (number : Nat) (text : List Char) (worded : Worded) : Prop where
  /-- The nodes are on the line. -/
  line_of_node : ∀ n ∈ worded.1.ownLines, n = number
  /-- There is a node, a fault, or a branch and nothing else. -/
  leaves : number ∈ worded.1.ownLines ∨ worded.2 ≠ [] ∨
    (∃ fault, worded.1 = .dissolved (some fault)) ∨ text ∈ bare
  /-- A statement that drops its block is a fault. -/
  reported : worded.1.drops = true → .unnamedMixin ∈ worded.2

theorem Says.faithful {worded : Worded} (h : Says number text worded)
    (htext : Text.EndsUnblank text) : WordedFaithful number text worded := by
  cases h with
  | leaf => exact ⟨by simp [ownLines], Or.inl (by simp [ownLines]), by simp [drops]⟩
  | untargeted => exact ⟨by simp [ownLines], Or.inr (Or.inl (by simp)), by simp [drops]⟩
  | heading => exact ⟨by simp [ownLines], Or.inl (by simp [ownLines]), by simp [drops]⟩
  | unnamed => exact ⟨by simp [ownLines], Or.inr (Or.inl (by simp)), by simp⟩
  | malformed =>
    exact ⟨by simp [ownLines], Or.inr (Or.inr (Or.inl ⟨_, rfl⟩)), by simp [drops]⟩
  | elseIf => exact ⟨by simp [ownLines], Or.inl (by simp [ownLines]), by simp [drops]⟩
  | @otherwise rest faults heq hfaults =>
    refine ⟨by simp [ownLines], Or.inr ?_, by simp [drops]⟩
    by_cases hnothing : Text.trim rest = []
    · have hnil : rest = [] := Text.eq_nil_of_trim_eq_nil (.of_append _ (heq ▸ htext)) hnothing
      refine Or.inr (Or.inr ?_)
      rw [heq, hnil]
      decide
    · exact Or.inl (hfaults hnothing)

/-- A statement that takes no further lines, with nodes and faults on its own line. -/
theorem faithful_of_own {statement : Statement} {errors : List SyntaxError}
    (hnodes : ∀ n ∈ statement.ownLines, n = number)
    (herrors : ∀ error ∈ errors, error.line = number)
    (hleaves : Leaves number statement errors ∨ text ∈ bare)
    (hreported : statement.drops = true → ⟨number, .unnamedMixin⟩ ∈ errors) :
    Faithful number indent text lines ⟨statement, errors, lines⟩ :=
  ⟨⟨[], rfl, .nil⟩, fun n hn => Or.inl (hnodes n hn),
    fun error herror => Or.inl (herrors error herror), hleaves, hreported⟩

theorem faithful_textStatement {piped : List Char} (hpiped : piped ≠ [] ∨ text ∈ bare) :
    Faithful number indent text lines (textStatement number piped lines) :=
  faithful_of_own linesOf_textNodes (fun _ => line_of_mem_textNodes)
    (hpiped.imp (fun hpiped => Or.inl (mem_linesOf_textNodes hpiped)) id) (by simp [drops])

theorem linesOf_plainCode {lines : List SourceLine} :
    linesOf (lines.map fun line => plainCode line.number line.text) =
      lines.map SourceLine.number := by
  induction lines with
  | nil => rfl
  | cons line rest ih =>
    rw [List.map_cons, ← List.singleton_append, linesOf_append, ih]
    rfl

theorem faithful_codeStatement {code : List Char} (hcode : Text.EndsUnblank ('-' :: code)) :
    Faithful number indent ('-' :: code) lines (codeStatement number indent code lines) := by
  rw [codeStatement]
  split
  · next hblank =>
    refine ⟨further_raw (.code hblank) lines, fun n hn => Or.inr ?_, by simp, Or.inr ?_,
      by simp [drops]⟩
    · rw [ownLines, linesOf_plainCode] at hn
      obtain ⟨line, hline, rfl⟩ := List.mem_map.mp hn
      exact exists_of_mem_rawLines hline
    · have hnil : code = [] :=
        (hcode.of_append ['-']).eq_nil (List.all_eq_true.mp hblank)
      rw [hnil]
      decide
  · exact faithful_of_own (by simp [ownLines, plainCode]) (by simp)
      (Or.inl (Or.inl (by simp [ownLines, plainCode]))) (by simp [drops])

/-- A node and a raw block that is not read. -/
theorem faithful_rawLeaf {kind : NodeKind} (hopens : OpensRaw text) :
    Faithful number indent text lines
      ⟨.complete [.leaf kind number], [], afterRaw indent lines⟩ :=
  ⟨further_raw hopens lines, by simp [ownLines], by simp, Or.inl (Or.inl (by simp [ownLines])),
    by simp [drops]⟩

theorem faithful_leaf {kind : NodeKind} :
    Faithful number indent text lines ⟨.complete [.leaf kind number], [], lines⟩ :=
  faithful_of_own (by simp [ownLines]) (by simp) (Or.inl (Or.inl (by simp [ownLines])))
    (by simp [drops])

theorem faithful_callStatement {call : List Char} :
    Faithful number indent text lines (callStatement number call lines) := by
  rw [callStatement]
  split
  · exact faithful_of_own (by simp [ownLines]) (by simp)
      (Or.inl (Or.inr (Or.inl ⟨_, List.mem_singleton_self _, rfl⟩))) (by simp [drops])
  · dsimp only
    split
    · exact faithful_of_own (by simp [ownLines]) (by simp) (Or.inl (Or.inl (by simp [ownLines])))
        (by simp [drops])
    · refine faithful_of_own ?_ (fun _ => line_of_mem_textNodes)
        (Or.inl (Or.inl (by simp [ownLines]))) (by simp [drops])
      intro n hn
      rw [ownLines, mem_linesOf_addChildren, linesOf_leaf, List.mem_singleton] at hn
      exact hn.elim id (linesOf_textNodes n)

theorem faithful_simple? {reading : StatementReading} (htext : Text.EndsUnblank text)
    (h : simple? number indent text lines = some reading) :
    Faithful number indent text lines reading := by
  unfold simple? at h
  split at h
  case h_10 =>
    obtain ⟨⟨statement, faults⟩, hworded, rfl⟩ := Option.map_eq_some_iff.mp h
    have hfaithful := (says_ofKeyword? _ hworded).faithful htext
    refine faithful_of_own hfaithful.line_of_node (by simp) ?_ fun hdrops =>
      List.mem_map_of_mem (hfaithful.reported hdrops)
    rcases hfaithful.leaves with hnode | hfault | hdissolved | hbare
    · exact Or.inl (Or.inl hnode)
    · obtain ⟨fault, hfault⟩ := List.exists_mem_of_ne_nil _ hfault
      exact Or.inl (Or.inr (Or.inl ⟨_, List.mem_map_of_mem hfault, rfl⟩))
    · exact Or.inl (Or.inr (Or.inr hdissolved))
    · exact Or.inr hbare
  all_goals
    rw [Option.some.injEq] at h
    subst h
  case h_1 comment =>
    rw [commentStatement.eq_def]
    exact faithful_rawLeaf .comment
  case h_2 piped =>
    refine faithful_textStatement (Or.inl fun hnil => ?_)
    subst hnil
    exact absurd (htext ' ' rfl) (by decide)
  case h_3 piped _ =>
    refine faithful_textStatement ?_
    cases piped with
    | nil => exact Or.inr (by decide)
    | cons => exact Or.inl (List.cons_ne_nil _ _)
  case h_4 => exact faithful_textStatement (Or.inl (List.cons_ne_nil _ _))
  case h_5 => exact faithful_codeStatement htext
  case h_6 => exact faithful_leaf
  case h_7 => exact faithful_leaf
  case h_8 => exact faithful_rawLeaf .filter
  case h_9 => exact faithful_callStatement

/-- An element has its own line and those of its content. -/
theorem mem_linesOf_elementNode {head : TagHead} {children : List Node} :
    n ∈ linesOf [elementNode number head children] ↔ n = number ∨ n ∈ linesOf children := by
  rw [elementNode, mem_linesOf_addChildren, linesOf_leaf, List.mem_singleton]

/-- An element that takes lines for its tag alone, with content on its own line. -/
theorem faithful_elementNode {statement : Statement} {head : TagHead} {children : List Node}
    {errors : List SyntaxError} {rest : List SourceLine}
    (hown : statement.ownLines = linesOf [elementNode number head children])
    (htaken : ∃ taken, lines = taken ++ rest ∧ Further indent text taken)
    (hchildren : ∀ n ∈ linesOf children, n = number)
    (herrors : ∀ error ∈ errors, error.line = number) (hdrops : statement.drops = false) :
    Faithful number indent text lines ⟨statement, errors, rest⟩ := by
  have hmem : ∀ {n}, n ∈ statement.ownLines ↔ n = number ∨ n ∈ linesOf children := by
    rw [hown]
    exact mem_linesOf_elementNode
  exact ⟨htaken, fun n hn => Or.inl ((hmem.mp hn).elim id (hchildren n)),
    fun error herror => Or.inl (herrors error herror), Or.inl (Or.inl (hmem.mpr (Or.inl rfl))),
    by simp [hdrops]⟩

/-- A tag that cannot be read is reported. -/
theorem faithful_of_reported {statement : Statement} {fault : Fault} {rest : List SourceLine}
    (hown : statement.ownLines = []) (hdrops : statement.drops = false)
    (htaken : ∃ taken, lines = taken ++ rest ∧ Further indent text taken) :
    Faithful number indent text lines ⟨statement, [⟨number, fault⟩], rest⟩ :=
  ⟨htaken, by simp [hown], by simp, Or.inl (Or.inr (Or.inl ⟨_, List.mem_singleton_self _, rfl⟩)),
    by simp [hdrops]⟩

/-- A tag with the raw block below it. -/
theorem faithful_dotBlock {head : TagHead} {taken rest : List SourceLine}
    (hlines : lines = taken ++ rest)
    (hraw : ∀ raw, (∀ line ∈ raw, isRaw indent line = true) → Further indent text (taken ++ raw)) :
    Faithful number indent text lines
      ⟨.complete [elementNode number head (textBlock (rawLines indent rest)).1],
        (textBlock (rawLines indent rest)).2, afterRaw indent rest⟩ := by
  have hfollows : ∀ line ∈ rawLines indent rest, ∃ other ∈ lines, other.number = line.number := by
    intro line hline
    obtain ⟨other, hother, heq⟩ := exists_of_mem_rawLines hline
    exact ⟨other, hlines ▸ List.mem_append_right _ hother, heq⟩
  refine ⟨⟨taken ++ rest.takeWhile (isRaw indent), ?_, hraw _ fun _ => List.mem_takeWhile_imp⟩,
    fun n hn => ?_, fun error herror => Or.inr ?_, Or.inl (Or.inl ?_), by simp [drops]⟩
  · rw [List.append_assoc, afterRaw, List.takeWhile_append_dropWhile, hlines]
  · refine (mem_linesOf_elementNode.mp hn).imp id fun hn => ?_
    obtain ⟨line, hline, rfl⟩ := linesOf_textBlock n hn
    exact hfollows line hline
  · obtain ⟨line, hline, heq⟩ := line_of_mem_textBlock herror
    rw [← heq]
    exact hfollows line hline
  · exact mem_linesOf_elementNode.mpr (Or.inl rfl)

theorem faithful_element {reading : StatementReading}
    (h : element number indent text lines = .done reading) :
    Faithful number indent text lines reading := by
  obtain ⟨whole, taken, hlines, hhead, hfurther⟩ := exists_readTag indent text lines
  have htaken : ∃ taken, lines = taken ++ (readTag text lines).2 ∧ Further indent text taken :=
    ⟨taken, hlines, by simpa using hfurther [] .nil⟩
  unfold element at h
  split at h
  · next rest hread =>
    rw [hread] at htaken
    rw [ElementReading.done.injEq] at h
    exact h ▸ faithful_of_reported rfl rfl htaken
  · next fault rest hread =>
    rw [hread] at htaken
    rw [ElementReading.done.injEq] at h
    exact h ▸ faithful_of_reported rfl rfl htaken
  · next head rest hread =>
    rw [hread] at htaken hhead hlines
    split at h
    all_goals simp only [ElementReading.done.injEq, reduceCtorEq] at h
    all_goals subst h
    case h_1 => exact faithful_elementNode rfl htaken (by simp) (by simp) rfl
    case h_2 =>
      exact faithful_elementNode rfl htaken linesOf_textNodes (fun _ => line_of_mem_textNodes) rfl
    case h_3 => exact faithful_elementNode rfl htaken (by simp [bufferedCode]) (by simp) rfl
    case h_4 hdot =>
      exact faithful_dotBlock hlines fun raw hraw => hfurther raw (.raw (.tag hhead.symm hdot) hraw)
    case h_5 => exact faithful_elementNode rfl htaken (by simp) (by simp) rfl

/-- The statement after a colon goes on where the tag before it ends. -/
theorem exists_expansion {node : Node} {inner : List Char} {rest : List SourceLine}
    (h : element number indent text lines = .expansion node inner rest) :
    linesOf [node] = [number] ∧ ∃ taken, lines = taken ++ rest ∧
      ∀ more, Further indent (Text.trimEnd inner) more → Further indent text (taken ++ more) := by
  obtain ⟨whole, taken, hlines, hhead, hfurther⟩ := exists_readTag indent text lines
  unfold element at h
  split at h
  · simp at h
  · simp at h
  · next head rest hread =>
    rw [hread] at hhead hlines
    split at h
    all_goals simp only [reduceCtorEq, ElementReading.expansion.injEq] at h
    next hexpands =>
    obtain ⟨rfl, rfl, rfl⟩ := h
    exact ⟨rfl, taken, hlines, fun more hmore =>
      hfurther more (.expansion hhead.symm hexpands hmore)⟩

/-- **What reading a statement does with lines**: it takes further lines of the statement only,
finds nodes and faults on its own line and on later ones, and leaves a trace of its own. -/
theorem faithful_read (number indent : Nat) (text : List Char) (lines : List SourceLine) :
    Faithful number indent (Text.trimEnd text) lines (read number indent text lines) := by
  fun_induction read number indent text lines with
  | case1 text lines reading hsimple =>
    exact faithful_simple? (Text.endsUnblank_trimEnd text) hsimple
  | case2 text lines _ reading hdone => exact faithful_element hdone
  | case3 text lines _ node inner rest hexpands reading ih =>
    obtain ⟨hnode, taken, rfl, hfurther⟩ := exists_expansion hexpands
    obtain ⟨⟨more, hmore, hfurtherMore⟩, hnodes, herrors, -, hreported⟩ := ih
    have hlater : ∀ n, (n = number ∨ ∃ line ∈ rest, line.number = n) →
        n = number ∨ ∃ line ∈ taken ++ rest, line.number = n := fun n h =>
      h.imp_right (Exists.imp fun line => And.imp_left (List.mem_append_right taken))
    refine ⟨⟨taken ++ more, ?_, hfurther more hfurtherMore⟩, fun n hn => ?_,
      fun error herror => hlater _ (herrors error herror), Or.inl (Or.inl ?_), hreported⟩
    · rw [List.append_assoc]
      exact congrArg (taken ++ ·) hmore
    · rw [ownLines, hnode, List.mem_append, List.mem_singleton] at hn
      exact hn.elim Or.inl fun hn => hlater n (hnodes n hn)
    · rw [ownLines, hnode]
      exact List.mem_append_left _ (List.mem_singleton_self _)

end Statement

end Template

end PugContracts
