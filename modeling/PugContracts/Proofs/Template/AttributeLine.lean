import PugContracts.Proofs.Template.AttributeList
import PugContracts.Proofs.Template.Reading
import PugContracts.Proofs.Template.Rows
import PugContracts.Proofs.Template.TagText

/-!
# Tags with an attribute list

A line that holds a plain tag and a list of attributes is read as one element, or its list is
reported. The list is found between the parentheses, since names, operands and what stands between
them close all they open; whether its attributes are those that were written is a matter of the list
alone.

## Main results

* `read_list`: a tag with a list is an element with the attributes of the list.
* `parse_attributeLine_iff`: which lines are read back as they were written.
-/

namespace PugContracts.Template

open Scan (Through)
open Statement (isTagChar not_isBlank_of_isTagChar)

variable {name text more : List Char}

/-! ### Lines -/

/-- A tag with a list of at least one attribute. -/
structure AttributeLine where
  /-- The tag. -/
  tag : String
  /-- The first attribute. -/
  first : ListedAttribute
  /-- The other ones. -/
  others : List ListedAttribute
  /-- The name of the tag is plain. -/
  plain : isPlainTag tag = true

namespace AttributeLine

variable (line : AttributeLine)

/-- The attributes of the list. -/
def listed : List ListedAttribute :=
  line.first :: line.others

/-- The list between the parentheses. -/
def list : List Char :=
  line.first.text ++ furtherText line.others

/-- The line. -/
def source : String :=
  String.ofList (line.tag.toList ++ '(' :: (line.list ++ [')']))

/-- The element that is meant, on the first line of a template. -/
def node : Node :=
  .leaf (.element line.tag (line.listed.map ListedAttribute.toAttribute) []) 1

end AttributeLine

/-- A text on one line that can stand in parentheses. -/
structure Enclosable (text : List Char) : Prop where
  /-- It closes all it opens, and nothing else. -/
  through : Through (fun _ => true) .start text .start
  /-- It holds no newline. -/
  single : '\n' ∉ text

theorem Enclosable.append (h : Enclosable text) (hmore : Enclosable more) :
    Enclosable (text ++ more) :=
  ⟨h.through.append hmore.through, by simp [h.single, hmore.single]⟩

theorem enclosable_of_all (h : (text.all fun c => Scan.isPassive c && c != '\n') = true) :
    Enclosable text := by
  simp only [List.all_eq_true, Bool.and_eq_true, bne_iff_ne] at h
  refine ⟨Scan.through_of_all (List.all_eq_true.mpr fun c hc => ?_) (Int.le_refl 0),
    fun hmem => (h _ hmem).2 rfl⟩
  rw [Bool.and_true]
  exact (h c hc).1

theorem Unbroken.enclosable (h : Unbroken text) : Enclosable text :=
  ⟨h.through.mono fun _ _ => rfl, h.single⟩

theorem Value.enclosable (value : Value) : Enclosable value.text := by
  have hothers : ∀ others : List (Operator × Operand), Enclosable (othersText others) := by
    have hspace : Enclosable [' '] := enclosable_of_all rfl
    intro others
    induction others with
    | nil => exact enclosable_of_all rfl
    | cons other rest ih =>
      obtain ⟨operator, operand⟩ := other
      have hoperator : Enclosable operator.text :=
        enclosable_of_all (by cases operator <;> rfl)
      exact hspace.append (hoperator.append
        (hspace.append (operand.isOperand.unbroken.enclosable.append ih)))
  exact value.first.isOperand.unbroken.enclosable.append (hothers value.others)

theorem IsName.enclosable (h : IsName name) : Enclosable name := by
  refine enclosable_of_all (List.all_eq_true.mpr fun c hc => ?_)
  obtain ⟨hpassive, hblank, -⟩ := of_isNameChar (h.chars c hc)
  have hline : c ≠ '\n' := by
    rintro rfl
    cases hblank
  simp [hpassive, hline]

theorem ListedAttribute.enclosable (listed : ListedAttribute) : Enclosable listed.text := by
  have hequals : Enclosable ['='] := enclosable_of_all rfl
  exact (isName_of_isAttributeName listed.named).enclosable.append
    (hequals.append listed.value.enclosable)

theorem AttributeLine.enclosable (line : AttributeLine) : Enclosable line.list := by
  have hseparator : Enclosable [',', ' '] := enclosable_of_all rfl
  have hothers : ∀ others : List ListedAttribute, Enclosable (furtherText others) := by
    intro others
    induction others with
    | nil => exact enclosable_of_all rfl
    | cons listed rest ih => exact hseparator.append (listed.enclosable.append ih)
  exact line.first.enclosable.append (hothers line.others)

/-- A plain tag may stand before a list. -/
theorem isElementTag_of_isPlainTag {tag : String} (h : isPlainTag tag = true) :
    IsElementTag tag.toList := by
  obtain ⟨⟨c, rest, htag, hc⟩, hsplit, hkeyword, hinclude⟩ := Statement.isPlainTag_iff.mp h
  have hsub : Statement.parenthesizedWords ⊆ keywords := by decide
  refine ⟨?_, fun word hmem heq => ?_, hinclude⟩
  · rw [htag] at hsplit ⊢
    exact .name hc hsplit
  · rw [String.toList_inj.mp heq] at hkeyword
    exact hkeyword (hsub hmem)

/-- **The head of a tag with a list** has the attributes of the list. -/
theorem ofText_list {tag : String} (h : isPlainTag tag = true) {inner : List Char}
    (hinner : Enclosable inner) :
    TagHead.ofText (tag.toList ++ '(' :: (inner ++ [')'])) =
      (attributes inner).map fun attributes => ⟨tag.toList, attributes, [], .empty⟩ := by
  obtain ⟨⟨c, rest, htag, hc⟩, hsplit, -⟩ := Statement.isPlainTag_iff.mp h
  have hparts : TagPart.readAll ('(' :: (inner ++ [')'])) =
      (attributes inner).map fun attributes => ([.list attributes], []) := by
    rw [TagPart.readAll_list hinner.through, TagPart.readAll_nil]
    cases attributes inner <;> rfl
  rw [htag, List.cons_append, TagHead.ofText, startsShorthand_of_isAlpha hc, hc,
    ← List.cons_append, ← htag,
    splitTagName_append hsplit (by simp [show isTagChar '(' = false from rfl])]
  show TagHead.ofTail tag.toList ('(' :: (inner ++ [')'])) = _
  rw [TagHead.ofTail, hparts]
  cases attributes inner with
  | error fault => rfl
  | ok attributes => simp [Except.map, TagRest.ofText, TagPart.attributes, TagPart.spread?]

/-- A tag with a list is read as an element, or reported. -/
theorem read_list {tag : String} (h : isPlainTag tag = true) {inner : List Char}
    (hinner : Enclosable inner) (number indent : Nat) :
    Statement.read number indent (tag.toList ++ '(' :: (inner ++ [')'])) [] =
      match attributes inner with
      | .ok attributes => ⟨.heading (.leaf (.element tag attributes []) number), [], []⟩
      | .error .unclosed => ⟨.complete [], [⟨number, .unclosedAttributes⟩], []⟩
      | .error (.invalid fault) => ⟨.dissolved none, [⟨number, fault⟩], []⟩ := by
  have hlast : Text.EndsUnblank (tag.toList ++ '(' :: (inner ++ [')'])) := by
    intro d hd
    rw [← List.cons_append, ← List.append_assoc, List.getLast?_concat] at hd
    obtain rfl := Option.some.inj hd
    decide
  have hsimple :
      Statement.simple? number indent (tag.toList ++ '(' :: (inner ++ [')'])) [] = none :=
    (isElementTag_of_isPlainTag h).simple?_eq_none _
  have hread : Statement.readTag (tag.toList ++ '(' :: (inner ++ [')'])) [] =
      (TagHead.ofText (tag.toList ++ '(' :: (inner ++ [')'])), []) :=
    (Statement.readTag_cases _ []).resolve_right (Nat.not_lt_zero _)
  rw [ofText_list h hinner] at hread
  refine Statement.read_of_element hlast hsimple ?_
  rw [Statement.element, hread]
  cases attributes inner with
  | error fault => cases fault <;> rfl
  | ok attributes =>
    simp [Except.map, Statement.elementNode, Node.leaf, Node.addChildren, String.ofList_toList]

/-- A template of one line is the statement on it. -/
theorem parse_line {statement : Statement} {errors : List SyntaxError} (h : Legible text)
    (hread : Statement.read 1 0 text [] = ⟨statement, errors, []⟩) :
    parse (String.ofList text) =
      ⟨(statement.close 1 [] []).1, errors ++ (statement.close 1 [] []).2⟩ := by
  have hlegible : ∀ row ∈ [(⟨0, String.ofList text⟩ : Row)], Legible row.text.toList := by
    simpa using h
  have hlines : SourceLine.ofSource (String.ofList text).toList = [⟨1, 0, text⟩] := by
    have hline := ofText_chars (hlegible _ List.mem_cons_self) 1
    simp only [Row.chars, Row.line, Nat.mul_zero, List.replicate_zero, List.nil_append,
      String.toList_ofList] at hline
    rw [SourceLine.ofSource, String.toList_ofList, Text.newlinePieces_eq_singleton h.single,
      SourceLine.numberFrom, hline]
    rfl
  have hblank : SourceLine.isBlank ⟨1, 0, text⟩ = false := by
    simpa [Row.line] using isBlank_line (hlegible _ List.mem_cons_self) 1
  have hopened : (Start.mk ⟨1, 0, text⟩ []).reading = ⟨statement, errors, []⟩ := hread
  have hindent : firstIndent [⟨1, 0, text⟩] = 0 := by simp [firstIndent, hblank]
  have hbelow : statement.takesBlock = true →
      Reads (some 0) (firstIndent []) [] [] ⟨[], [], []⟩ := fun _ => .nil
  have hreads : Reads none 0 [] [⟨1, 0, text⟩] ((⟨(statement.close 1 [] []).1, [], []⟩ :
      BlockReading).afterErrors (errors ++ [] ++ (statement.close 1 [] []).2)) :=
    .sibling hblank rfl (by simp) hopened hbelow (fun _ => rfl) .nil
  rw [parse, hlines, block, hindent, (reads_siblings none 0 [] _).unique hreads]
  simp [BlockReading.afterErrors]

theorem AttributeLine.legible (line : AttributeLine) : Legible line.source.toList := by
  obtain ⟨⟨c, rest, htag, hc⟩, hsplit, -⟩ := Statement.isPlainTag_iff.mp line.plain
  have hchars := Statement.isTagChar_of_splitTagName hsplit
  have hsingle : '\n' ∉ line.tag.toList := fun hmem => by cases hchars _ hmem
  rw [AttributeLine.source, String.toList_ofList]
  refine Legible.append hsingle ⟨c, by rw [htag]; rfl, ?_⟩ (by simp [line.enclosable.single])
    (by simp) fun d hd => ?_
  · exact not_isBlank_of_isTagChar (hchars c (by rw [htag]; exact List.mem_cons_self))
  · rw [← List.cons_append, List.getLast?_concat] at hd
    obtain rfl := Option.some.inj hd
    decide

/-- **Which attribute lists are read back as they were written.** The line is read without a fault
and as the one element that is meant if and only if no operand of a value, save the first one, looks
like an attribute. -/
theorem parse_attributeLine_iff (line : AttributeLine) :
    parse line.source = ⟨[line.node], []⟩ ↔
      ∀ listed ∈ line.listed, listed.value.IsClear := by
  have hlist := attributesFrom_list line.list line.first line.others (List.forall_mem_nil _)
  have hread := read_list line.plain line.enclosable 1 0
  have hlegible := line.legible
  rw [AttributeLine.source, String.toList_ofList] at hlegible
  rw [AttributeLine.listed, ← hlist, List.nil_append, ← AttributeLine.list, ← attributes]
  cases hattributes : attributes line.list with
  | error fault =>
    rw [hattributes] at hread
    refine iff_of_false (fun hparse => ?_) (by simp)
    cases fault <;> rw [AttributeLine.source, parse_line hlegible hread] at hparse <;> cases hparse
  | ok read =>
    rw [hattributes] at hread
    rw [AttributeLine.source, parse_line hlegible hread]
    simp [Statement.close, AttributeLine.node, AttributeLine.listed, Node.leaf, Node.addChildren]

/-- The line `p(n1=a + b)`, in which `b` is taken for an attribute of its own. -/
def sumLine : AttributeLine where
  tag := "p"
  first :=
    { name := ['n', '1']
      value :=
        { first := ⟨['a'], .word ⟨by decide, List.all_eq_true.mp rfl⟩⟩
          others := [(.plus, ⟨['b'], .word ⟨by decide, List.all_eq_true.mp rfl⟩⟩)] }
      named := by decide }
  others := []
  plain := by decide

example : sumLine.source = "p(n1=a + b)" := by decide

end PugContracts.Template
