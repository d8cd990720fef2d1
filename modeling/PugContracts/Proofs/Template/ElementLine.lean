import PugContracts.Proofs.Template.AttributeLine

/-!
# Lines with an attribute list

An element line is a tag, an attribute list in parentheses and what follows it on the line. The
attributes are separated by a comma and a space. The list may be broken: at the space behind a
comma, behind the opening parenthesis, and before the closing one.

A blank between two attributes, and at the ends of the list, is of no account. So the attributes of
a list are those that were written, whether it stands on one line or is broken, and also when the
lines have been joined by newlines, as a tag is read that goes over several lines.

## Main definitions

* `ElementLine`: the line, and the places where its list is broken.

## Main results

* `ElementLine.attributes_list`: the attributes of a list are those that were written.
* `ElementLine.through_list`: a list can stand in parentheses.
-/

namespace PugContracts.Template

open Scan (Through)

variable {more : List Char}

/-! ### Attributes -/

/-- A closed text of one piece does not end in a blank. -/
theorem endsUnblank_of_through (h : Through isUnbroken .start more .start) :
    Text.EndsUnblank more := by
  intro c hc
  obtain ⟨before, rfl⟩ := List.getLast?_eq_some_iff.mp hc
  obtain ⟨middle, hbefore, hlast⟩ := h.of_append
  have hplain := hbefore.plain trivial
  refine Bool.eq_false_iff.mpr fun hblank => ?_
  cases hlast with
  | cons inside outer tail =>
    have hsame : Scan.advance middle c = .start := tail.endState (hplain.advance c)
    have hpassive := Scan.isPassive_of_isBlank hblank
    obtain ⟨mode, depth⟩ := middle
    cases mode with
    | code =>
      -- a blank in code changes nothing, so it would stand outside of all brackets
      rw [Scan.advance_of_isPassive rfl hpassive] at hsame
      exact Bool.false_ne_true
        ((isUnbroken_iff.mp (outer (hsame ▸ Scan.fst_step_start c))).1.symm.trans hblank)
    | quoted mark =>
      have hmark : Scan.isQuote mark = true := hplain
      rw [Scan.advance_quoted] at hsame
      split_ifs at hsame with hescape hend
      · cases hsame
      · subst hend
        simp [Scan.isPassive, hmark] at hpassive
      · cases hsame
    | escaped mark => cases hsame
    | _ => exact hplain.elim

/-- An attribute `name=value`. The value is closed, and its blanks and commas stand in brackets or
strings. -/
structure Assignment where
  /-- The name. -/
  name : List Char
  /-- The value. -/
  value : List Char
  /-- The name is written without quotation marks. -/
  named : IsName name
  /-- The value closes all it opens, and it is one piece. -/
  balanced : Through isUnbroken .start value .start
  /-- The value is not empty. -/
  ne_nil : value ≠ []
  /-- The value stands on one line. -/
  single : '\n' ∉ value

namespace Assignment

variable (assignment : Assignment)

/-- How an attribute is written. -/
def text : List Char :=
  assignment.name ++ '=' :: assignment.value

/-- The attribute that is meant. -/
def toAttribute : Attribute :=
  ⟨String.ofList assignment.name, String.ofList assignment.value, true⟩

theorem bare_value : Text.Bare assignment.value := by
  refine ⟨?_, endsUnblank_of_through assignment.balanced⟩
  have hbalanced := assignment.balanced
  obtain ⟨c, rest, hvalue⟩ := List.exists_cons_of_ne_nil assignment.ne_nil
  rw [hvalue] at hbalanced ⊢
  cases hbalanced with
  | cons _ outer _ =>
    exact ⟨c, rfl, (isUnbroken_iff.mp (outer (Scan.fst_step_start c))).1⟩

theorem head : ∃ c rest, assignment.text = c :: rest ∧ Text.isBlank c = false := by
  obtain ⟨c, rest, hname⟩ := List.exists_cons_of_ne_nil assignment.named.ne_nil
  have hchar := of_isNameChar (assignment.named.chars c (hname ▸ List.mem_cons_self))
  exact ⟨c, rest ++ '=' :: assignment.value, by rw [text, hname]; rfl, hchar.2.1⟩

theorem last : Text.EndsUnblank assignment.text := by
  have hvalue := assignment.bare_value.last.append_left ['='] assignment.ne_nil
  exact hvalue.append_left assignment.name (by simp)

theorem enclosable : Enclosable assignment.text := by
  have hvalue : Enclosable assignment.value :=
    ⟨assignment.balanced.mono fun _ _ => rfl, assignment.single⟩
  have hequals : Enclosable ['='] := enclosable_of_all rfl
  exact assignment.named.enclosable.append (hequals.append hvalue)

/-- An attribute is read, and then what follows it. -/
theorem attributesFrom_text (all : List Char) {separators follow : List Char}
    (hseparators : ∀ c ∈ separators, separatesAttributes c = true)
    (hfollow : splitAttributeValue follow = ([], follow)) :
    attributesFrom all (separators ++ (assignment.text ++ follow)) =
      (attributesFrom all follow).map (assignment.toAttribute :: ·) := by
  have hassigned : ∃ c rest, assignment.value ++ follow = c :: rest ∧ Text.isBlank c = false := by
    obtain ⟨c, hc, hblank⟩ := assignment.bare_value.head
    obtain ⟨rest, hvalue⟩ := List.head?_eq_some_iff.mp hc
    exact ⟨c, rest ++ follow, by rw [hvalue]; rfl, hblank⟩
  rw [text, List.append_assoc, List.cons_append,
    attributesFrom_append hseparators assignment.named hassigned,
    splitAttributeValue_append assignment.balanced, hfollow]
  dsimp only
  rw [List.append_nil, assignment.bare_value.trim, if_neg (by simpa using assignment.ne_nil)]
  rfl

end Assignment

/-! ### Lists -/

/-- A line break and the indentation behind it. -/
structure Break where
  /-- A carriage return stands before the newline. -/
  crlf : Bool
  /-- The indentation. -/
  indentation : List Char
  /-- It is spaces and tabs. -/
  blanks : ∀ c ∈ indentation, isIndentation c = true

/-- How a line break is written. -/
def Break.text (lineBreak : Break) : List Char :=
  (if lineBreak.crlf then ['\r'] else []) ++ '\n' :: lineBreak.indentation

/-- What is written in a place where a list may be broken: the argument is what stands there if it
is not. -/
abbrev Filling := List Char → Option Break → List Char

namespace Filling

/-- The list stays on one line. -/
def oneLine : Filling :=
  fun kept _ => kept

/-- The list is broken. -/
def broken : Filling :=
  fun kept lineBreak? => lineBreak?.elim kept Break.text

/-- The list is as it is read: the lines are joined by newlines, without their indentation. -/
def joined : Filling :=
  fun kept lineBreak? => lineBreak?.elim kept fun _ => ['\n']

/-- What is written between the attributes is of no account. -/
structure Neutral (fill : Filling) : Prop where
  /-- It is blank if what it replaces is. -/
  blank : ∀ kept, (∀ c ∈ kept, Text.isBlank c = true) → ∀ lineBreak?,
    ∀ c ∈ fill kept lineBreak?, Text.isBlank c = true
  /-- It ends a value at the end of the list. -/
  ends : ∀ lineBreak?, splitAttributeValue (fill [] lineBreak?) = ([], fill [] lineBreak?)

theorem neutral_oneLine : oneLine.Neutral :=
  ⟨fun _ hkept _ => hkept, fun _ => rfl⟩

theorem neutral_joined : joined.Neutral := by
  constructor
  · rintro kept hkept (_ | lineBreak)
    · exact hkept
    · exact List.forall_mem_singleton.mpr rfl
  · rintro (_ | lineBreak) <;> rfl

end Filling

/-- The line of an element with an attribute list, and the places where the list is broken: behind
the opening parenthesis, at the space behind a comma, and before the closing parenthesis. -/
structure ElementLine where
  /-- The tag before the list. -/
  tag : List Char
  /-- The break behind the opening parenthesis. -/
  opening : Option Break
  /-- The first attribute. -/
  first : Assignment
  /-- The other ones, each with the break before it. -/
  others : List (Option Break × Assignment)
  /-- The break before the closing parenthesis. -/
  closing : Option Break
  /-- What follows the list on its last line. -/
  rest : List Char
  /-- The tag is one of an element. -/
  isElementTag : IsElementTag tag
  /-- What follows the list stands on one line. -/
  single : '\n' ∉ rest

/-- An attribute behind a comma. -/
def furtherAttribute (fill : Filling) (other : Option Break × Assignment) : List Char :=
  ',' :: (fill [' '] other.1 ++ other.2.text)

namespace ElementLine

variable (line : ElementLine)

/-- The list. -/
def list (fill : Filling) : List Char :=
  fill [] line.opening ++ (line.first.text ++
    (line.others.flatMap (furtherAttribute fill) ++ fill [] line.closing))

/-- The line, or the lines over which it is broken. -/
def text (fill : Filling) : List Char :=
  line.tag ++ '(' :: (line.list fill ++ ')' :: line.rest)

/-- How often the list is broken. -/
def breaks : Nat :=
  (line.opening :: (line.others.map Prod.fst ++ [line.closing])).countP Option.isSome

/-- The attributes of the list. -/
def attributes : List Attribute :=
  line.first.toAttribute :: line.others.map fun other => other.2.toAttribute

end ElementLine

section Reading

variable {fill : Filling}

theorem attributesFrom_blank (all : List Char) (h : ∀ c ∈ more, Text.isBlank c = true) :
    attributesFrom all more = .ok [] := by
  have hnone : more.dropWhile separatesAttributes = [] :=
    List.dropWhile_eq_nil_iff.mpr fun c hc => by simp [separatesAttributes, h c hc]
  rw [attributesFrom]
  split
  · rfl
  · next heq => rw [hnone] at heq; cases heq

/-- What stands behind an attribute ends its value. -/
theorem splitAttributeValue_further (hfill : fill.Neutral)
    (others : List (Option Break × Assignment)) (closing : Option Break) :
    splitAttributeValue (others.flatMap (furtherAttribute fill) ++ fill [] closing) =
      ([], others.flatMap (furtherAttribute fill) ++ fill [] closing) := by
  cases others with
  | nil => exact hfill.ends closing
  | cons other rest => exact splitAttributeValue_followedBy (.comma _)

theorem attributesFrom_further (all : List Char) (hfill : fill.Neutral)
    (others : List (Option Break × Assignment)) (closing : Option Break) :
    attributesFrom all (others.flatMap (furtherAttribute fill) ++ fill [] closing) =
      .ok (others.map fun other => other.2.toAttribute) := by
  induction others with
  | nil => exact attributesFrom_blank all (hfill.blank [] (List.forall_mem_nil _) closing)
  | cons other rest ih =>
    have hspace : ∀ c ∈ [' '], Text.isBlank c = true := List.forall_mem_singleton.mpr rfl
    have hseparators : ∀ c ∈ ',' :: fill [' '] other.1, separatesAttributes c = true := by
      refine List.forall_mem_cons.mpr ⟨rfl, fun c hc => ?_⟩
      simp [separatesAttributes, hfill.blank _ hspace _ c hc]
    have hread := other.2.attributesFrom_text all hseparators
      (splitAttributeValue_further hfill rest closing)
    rw [ih] at hread
    simp only [List.flatMap_cons, furtherAttribute, List.cons_append, List.append_assoc] at hread ⊢
    exact hread

/-- **The attributes of a list** are the same however it is filled. -/
theorem ElementLine.attributes_list (line : ElementLine) (hfill : fill.Neutral) :
    Template.attributes (line.list fill) = .ok line.attributes := by
  have hseparators : ∀ c ∈ fill [] line.opening, separatesAttributes c = true := fun c hc => by
    simp [separatesAttributes, hfill.blank [] (List.forall_mem_nil _) _ c hc]
  rw [Template.attributes, ElementLine.list, line.first.attributesFrom_text _ hseparators
    (splitAttributeValue_further hfill line.others line.closing), attributesFrom_further _ hfill]
  rfl

theorem through_of_blank (h : ∀ c ∈ more, Text.isBlank c = true) :
    Through (fun _ => true) .start more .start := by
  refine Scan.through_of_all (List.all_eq_true.mpr fun c hc => ?_) (Int.le_refl 0)
  rw [Scan.isPassive_of_isBlank (h c hc)]
  rfl

/-- A list closes all it opens, however it is filled. -/
theorem ElementLine.through_list (line : ElementLine) (hfill : fill.Neutral) :
    Through (fun _ => true) .start (line.list fill) .start := by
  have hcomma : Through (fun _ => true) .start [','] .start :=
    Scan.through_of_all rfl (Int.le_refl 0)
  have hspace : ∀ c ∈ [' '], Text.isBlank c = true := List.forall_mem_singleton.mpr rfl
  have hends : ∀ lineBreak?, Through (fun _ => true) .start (fill [] lineBreak?) .start := fun _ =>
    through_of_blank (hfill.blank [] (List.forall_mem_nil _) _)
  have hothers : ∀ others : List (Option Break × Assignment),
      Through (fun _ => true) .start (others.flatMap (furtherAttribute fill)) .start := by
    intro others
    induction others with
    | nil => exact .nil _
    | cons other rest ih =>
      have hfilled := through_of_blank (hfill.blank _ hspace other.1)
      exact (hcomma.append (hfilled.append other.2.enclosable.through)).append ih
  exact (hends _).append (line.first.enclosable.through.append ((hothers _).append (hends _)))

end Reading

end PugContracts.Template
