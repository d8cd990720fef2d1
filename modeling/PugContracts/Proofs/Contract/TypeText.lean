import PugContracts.Contract.Shape
import PugContracts.Proofs.Scan.Strip
import PugContracts.Proofs.Text.Ends

/-!
# Texts of types

The members of an object literal have types, and a type may hold object literals again. `TypeExpr`
and `Member` are the types and the members that a shape is made of, apart from how a shape is read.

A shape is cut at its semicolons and commas and its members at their colons, where these stand
outside of all brackets and strings. Angle brackets are none of these brackets: a comma between the
arguments of a generic type is a cut. A type with such a comma is *open*, and what is left of it is
the text before the comma (`TypeExpr.shown`).

## Main definitions

* `TypeExpr`, `Member`: types and members, and how they are written.
* `TypeExpr.isOpen`: a comma of the type stands outside of all brackets.

## Main results

* `Cut.append`: what is left of two texts.
* `TypeExpr.cut_text`: what is left of a type; no semicolon and no colon of the type stands outside
  of its brackets.
* `TypeExpr.bare_shown`: it starts and ends with characters that are no blanks.
-/

namespace PugContracts.Contract

open Text (Bare isBlank)
open Scan (Through isPassive isOpener isCloser isQuote)
open Template (IsWord IsLiteral IsLiteralBody isWordChar)

/-! ### Types and members -/

/-- The name of a type: words, with points between them for the members of a namespace. -/
def IsTypeName (text : List Char) : Prop :=
  text ≠ [] ∧ ∀ c ∈ text, isWordChar c = true ∨ c = '.'

/-- The name of a member. -/
inductive MemberName where
  /-- An identifier or a number. -/
  | word (text : List Char) (h : IsWord text)
  /-- A name in quotes. -/
  | quoted (mark : Char) (body : List Char) (hmark : mark = '"' ∨ mark = '\'')
    (hbody : IsLiteralBody mark body)

mutual

/-- A type. -/
inductive TypeExpr where
  /-- A name. -/
  | name (text : List Char) (h : IsTypeName text)
  /-- A string literal. -/
  | literal (text : List Char) (h : IsLiteral text)
  /-- An array. -/
  | array (element : TypeExpr)
  /-- One of two types. -/
  | union (left right : TypeExpr)
  /-- A type in parentheses. -/
  | group (inner : TypeExpr)
  /-- A function type. -/
  | function (parameters : List Member) (result : TypeExpr)
  /-- An object literal. -/
  | object (members : List Member)
  /-- A generic type with its arguments. -/
  | generic (head : List Char) (h : IsTypeName head) (first : TypeExpr) (others : List TypeExpr)

/-- A member of an object literal or a parameter of a function. `comma` tells whether a comma or a
semicolon stands between it and the member before it. -/
inductive Member where
  | mk (name : MemberName) (optional : Bool) (type : TypeExpr) (comma : Bool)

end

/-- How the name of a member is written. -/
def MemberName.text : MemberName → List Char
  | word text _ => text
  | quoted mark body _ _ => mark :: (body ++ [mark])

/-- The name itself, without quotes. -/
def MemberName.value : MemberName → List Char
  | word text _ => text
  | quoted _ body _ _ => body

namespace Member

/-- The name. -/
def name : Member → MemberName
  | mk name _ _ _ => name

/-- Whether the member may be absent. -/
def optional : Member → Bool
  | mk _ optional _ _ => optional

/-- The type. -/
def type : Member → TypeExpr
  | mk _ _ type _ => type

/-- Whether a comma stands before the member. -/
def comma : Member → Bool
  | mk _ _ _ comma => comma

end Member

mutual

/-- How a type is written. -/
def TypeExpr.text : TypeExpr → List Char
  | .name text _ => text
  | .literal text _ => text
  | .array element => element.text ++ ['[', ']']
  | .union left right => left.text ++ (" | ".toList ++ right.text)
  | .group inner => '(' :: (inner.text ++ [')'])
  | .function parameters result =>
    '(' :: ((separatedMembers true parameters).drop 2 ++ [')']) ++ (" => ".toList ++ result.text)
  | .object members => '{' :: ((' ' :: (separatedMembers false members).drop 2 ++ [' ']) ++ ['}'])
  | .generic head _ first others =>
    head ++ ('<' :: (first.text ++ (separatedTypes others ++ ['>'])))

/-- How a member is written. -/
def Member.text : Member → List Char
  | .mk name optional type _ =>
    name.text ++ ((if optional then ['?'] else []) ++ (": ".toList ++ type.text))

/-- Types with a comma before each. -/
def separatedTypes : List TypeExpr → List Char
  | [] => []
  | type :: rest => ", ".toList ++ (type.text ++ separatedTypes rest)

/-- Members with a separator before each: its own one, or always a comma. -/
def separatedMembers (commas : Bool) : List Member → List Char
  | [] => []
  | member :: rest =>
    [if commas || member.comma then ',' else ';', ' '] ++
      (member.text ++ separatedMembers commas rest)

end

namespace TypeExpr

/-- A comma of the type stands outside of all brackets: one between arguments of a generic type. -/
def isOpen : TypeExpr → Bool
  | .array element => element.isOpen
  | .union left right => left.isOpen || right.isOpen
  | .function _ result => result.isOpen
  | .generic _ _ first others => first.isOpen || !others.isEmpty
  | .name _ _ => false
  | .literal _ _ => false
  | .group _ => false
  | .object _ => false

/-- The text of the type up to the first such comma, or the whole text. -/
def shown : TypeExpr → List Char
  | .array element => element.shown ++ (if element.isOpen then [] else ['[', ']'])
  | .union left right =>
    left.shown ++ (if left.isOpen then [] else " | ".toList ++ right.shown)
  | .function parameters result =>
    '(' :: ((separatedMembers true parameters).drop 2 ++ [')']) ++ (" => ".toList ++ result.shown)
  | .generic head _ first others =>
    head ++ ('<' :: (first.shown ++ (if first.isOpen || !others.isEmpty then [] else ['>'])))
  | .name word h => text (.name word h)
  | .literal word h => text (.literal word h)
  | .group inner => text (.group inner)
  | .object members => text (.object members)

end TypeExpr

/-! ### Sealed texts -/

variable {p q : Char → Bool} {a b text : List Char} {c : Char}

/-- No semicolon and no colon. -/
def isTypeChar (c : Char) : Bool :=
  c != ';' && c != ':'

/-- No semicolon, no colon and no comma. -/
def isClosedChar (c : Char) : Bool :=
  isTypeChar c && c != ','

/-- A text that the reading of a shape goes through: it closes what it opens, outside of brackets
and strings it has certain characters only, and it holds no comment. -/
structure Sealed (p : Char → Bool) (text : List Char) : Prop where
  /-- It is gone through from code to code. -/
  through : Through p .start text .start
  /-- It is kept when comments are removed. -/
  kept : Scan.Kept text

theorem sealed_nil : Sealed p [] :=
  ⟨.nil _, Scan.kept_nil⟩

theorem Sealed.append (ha : Sealed p a) (hb : Sealed p b) : Sealed p (a ++ b) :=
  ⟨ha.through.append hb.through, ha.kept.append hb.kept⟩

theorem Sealed.mono (h : Sealed p text) (hp : ∀ c, p c = true → q c = true) : Sealed q text :=
  ⟨h.through.mono hp, h.kept⟩

/-- A character that means nothing to the scanner or to the removal of comments. -/
def isPlain (c : Char) : Bool :=
  isPassive c && c != '/'

theorem sealed_of_all (h : (text.all fun c => isPlain c && p c) = true) : Sealed p text := by
  rw [List.all_eq_true] at h
  constructor
  · refine Scan.through_of_all (List.all_eq_true.mpr fun c hc => ?_) (Int.le_refl 0)
    have hplain := h c hc
    simp only [isPlain, Bool.and_eq_true] at hplain ⊢
    exact ⟨hplain.1.1, hplain.2⟩
  · refine Scan.kept_of_all fun c hc => ?_
    have hplain := h c hc
    simp only [isPlain, Bool.and_eq_true, bne_iff_ne] at hplain
    exact ⟨hplain.1.2, (Scan.isPassive_iff.mp hplain.1.1).2.2⟩

/-- A sealed text still is without a plain character at its start. -/
theorem Sealed.of_cons (h : Sealed p (c :: text)) (hc : isPlain c = true) : Sealed p text := by
  simp only [isPlain, Bool.and_eq_true, bne_iff_ne] at hc
  constructor
  · cases h.through with
    | cons inside outer tail =>
      have hsame : Scan.advance .start c = .start := Scan.advance_of_isPassive rfl hc.1
      rwa [hsame] at tail
  · intro rest
    have hquote : isQuote c = false := (Scan.isPassive_iff.mp hc.1).2.2
    have hcons := (h.kept rest).symm.trans (Scan.kept_singleton hc.2 hquote (text ++ rest))
    exact (List.cons.inj hcons).2.symm

theorem isClosedChar_of_isBracket (hc : isOpener c = true ∨ isCloser c = true) :
    isClosedChar c = true := by
  simp only [isOpener, isCloser, Bool.or_eq_true, beq_iff_eq, or_assoc] at hc
  rcases hc with rfl | rfl | rfl | rfl | rfl | rfl <;> decide

/-- **In brackets** a text may hold any characters. -/
theorem Sealed.bracketed {opener closer : Char} (h : Sealed p text)
    (hopener : isOpener opener = true) (hcloser : isCloser closer = true) :
    Sealed isClosedChar (opener :: (text ++ [closer])) := by
  constructor
  · refine Scan.through_bracketed hopener hcloser (fun _ => isClosedChar_of_isBracket) ?_
      (Int.le_refl 0)
    exact h.through.raise (Int.le_refl 0) Int.one_pos
  · have hplain : ∀ c, isOpener c = true ∨ isCloser c = true → c ≠ '/' ∧ isQuote c = false := by
      intro c hc
      simp only [isOpener, isCloser, Bool.or_eq_true, beq_iff_eq, or_assoc] at hc
      rcases hc with rfl | rfl | rfl | rfl | rfl | rfl <;> decide
    obtain ⟨hslash, hquote⟩ := hplain opener (Or.inl hopener)
    obtain ⟨hslash', hquote'⟩ := hplain closer (Or.inr hcloser)
    exact (h.kept.append (Scan.kept_singleton hslash' hquote')).cons hslash hquote

theorem isClosedChar_of_isQuote (hc : isQuote c = true) : isClosedChar c = true := by
  simp only [isQuote, Bool.or_eq_true, beq_iff_eq] at hc
  rcases hc with (rfl | rfl) | rfl <;> decide

theorem of_isClosedChar (hc : isClosedChar c = true) : isTypeChar c = true ∧ c ≠ ',' := by
  simpa [isClosedChar] using hc

theorem of_isTypeChar (hc : isTypeChar c = true) : c ≠ ';' ∧ c ≠ ':' := by
  simpa [isTypeChar] using hc

/-! ### Names and literals -/

theorem isPlain_of_isWordChar (hc : isWordChar c = true) :
    isPlain c = true ∧ isClosedChar c = true := by
  have hnot : ∀ d : Char, isWordChar d = false → c ≠ d := by
    rintro d hd rfl
    rw [hd] at hc
    cases hc
  have hslash := hnot '/' (by decide)
  have hsemicolon := hnot ';' (by decide)
  have hcolon := hnot ':' (by decide)
  have hcomma := hnot ',' (by decide)
  simp [isPlain, isClosedChar, isTypeChar, (Template.of_isWordChar hc).1, hslash, hsemicolon,
    hcolon, hcomma]

theorem IsTypeName.sealed (h : IsTypeName text) : Sealed isClosedChar text := by
  refine sealed_of_all (List.all_eq_true.mpr fun c hc => ?_)
  rcases h.2 c hc with hword | rfl
  · rw [(isPlain_of_isWordChar hword).1, (isPlain_of_isWordChar hword).2, Bool.and_self]
  · decide

theorem sealed_literal (h : IsLiteral text) : Sealed isClosedChar text :=
  ⟨h.through (fun _ => isClosedChar_of_isQuote) (Int.le_refl 0), Scan.kept_literal h⟩

/-- No separator stands in the name of a member outside of its quotes. -/
theorem MemberName.sealed_text (name : MemberName) : Sealed isClosedChar name.text := by
  cases name with
  | word text h => exact IsTypeName.sealed ⟨h.1, fun c hc => Or.inl (h.2 c hc)⟩
  | quoted mark body hmark hbody =>
    refine sealed_literal (.quoted ?_ hbody)
    rcases hmark with rfl | rfl <;> rfl

/-! ### What is left of a text -/

/-- What is left of a text at its first comma outside of brackets and strings. If there is such a
comma, the text is open. -/
structure Cut (text shown : List Char) (isOpen : Bool) : Prop where
  /-- No separator is left. -/
  left : Sealed isClosedChar shown
  /-- Of a text that is not open, all is left. -/
  whole : isOpen = false → shown = text
  /-- What is not left of an open text has the comma before it, and no colon and no semicolon. -/
  hidden : isOpen = true → ∃ hidden, text = shown ++ ',' :: hidden ∧ Sealed isTypeChar hidden

theorem Sealed.cut (h : Sealed isClosedChar text) : Cut text text false :=
  ⟨h, fun _ => rfl, nofun⟩

theorem cut_comma (h : Sealed isTypeChar text) : Cut (',' :: text) [] true :=
  ⟨sealed_nil, nofun, fun _ => ⟨text, rfl, h⟩⟩

variable {shown shown' : List Char} {isOpen isOpen' : Bool}

theorem Cut.sealed_text (h : Cut text shown isOpen) : Sealed isTypeChar text := by
  have hshown := h.left.mono fun _ hc => (of_isClosedChar hc).1
  cases isOpen with
  | false => rwa [← h.whole rfl]
  | true =>
    obtain ⟨hidden, rfl, hhidden⟩ := h.hidden rfl
    have hcomma : Sealed isTypeChar [','] := sealed_of_all (by decide)
    exact hshown.append (hcomma.append hhidden)

/-- Behind an open text, nothing is left. -/
theorem Cut.append (ha : Cut a shown isOpen) (hb : Cut b shown' isOpen') :
    Cut (a ++ b) (shown ++ if isOpen then [] else shown') (isOpen || isOpen') := by
  cases isOpen with
  | false =>
    obtain rfl := ha.whole rfl
    refine ⟨ha.left.append hb.left, fun hclosed => ?_, fun hopen => ?_⟩
    · exact congrArg (shown ++ ·) (hb.whole hclosed)
    · obtain ⟨hidden, rfl, hhidden⟩ := hb.hidden hopen
      exact ⟨hidden, (List.append_assoc ..).symm, hhidden⟩
  | true =>
    obtain ⟨hidden, rfl, hhidden⟩ := ha.hidden rfl
    refine ⟨ha.left.append sealed_nil, nofun, fun _ => ?_⟩
    exact ⟨hidden ++ b, by simp, hhidden.append hb.sealed_text⟩

/-! ### What is left of a type -/

/-- A list of members still is sealed without its first separator. -/
theorem sealed_members {commas : Bool} {members : List Member}
    (h : Sealed (fun _ => true) (separatedMembers commas members)) :
    Sealed (fun _ => true) ((separatedMembers commas members).drop 2) := by
  cases members with
  | nil => exact h
  | cons member rest =>
    rw [separatedMembers] at h ⊢
    refine (h.of_cons ?_).of_cons (by decide)
    split <;> decide

mutual

/-- **What is left of a type** at its first comma outside of brackets. -/
theorem TypeExpr.cut_text : ∀ type : TypeExpr, Cut type.text type.shown type.isOpen
  | .name text h => h.sealed.cut
  | .literal text h => (sealed_literal h).cut
  | .group inner => (inner.cut_text.sealed_text.bracketed rfl rfl).cut
  | .object members => by
    have hspace : Sealed (fun _ => true) [' '] := sealed_of_all (by decide)
    have hinside := (hspace.append (sealed_members (sealed_separatedMembers false members))).append
      hspace
    exact (hinside.bracketed rfl rfl).cut
  | .array element => by
    have hbrackets : Sealed isClosedChar ['[', ']'] :=
      (sealed_nil (p := isClosedChar)).bracketed rfl rfl
    have htext := element.cut_text.append hbrackets.cut
    rwa [Bool.or_false] at htext
  | .union left right => by
    have hbar : Sealed isClosedChar " | ".toList := sealed_of_all (by decide)
    exact left.cut_text.append (hbar.cut.append right.cut_text)
  | .function parameters result => by
    have hhead :
        Sealed isClosedChar ('(' :: ((separatedMembers true parameters).drop 2 ++ [')'])) :=
      (sealed_members (sealed_separatedMembers true parameters)).bracketed rfl rfl
    have harrow : Sealed isClosedChar " => ".toList := sealed_of_all (by decide)
    exact hhead.cut.append (harrow.cut.append result.cut_text)
  | .generic head h first others => by
    have hangle : Sealed isClosedChar ['<'] := sealed_of_all (by decide)
    have hclose : Sealed isClosedChar ['>'] := sealed_of_all (by decide)
    have hothers : Cut (separatedTypes others ++ ['>']) (if others.isEmpty then ['>'] else [])
        (!others.isEmpty) := by
      have hsealed := (sealed_separatedTypes others).append
        (hclose.mono fun _ hc => (of_isClosedChar hc).1)
      cases others with
      | nil => exact hclose.cut
      | cons second rest =>
        rw [separatedTypes] at hsealed ⊢
        exact cut_comma (hsealed.of_cons (c := ',') (by decide))
    have htext := h.sealed.cut.append (hangle.cut.append (first.cut_text.append hothers))
    have hshown : (if first.isOpen then [] else if others.isEmpty then ['>'] else []) =
        if first.isOpen || !others.isEmpty then [] else ['>'] := by
      cases first.isOpen <;> cases others.isEmpty <;> rfl
    rwa [hshown] at htext

theorem Member.sealed_text : ∀ member : Member, Sealed (fun _ => true) member.text
  | .mk name optional type _ => by
    rw [Member.text]
    have hmark : Sealed (fun _ => true) (if optional then ['?'] else []) := by
      cases optional
      · exact sealed_nil
      · exact sealed_of_all (by decide)
    exact (name.sealed_text.mono fun _ _ => rfl).append (hmark.append
      ((sealed_of_all (by decide)).append (type.cut_text.sealed_text.mono fun _ _ => rfl)))

theorem sealed_separatedTypes : ∀ types : List TypeExpr, Sealed isTypeChar (separatedTypes types)
  | [] => sealed_nil
  | type :: rest => by
    rw [separatedTypes]
    exact (sealed_of_all (by decide)).append
      (type.cut_text.sealed_text.append (sealed_separatedTypes rest))

theorem sealed_separatedMembers (commas : Bool) :
    ∀ members : List Member, Sealed (fun _ => true) (separatedMembers commas members)
  | [] => sealed_nil
  | member :: rest => by
    rw [separatedMembers]
    refine (sealed_of_all ?_).append
      (member.sealed_text.append (sealed_separatedMembers commas rest))
    split <;> decide

end

/-! ### Ends of names and types -/

theorem IsTypeName.bare {text : List Char} (h : IsTypeName text) : Bare text := by
  refine Text.bare_of_all h.1 fun c hc => ?_
  rcases h.2 c hc with hword | rfl
  · exact (Template.of_isWordChar hword).2.1
  · decide

theorem bare_literal {text : List Char} (h : IsLiteral text) : Bare text := by
  obtain ⟨hmark, -⟩ := h
  next mark body =>
  have hblank : isBlank mark = false := by
    simp only [isQuote, Bool.or_eq_true, beq_iff_eq] at hmark
    rcases hmark with (rfl | rfl) | rfl <;> decide
  exact (Text.bare_singleton hblank).join (Text.bare_singleton hblank) body

theorem MemberName.bare_text (name : MemberName) : Bare name.text := by
  cases name with
  | word text h => exact IsTypeName.bare ⟨h.1, fun c hc => Or.inl (h.2 c hc)⟩
  | quoted mark body hmark hbody =>
    refine bare_literal (.quoted ?_ hbody)
    rcases hmark with rfl | rfl <;> rfl

theorem TypeExpr.bare_shown (type : TypeExpr) : Bare type.shown := by
  match type with
  | .name text h => exact h.bare
  | .literal text h => exact bare_literal h
  | .group inner =>
    exact (Text.bare_singleton (c := '(') (by decide)).join
      (Text.bare_singleton (c := ')') (by decide)) inner.text
  | .object members =>
    exact (Text.bare_singleton (c := '\x7b') (by decide)).join
      (Text.bare_singleton (c := '\x7d') (by decide))
        (' ' :: (separatedMembers false members).drop 2 ++ [' '])
  | .array element =>
    rw [shown]
    split
    · rw [List.append_nil]
      exact element.bare_shown
    · exact element.bare_shown.join (Text.bare_singleton (c := ']') (by decide)) ['[']
  | .union left right =>
    rw [shown]
    split
    · rw [List.append_nil]
      exact left.bare_shown
    · exact left.bare_shown.join right.bare_shown " | ".toList
  | .function parameters result =>
    rw [shown]
    exact ((Text.bare_singleton (c := '(') (by decide)).join
      (Text.bare_singleton (c := ')') (by decide)) ((separatedMembers true parameters).drop 2)).join
        result.bare_shown " => ".toList
  | .generic head h first others =>
    rw [shown]
    split
    · rw [List.append_nil]
      exact h.bare.join first.bare_shown ['<']
    · exact h.bare.join (Text.bare_singleton (c := '>') (by decide)) ('<' :: first.shown)

end PugContracts.Contract
