import Mathlib.Data.List.Basic
import PugContracts.Proofs.Contract.TypeText
import PugContracts.Proofs.Template.Headers

/-!
# Reading the members of a shape back

A shape is written with one member after the other, with blanks and comments around each. Without
its comments it is cut at semicolons, then at commas, and every piece is read as a member. The
first piece of a member holds its name and its type, or what is left of the type
(`Member.shown`); the others hold no colon and are no members. So a member is read by itself,
whatever stands next to it.

A name in quotes that holds a parenthesis is taken for a method with its parameters, and one with
nothing in its quotes for no name. Other names are *legible*.

## Main definitions

* `Entry`: a member with the blanks and comments around it.
* `objectText`: how a shape is written.

## Main results

* `filterMap_pieces`: one member is read from its pieces.
* `Member.read?_shown_eq_field_iff`: which members are read as they are.
* `members_ofText`: the shape that is read.
-/

namespace PugContracts.Contract

open Text (Bare isBlank)
open Scan (Through Filler pieces)
open Template (isWordChar)

/-! ### Members -/

/-- No semicolon and no comma. -/
def isMemberChar (c : Char) : Bool :=
  c != ';' && c != ','

theorem isMemberChar_of_isClosedChar {c : Char} (hc : isClosedChar c = true) :
    isMemberChar c = true := by
  obtain ⟨htype, hcomma⟩ := of_isClosedChar hc
  simp [isMemberChar, (of_isTypeChar htype).1, hcomma]

/-- Whether a name is read as it is: neither as a method nor as no name. -/
def MemberName.isLegible : MemberName → Bool
  | word _ _ => true
  | quoted _ body _ _ => !body.isEmpty && !body.contains '('

namespace Member

/-- What stands before the colon. -/
def head (member : Member) : List Char :=
  member.name.text ++ if member.optional then ['?'] else []

/-- What is left of a member: its name and what is left of its type. -/
def shown (member : Member) : List Char :=
  member.head ++ ':' :: ' ' :: member.type.shown

/-- The field that the member stands for. -/
def field (member : Member) : ShapeField :=
  ⟨String.ofList member.name.value, String.ofList member.type.text, member.optional⟩

/-- The field that is read from what is left of the member. -/
def shownField (member : Member) : ShapeField :=
  { member.field with typeText := String.ofList member.type.shown }

theorem text_eq (member : Member) :
    member.text = member.head ++ ':' :: ' ' :: member.type.text := by
  obtain ⟨name, optional, type, comma⟩ := member
  rw [Member.text, head, List.append_assoc]
  rfl

theorem sealed_head (member : Member) : Sealed isClosedChar member.head := by
  refine member.name.sealed_text.append ?_
  cases member.optional
  · exact sealed_nil
  · exact sealed_of_all (by decide)

theorem sealed_shown (member : Member) : Sealed isMemberChar member.shown := by
  have hcolon : Sealed isMemberChar [':', ' '] := sealed_of_all (by decide)
  exact (member.sealed_head.mono fun _ => isMemberChar_of_isClosedChar).append
    (hcolon.append (member.type.cut_text.left.mono fun _ => isMemberChar_of_isClosedChar))

/-- What is not left of an open member has a comma before it, and no colon or semicolon in it. -/
theorem exists_text_eq {member : Member} (hopen : member.type.isOpen = true) :
    ∃ hidden, member.text = member.shown ++ ',' :: hidden ∧ Sealed isTypeChar hidden := by
  obtain ⟨hidden, htext, hhidden⟩ := member.type.cut_text.hidden hopen
  refine ⟨hidden, ?_, hhidden⟩
  rw [text_eq, htext, shown]
  simp

theorem text_eq_shown {member : Member} (hclosed : member.type.isOpen = false) :
    member.text = member.shown := by
  rw [text_eq, shown, member.type.cut_text.whole hclosed]

theorem bare_head (member : Member) : Bare member.head := by
  rw [head]
  split
  · exact member.name.bare_text.join (Text.bare_singleton (c := '?') (by decide)) []
  · rw [List.append_nil]
    exact member.name.bare_text

theorem bare_shown (member : Member) : Bare member.shown :=
  member.bare_head.join member.type.bare_shown [':', ' ']

end Member

/-! ### Reading a member -/

namespace MemberName

/-- A name does not start like an index signature. -/
theorem exists_text_eq_cons (name : MemberName) : ∃ c rest, name.text = c :: rest ∧ c ≠ '[' := by
  cases name with
  | word text h =>
    obtain ⟨c, rest, rfl⟩ := List.exists_cons_of_ne_nil h.1
    refine ⟨c, rest, rfl, ?_⟩
    rintro rfl
    exact absurd (h.2 _ List.mem_cons_self) (by decide)
  | quoted mark body hmark hbody =>
    refine ⟨mark, _, rfl, ?_⟩
    rcases hmark with rfl | rfl <;> decide

/-- It does not start with a modifier either. -/
theorem afterPrefix?_readonly (name : MemberName) (mark : List Char) (hmark : ' ' ∉ mark) :
    Text.afterPrefix? "readonly ".toList (name.text ++ mark) = none := by
  cases name with
  | word text h =>
    refine Text.afterPrefix?_eq_none (c := ' ') (by decide) ?_
    rw [List.mem_append, not_or]
    exact ⟨fun hmem => absurd (h.2 _ hmem) (by decide), hmark⟩
  | quoted quote body hquote hbody => rcases hquote with rfl | rfl <;> rfl

theorem splitOptional_text (name : MemberName) (optional : Bool) :
    ShapeField.splitOptional (name.text ++ if optional then ['?'] else []) =
      (name.text, optional) := by
  cases optional with
  | true =>
    rw [if_pos rfl, ShapeField.splitOptional, Text.beforeSuffix?_singleton, if_pos rfl]
    dsimp only
    rw [Text.trimEnd_eq_self name.bare_text.last]
  | false =>
    have hlast : ∃ before c, name.text = before ++ [c] ∧ c ≠ '?' := by
      cases name with
      | word text h =>
        refine ⟨text.dropLast, text.getLast h.1, (List.dropLast_concat_getLast h.1).symm, ?_⟩
        intro hmark
        exact absurd (h.2 _ (hmark ▸ List.getLast_mem h.1)) (by decide)
      | quoted mark body hmark hbody =>
        refine ⟨mark :: body, mark, rfl, ?_⟩
        rcases hmark with rfl | rfl <;> decide
    obtain ⟨before, c, htext, hc⟩ := hlast
    rw [if_neg Bool.false_ne_true, List.append_nil, ShapeField.splitOptional, htext,
      Text.beforeSuffix?_singleton, if_neg (Ne.symm hc)]

theorem unquote_text (name : MemberName) : ShapeField.unquote name.text = name.value := by
  have hquoted (mark : Char) (body : List Char) :
      (Text.afterPrefix? [mark] (mark :: (body ++ [mark]))).bind (Text.beforeSuffix? [mark]) =
        some body := by
    rw [Text.afterPrefix?, if_pos rfl, Text.afterPrefix?, Option.bind_some,
      Text.beforeSuffix?_singleton, if_pos rfl]
  cases name with
  | word text h =>
    have hnone (mark : Char) (hmark : isWordChar mark = false) :
        Text.afterPrefix? [mark] text = none := by
      refine Text.afterPrefix?_eq_none List.mem_cons_self fun hmem => ?_
      rw [h.2 _ hmem] at hmark
      cases hmark
    rw [MemberName.text, MemberName.value, ShapeField.unquote]
    simp [hnone '"' (by decide), hnone '\'' (by decide)]
  | quoted mark body hmark hbody =>
    rw [MemberName.text, MemberName.value, ShapeField.unquote]
    rcases hmark with rfl | rfl
    · simp only [hquoted]
      rfl
    · simp only [hquoted]
      rfl

end MemberName

theorem MemberName.isLegible_iff (name : MemberName) :
    name.isLegible = true ↔ name.value ≠ [] ∧ '(' ∉ name.value := by
  cases name with
  | word text h =>
    exact iff_of_true rfl ⟨h.1, fun hmem => absurd (h.2 _ hmem) (by decide)⟩
  | quoted mark body hmark hbody => simp [MemberName.isLegible, MemberName.value]

/-- A parenthesis before the colon is one in the name. -/
theorem Member.mem_head_iff (member : Member) : '(' ∈ member.head ↔ '(' ∈ member.name.value := by
  have hmark : '(' ∉ (if member.optional then ['?'] else []) := by
    cases member.optional <;> decide
  rw [Member.head, List.mem_append, or_iff_left hmark]
  cases member.name with
  | word text h => rfl
  | quoted mark body hquote hbody =>
    rcases hquote with rfl | rfl <;> simp [MemberName.text, MemberName.value]

/-! ### Members that are read -/

namespace ShapeField

theorem of_mem_splitOptional {head : List Char} {c : Char} (hc : c ∈ (splitOptional head).1) :
    c ∈ head := by
  rw [splitOptional] at hc
  split at hc
  · next before hbefore =>
    rw [Text.eq_of_beforeSuffix? hbefore]
    exact List.mem_append_left _ (Text.mem_of_mem_trimEnd hc)
  · exact hc

theorem of_mem_unquote {text : List Char} {c : Char} (hc : c ∈ unquote text) : c ∈ text := by
  have hinner (mark : Char) {inner : List Char} (hmem : c ∈ inner)
      (h : (Text.afterPrefix? [mark] text).bind (Text.beforeSuffix? [mark]) = some inner) :
      c ∈ text := by
    obtain ⟨after, hafter, hbefore⟩ := Option.bind_eq_some_iff.mp h
    rw [Text.afterPrefix?_eq_some_iff.mp hafter, Text.eq_of_beforeSuffix? hbefore]
    simp [hmem]
  rw [unquote] at hc
  dsimp only at hc
  cases hdouble : (Text.afterPrefix? ['"'] text).bind (Text.beforeSuffix? ['"']) with
  | some inner =>
    rw [hdouble] at hc
    exact hinner '"' hc hdouble
  | none =>
    cases hsingle : (Text.afterPrefix? ['\''] text).bind (Text.beforeSuffix? ['\'']) with
    | some inner =>
      rw [hdouble, hsingle] at hc
      exact hinner '\'' hc hsingle
    | none =>
      rw [hdouble, hsingle] at hc
      exact hc

end ShapeField

namespace Member

/-- What is read of a member is made from its head and what is left of its type. -/
theorem read?_shown_eq (member : Member) :
    ShapeField.read? member.shown =
      let (head, type) := ShapeField.splitMethod member.head member.type.shown
      let (head, optional) := ShapeField.splitOptional head
      let name := ShapeField.unquote head
      if name.isEmpty then none
      else some ⟨String.ofList name, String.ofList type, optional⟩ := by
  have hmember : (member.shown.isEmpty || member.shown.head? == some '[') = false := by
    obtain ⟨c, rest, htext, hc⟩ := member.name.exists_text_eq_cons
    rw [shown, head, htext]
    simp [hc]
  have hhead : pieces false ':' member.shown = [member.head, ' ' :: member.type.shown] := by
    have hcolon : ∀ c, isClosedChar c = true → c ≠ ':' := fun c hc =>
      (of_isTypeChar (of_isClosedChar hc).1).2
    have hspace : Sealed isClosedChar [' '] := sealed_of_all (by decide)
    have htype : Sealed isClosedChar (' ' :: member.type.shown) :=
      hspace.append member.type.cut_text.left
    rw [shown, member.sealed_head.through.pieces_append hcolon (by decide), pieces,
      htype.through.piecesFrom_eq_singleton trivial hcolon]
  have htype : Text.trim ([' ' :: member.type.shown].intersperse [':']).flatten =
      member.type.shown := by
    rw [List.intersperse_singleton, List.flatten_singleton, Text.trim_blank_cons (by decide),
      member.type.bare_shown.trim]
  have hreadonly : Text.afterPrefix? "readonly ".toList member.head = none := by
    refine member.name.afterPrefix?_readonly _ ?_
    cases member.optional <;> decide
  simp only [ShapeField.read?, member.bare_shown.trim, hmember, hhead, htype, hreadonly,
    member.bare_head.trim, Bool.false_eq_true, if_false, Option.map_none, Option.getD_none]

/-- A member that is no method is read, unless nothing is in the quotes of its name. -/
theorem read?_shown_of_notMem {member : Member} (hmethod : '(' ∉ member.name.value) :
    ShapeField.read? member.shown =
      if member.name.value.isEmpty then none else some member.shownField := by
  rw [read?_shown_eq, ShapeField.splitMethod,
    Text.cutAtChar?_eq_none (mt member.mem_head_iff.mp hmethod)]
  dsimp only
  rw [head, MemberName.splitOptional_text]
  dsimp only
  rw [MemberName.unquote_text]
  rfl

/-- **Legible members** are read, with what is left of their types. -/
theorem read?_shown_of_isLegible {member : Member} (h : member.name.isLegible = true) :
    ShapeField.read? member.shown = some member.shownField := by
  obtain ⟨hname, hmethod⟩ := member.name.isLegible_iff.mp h
  rw [read?_shown_of_notMem hmethod, if_neg (by simp [hname])]

/-- **Of another member**, no field of its name is read: a method has no parenthesis in its name. -/
theorem name_ne_of_read?_shown {member : Member} (h : member.name.isLegible = false)
    {field : ShapeField} (hread : ShapeField.read? member.shown = some field) :
    field.name ≠ String.ofList member.name.value := by
  by_cases hmethod : '(' ∈ member.name.value
  · obtain ⟨before, after, hcut, hbefore⟩ :=
      List.eq_append_cons_of_mem (member.mem_head_iff.mpr hmethod)
    rw [read?_shown_eq, ShapeField.splitMethod, hcut, Text.cutAtChar?_append hbefore] at hread
    dsimp only at hread
    split at hread
    · cases hread
    · obtain rfl := Option.some.inj hread
      intro hname
      rw [← String.ofList_injective hname] at hmethod
      exact hbefore (Text.mem_of_mem_trim
        (ShapeField.of_mem_splitOptional (ShapeField.of_mem_unquote hmethod)))
  · have hempty : member.name.value = [] := by
      by_contra hne
      rw [member.name.isLegible_iff.mpr ⟨hne, hmethod⟩] at h
      cases h
    rw [read?_shown_of_notMem hmethod, hempty] at hread
    cases hread

theorem read?_shown_eq_field_iff (member : Member) :
    ShapeField.read? member.shown = some member.field ↔
      member.name.isLegible = true ∧ member.type.isOpen = false := by
  constructor
  · intro hread
    have hlegible : member.name.isLegible = true := by
      by_contra h
      exact name_ne_of_read?_shown (Bool.eq_false_iff.mpr h) hread rfl
    refine ⟨hlegible, Bool.eq_false_iff.mpr fun hopen => ?_⟩
    rw [read?_shown_of_isLegible hlegible] at hread
    have htext := String.ofList_injective (congrArg ShapeField.typeText (Option.some.inj hread))
    obtain ⟨hidden, hcut, -⟩ := member.type.cut_text.hidden hopen
    rw [hcut] at htext
    simp at htext
  · rintro ⟨hlegible, hclosed⟩
    rw [read?_shown_of_isLegible hlegible, shownField, member.type.cut_text.whole hclosed]
    rfl

end Member

/-! ### Members with blanks around them -/

theorem read?_eq_of_trim_eq {a b : List Char} (h : Text.trim a = Text.trim b) :
    ShapeField.read? a = ShapeField.read? b := by
  rw [ShapeField.read?, h]
  rfl

/-- A text without a colon is no member. -/
theorem read?_eq_none {text : List Char} {s : Scan.State}
    (h : Through isTypeChar .start text s) : ShapeField.read? text = none := by
  obtain ⟨s, htrim⟩ := h.trim
  have hpiece : pieces false ':' (Text.trim text) = [Text.trim text] :=
    htrim.piecesFrom_eq_singleton trivial fun c hc => (of_isTypeChar hc).2
  rw [ShapeField.read?]
  dsimp only
  rw [hpiece]
  split <;> rfl

theorem isBlank_of_mem_space : ∀ c ∈ [' '], isBlank c = true :=
  List.forall_mem_singleton.mpr (by decide)

theorem through_blanks {text : List Char} (h : ∀ c ∈ text, isBlank c = true) :
    Through isClosedChar .start text .start := by
  refine Scan.through_of_all (List.all_eq_true.mpr fun c hc => ?_) (Int.le_refl 0)
  have hnot : ∀ d, isBlank d = false → c ≠ d := by
    rintro d hd rfl
    rw [h c hc] at hd
    cases hd
  simp [Scan.isPassive_of_isBlank (h c hc), isClosedChar, isTypeChar, hnot ';' (by decide),
    hnot ',' (by decide), hnot ':' (by decide)]

/-- **From its pieces a member is read by itself**: what is left of it is in the first one, and the
others are no members. -/
theorem filterMap_pieces (member : Member) {before after : List Char}
    (hbefore : ∀ c ∈ before, isBlank c = true) (hafter : ∀ c ∈ after, isBlank c = true) :
    (pieces false ',' (before ++ (member.text ++ after))).filterMap ShapeField.read? =
      (ShapeField.read? member.shown).toList := by
  have hcomma : ∀ c, isMemberChar c = true → c ≠ ',' := fun c hc => by
    simp only [isMemberChar, Bool.and_eq_true, bne_iff_ne] at hc
    exact hc.2
  have hstart := (through_blanks hbefore).mono fun _ => isMemberChar_of_isClosedChar
  have hread (rest : List Char) (hrest : ∀ c ∈ rest, isBlank c = true) :
      ShapeField.read? (before ++ (member.shown ++ rest)) = ShapeField.read? member.shown := by
    refine read?_eq_of_trim_eq ?_
    rw [member.bare_shown.trim_eq hbefore hrest, member.bare_shown.trim]
  cases hopen : member.type.isOpen with
  | false =>
    have hrow : Through isMemberChar .start (before ++ (member.shown ++ after)) .start :=
      hstart.append (member.sealed_shown.through.append
        ((through_blanks hafter).mono fun _ => isMemberChar_of_isClosedChar))
    rw [Member.text_eq_shown hopen, pieces, hrow.piecesFrom_eq_singleton trivial hcomma,
      List.filterMap_cons, hread after hafter]
    cases ShapeField.read? member.shown <;> rfl
  | true =>
    -- the first comma of the type ends the first piece
    obtain ⟨hidden, htext, hhidden⟩ := Member.exists_text_eq hopen
    have hfirst := hstart.append member.sealed_shown.through
    have hend := (through_blanks hafter).mono fun _ hc => (of_isClosedChar hc).1
    have hothers : (pieces false ',' (hidden ++ after)).filterMap ShapeField.read? = [] := by
      rw [List.filterMap_eq_nil_iff]
      intro piece hpiece
      obtain ⟨s, hthrough⟩ := (hhidden.through.append hend).of_mem_pieces hpiece (by decide)
      exact read?_eq_none hthrough
    have hrow : before ++ (member.text ++ after) =
        (before ++ member.shown) ++ ',' :: (hidden ++ after) := by
      rw [htext]
      simp
    have hshown := hread [] (by simp)
    rw [List.append_nil] at hshown
    rw [hrow, hfirst.pieces_append hcomma (by decide), List.filterMap_cons, hothers, hshown]
    cases ShapeField.read? member.shown <;> rfl

/-! ### Shapes -/

/-- A member with the blanks and comments before and after it. -/
structure Entry where
  /-- What stands before it. -/
  before : List Filler
  /-- The member. -/
  member : Member
  /-- What stands after it. -/
  after : List Filler

namespace Entry

/-- How an entry is written. -/
def text (entry : Entry) : List Char :=
  entry.before.flatMap Filler.text ++ (entry.member.text ++ entry.after.flatMap Filler.text)

/-- What is left of an entry without its comments. -/
def uncommented (entry : Entry) : List Char :=
  entry.before.map Filler.left ++ (entry.member.text ++ entry.after.map Filler.left)

/-- What separates an entry from the one before it. -/
def separator (entry : Entry) : Char :=
  if entry.member.comma then ',' else ';'

theorem separator_cases (entry : Entry) : entry.separator = ',' ∨ entry.separator = ';' := by
  rw [separator]
  cases entry.member.comma
  · exact Or.inr rfl
  · exact Or.inl rfl

theorem sealed_separator (entry : Entry) : Sealed (fun _ => true) [entry.separator, ' '] := by
  rcases entry.separator_cases with hseparator | hseparator <;> rw [hseparator] <;>
    exact sealed_of_all (by decide)

end Entry

/-- Entries with a separator before each, written with `write`. -/
def separatedEntries (write : Entry → List Char) (entries : List Entry) : List Char :=
  entries.flatMap fun entry => entry.separator :: ' ' :: write entry

/-- What stands in the braces of an object literal: its entries, with separators between them. -/
def insideText (write : Entry → List Char) (entries : List Entry) : List Char :=
  ' ' :: ((separatedEntries write entries).drop 2 ++ [' '])

/-- How a shape is written. -/
def objectText (entries : List Entry) : List Char :=
  '{' :: (insideText Entry.text entries ++ ['}'])

theorem separatedEntries_cons (write : Entry → List Char) (entry : Entry) (rest : List Entry) :
    separatedEntries write (entry :: rest) =
      entry.separator :: ' ' :: (write entry ++ separatedEntries write rest) := by
  rw [separatedEntries, List.flatMap_cons]
  rfl

theorem insideText_cons (write : Entry → List Char) (entry : Entry) (rest : List Entry) :
    insideText write (entry :: rest) =
      [' '] ++ write entry ++ (separatedEntries write rest ++ [' ']) := by
  rw [insideText, separatedEntries_cons]
  simp

/-! ### Comments are removed -/

theorem stripFrom_entry (entry : Entry) (rest : List Char) :
    Scan.stripFrom .text (entry.text ++ rest) =
      entry.uncommented ++ Scan.stripFrom .text rest := by
  rw [Entry.text, Entry.uncommented, List.append_assoc, List.append_assoc, Scan.stripFrom_gap,
    entry.member.sealed_text.kept, Scan.stripFrom_gap, List.append_assoc, List.append_assoc]

theorem stripFrom_separatedEntries (entries : List Entry) (rest : List Char) :
    Scan.stripFrom .text (separatedEntries Entry.text entries ++ rest) =
      separatedEntries Entry.uncommented entries ++ Scan.stripFrom .text rest := by
  induction entries with
  | nil => rfl
  | cons entry entries ih =>
    rw [separatedEntries_cons, separatedEntries_cons]
    show Scan.stripFrom .text
      ([entry.separator, ' '] ++ (entry.text ++ separatedEntries Entry.text entries) ++ rest) = _
    rw [List.append_assoc, entry.sealed_separator.kept, List.append_assoc, stripFrom_entry, ih]
    simp

theorem stripComments_objectText (entries : List Entry) :
    Scan.stripComments (objectText entries) =
      '{' :: (insideText Entry.uncommented entries ++ ['}']) := by
  have hopen : Scan.Kept ['{', ' '] := by
    refine Scan.kept_of_all fun c hc => ?_
    simp only [List.mem_cons, List.not_mem_nil, or_false] at hc
    rcases hc with rfl | rfl <;> decide
  have hclose : Scan.stripFrom .text [' ', '}'] = [' ', '}'] := rfl
  cases entries with
  | nil => rfl
  | cons entry rest =>
    have htext (write : Entry → List Char) : '{' :: (insideText write (entry :: rest) ++ ['}']) =
        ['{', ' '] ++ (write entry ++ (separatedEntries write rest ++ [' ', '}'])) := by
      rw [insideText_cons]
      simp
    rw [objectText, htext, htext, Scan.stripComments, hopen, stripFrom_entry,
      stripFrom_separatedEntries, hclose]

/-! ### Cutting at separators -/

/-- The pieces of a text between its semicolons and commas. -/
def cuts (text : List Char) : List (List Char) :=
  (pieces false ';' text).flatMap (pieces false ',')

/-- Both passes cut at a separator of either sort. -/
theorem cuts_append {text : List Char} {sep : Char} (h : Through (· != ';') .start text .start)
    (hsep : sep = ',' ∨ sep = ';') (after : List Char) :
    cuts (text ++ sep :: after) = pieces false ',' text ++ cuts after := by
  have hsemicolon : ∀ c : Char, (c != ';') = true → c ≠ ';' := fun c => bne_iff_ne.mp
  rcases hsep with rfl | rfl
  · -- the first pass goes on over the comma, the second one cuts there
    have hcomma : Through (· != ';') .start (text ++ [',']) .start :=
      h.append (Scan.through_of_isPassive (by decide) (by decide) (Int.le_refl 0))
    obtain ⟨first, others, hpieces⟩ :=
      List.exists_cons_of_ne_nil (Scan.piecesFrom_ne_nil false ';' .start after)
    have hrest : pieces false ';' after = first :: others := hpieces
    have hfirst : pieces false ';' (text ++ ',' :: after) =
        (text ++ ',' :: first) :: others := by
      have happend := hcomma.piecesFrom_append trivial hsemicolon after
      rw [hpieces, List.modifyHead_cons, List.append_assoc, List.append_assoc] at happend
      exact happend
    have hplain : Scan.State.start.Plain := trivial
    have hcut : pieces false ',' (text ++ ',' :: first) =
        pieces false ',' text ++ pieces false ',' first :=
      Scan.piecesFrom_append_sep (by decide) hplain (h.endState hplain) first
    rw [cuts, cuts, hfirst, hrest, List.flatMap_cons, List.flatMap_cons, hcut, List.append_assoc]
  · rw [cuts, h.pieces_append hsemicolon (by decide), List.flatMap_cons]
    rfl

theorem cuts_eq_pieces {text : List Char} {s : Scan.State}
    (h : Through (· != ';') .start text s) : cuts text = pieces false ',' text := by
  rw [cuts, pieces, h.piecesFrom_eq_singleton trivial fun c => bne_iff_ne.mp,
    List.flatMap_singleton]

/-! ### The entries of a literal -/

namespace Entry

theorem isBlank_of_mem_left {gap : List Filler} :
    ∀ c ∈ gap.map Filler.left, isBlank c = true := by
  intro c hc
  obtain ⟨filler, -, rfl⟩ := List.mem_map.mp hc
  exact filler.isBlank_left

/-- No semicolon of an entry stands outside of its brackets and strings, wherever it stands among
blanks. -/
theorem through_uncommented (entry : Entry) {before : List Char}
    (hbefore : ∀ c ∈ before, isBlank c = true) :
    Through (· != ';') .start (before ++ entry.uncommented) .start := by
  have htype : ∀ c, isTypeChar c = true → (c != ';') = true := fun c hc =>
    bne_iff_ne.mpr (of_isTypeChar hc).1
  have hclosed : ∀ c, isClosedChar c = true → (c != ';') = true := fun c hc =>
    htype c (of_isClosedChar hc).1
  have hcolon : Sealed (· != ';') [':', ' '] := sealed_of_all (by decide)
  have hmember : Through (· != ';') .start entry.member.text .start := by
    rw [Member.text_eq]
    exact (entry.member.sealed_head.through.mono hclosed).append
      (hcolon.through.append (entry.member.type.cut_text.sealed_text.through.mono htype))
  exact ((through_blanks hbefore).mono hclosed).append
    (((through_blanks isBlank_of_mem_left).mono hclosed).append
      (hmember.append ((through_blanks isBlank_of_mem_left).mono hclosed)))

/-- An entry is read by itself. -/
theorem filterMap_uncommented (entry : Entry) {before after : List Char}
    (hbefore : ∀ c ∈ before, isBlank c = true) (hafter : ∀ c ∈ after, isBlank c = true) :
    (pieces false ',' (before ++ entry.uncommented ++ after)).filterMap ShapeField.read? =
      (ShapeField.read? entry.member.shown).toList := by
  have hjoin {a b : List Char} (ha : ∀ c ∈ a, isBlank c = true) (hb : ∀ c ∈ b, isBlank c = true) :
      ∀ c ∈ a ++ b, isBlank c = true := fun c hc =>
    (List.mem_append.mp hc).elim (ha c) (hb c)
  have hspread : before ++ entry.uncommented ++ after =
      (before ++ entry.before.map Filler.left) ++
        (entry.member.text ++ (entry.after.map Filler.left ++ after)) := by
    simp [Entry.uncommented]
  rw [hspread, filterMap_pieces entry.member (hjoin hbefore isBlank_of_mem_left)
    (hjoin isBlank_of_mem_left hafter)]

end Entry

/-- **Each entry is read by itself**, whatever the entries next to it. -/
theorem filterMap_cuts (entry : Entry) (rest : List Entry) {before : List Char}
    (hbefore : ∀ c ∈ before, isBlank c = true) :
    (cuts (before ++ entry.uncommented ++ (separatedEntries Entry.uncommented rest ++
      [' ']))).filterMap ShapeField.read? =
      (entry :: rest).flatMap fun entry => (ShapeField.read? entry.member.shown).toList := by
  have hspace := isBlank_of_mem_space
  have hentry := entry.through_uncommented hbefore
  rw [List.flatMap_cons]
  induction rest generalizing entry before with
  | nil =>
    have hlast : Through (· != ';') .start (before ++ entry.uncommented ++ [' ']) .start :=
      hentry.append (Scan.through_of_isPassive (by decide) (by decide) (Int.le_refl 0))
    rw [List.flatMap_nil, List.append_nil]
    show (cuts (before ++ entry.uncommented ++ [' '])).filterMap ShapeField.read? = _
    rw [cuts_eq_pieces hlast, entry.filterMap_uncommented hbefore hspace]
  | cons next rest ih =>
    have hnext : separatedEntries Entry.uncommented (next :: rest) ++ [' '] =
        next.separator :: ([' '] ++ next.uncommented ++
          (separatedEntries Entry.uncommented rest ++ [' '])) := by
      rw [separatedEntries_cons]
      simp
    have hnil : ∀ c ∈ ([] : List Char), isBlank c = true := by simp
    have hfirst := entry.filterMap_uncommented hbefore hnil
    rw [List.append_nil] at hfirst
    rw [hnext, cuts_append hentry next.separator_cases, List.filterMap_append, hfirst,
      ih next hspace (next.through_uncommented hspace), List.flatMap_cons]

/-- What stands in the braces closes what it opens. -/
theorem through_insideText (entries : List Entry) :
    Through (fun _ => true) .start (insideText Entry.uncommented entries) .start := by
  have hspace := isBlank_of_mem_space
  have hnil : ∀ c ∈ ([] : List Char), isBlank c = true := by simp
  have hentry (entry : Entry) : Through (fun _ => true) .start entry.uncommented .start :=
    (entry.through_uncommented hnil).mono fun _ _ => rfl
  have hseparated (entries : List Entry) : Through (fun _ => true) .start
      (separatedEntries Entry.uncommented entries) .start := by
    induction entries with
    | nil => exact .nil _
    | cons entry rest ih =>
      have happend := entry.sealed_separator.through.append ((hentry entry).append ih)
      rw [separatedEntries_cons]
      simpa using happend
  cases entries with
  | nil =>
    exact ((through_blanks hspace).append (through_blanks hspace)).mono fun _ _ => rfl
  | cons entry rest =>
    rw [insideText_cons]
    exact (((through_blanks hspace).mono fun _ _ => rfl).append (hentry entry)).append
      ((hseparated rest).append ((through_blanks hspace).mono fun _ _ => rfl))

/-- **The shape that is read** has what is read of each of its entries. -/
theorem ofText_objectText (entries : List Entry) :
    Shape.ofText (objectText entries) =
      ⟨entries.filterMap fun entry => ShapeField.read? entry.member.shown, true⟩ := by
  have hbare : Bare ('{' :: (insideText Entry.uncommented entries ++ ['}'])) :=
    (Text.bare_singleton (c := '\x7b') (by decide)).join
      (Text.bare_singleton (c := '\x7d') (by decide)) (insideText Entry.uncommented entries)
  have hlast : Text.dropTrailing (· == ';')
      ('{' :: (insideText Entry.uncommented entries ++ ['}'])) =
        '{' :: (insideText Entry.uncommented entries ++ ['}']) :=
    Text.dropTrailing_append_singleton (by decide) ('{' :: insideText Entry.uncommented entries)
  have hgroup : Scan.group? ('{' :: (insideText Entry.uncommented entries ++ ['}'])) =
      some (insideText Entry.uncommented entries, []) :=
    (through_insideText entries).group? rfl rfl []
  have hcuts : (cuts (insideText Entry.uncommented entries)).filterMap ShapeField.read? =
      entries.filterMap fun entry => ShapeField.read? entry.member.shown := by
    rw [List.filterMap_eq_flatMap_toList
      (fun entry : Entry => ShapeField.read? entry.member.shown)]
    cases entries with
    | nil => rfl
    | cons entry rest =>
      rw [insideText_cons]
      exact filterMap_cuts entry rest isBlank_of_mem_space
  rw [Shape.ofText, stripComments_objectText, hbare.trim]
  dsimp only
  rw [hlast, Text.trimEnd_eq_self hbare.last, hgroup]
  exact congrArg (Shape.mk · true) hcuts

/-- **Members are read back**, in order and each by itself: all of them with their names, question
marks and the texts of their types, if and only if no name is taken for a method or for none and no
type has a comma outside of its brackets. With such a comma, the text of the type is what stands
before it. -/
theorem members_ofText (entries : List Entry) :
    (Shape.ofText (objectText entries)).objectLiteral = true ∧
    ((∀ entry ∈ entries, entry.member.name.isLegible = true) →
      (Shape.ofText (objectText entries)).fields =
        entries.map fun entry => entry.member.shownField) ∧
    ((Shape.ofText (objectText entries)).fields = (entries.map fun entry => entry.member.field) ↔
      ∀ entry ∈ entries,
        entry.member.name.isLegible = true ∧ entry.member.type.isOpen = false) := by
  rw [ofText_objectText]
  refine ⟨rfl, fun hlegible => ?_, ?_⟩
  · exact List.filterMap_eq_map_iff_forall_eq_some.mpr fun entry hentry =>
      Member.read?_shown_of_isLegible (hlegible entry hentry)
  · rw [List.filterMap_eq_map_iff_forall_eq_some]
    exact forall₂_congr fun entry _ => entry.member.read?_shown_eq_field_iff

example : Shape.ofText "\x7b a: Map<string, number> \x7d".toList =
    ⟨[⟨"a", "Map<string", false⟩], true⟩ := by
  decide

end PugContracts.Contract
