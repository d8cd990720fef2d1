import PugContracts.Proofs.Template.Operand
import PugContracts.Proofs.Text.Ends

/-!
# Attribute lists

A value in an attribute list ends at a comma, or at a blank after which the next attribute seems to
start. The blanks inside a value stand beside its operators, and an operand behind an operator may
well look like an attribute: a bare name at the end of a value does, and so does a string there. The
list is then cut in the middle of the value.

`LooksLikeAttribute` says of an operand and of the operator after it when this happens. It depends
on nothing else in the list, so a list is read back as it was written if and only if no operand of
it but the first one of a value is of that kind.

## Main results

* `startsAttribute_operand`: which operands are taken for an attribute.
* `splitAttributeValue_others`: where a value is cut.
* `attributesFrom_list`: which lists are read back as they were written.
-/

namespace PugContracts.Template

open Scan (Through)
open Statement (isTagChar not_isBlank_of_isTagChar)

variable {operand left follow rest name assigned : List Char} {c : Char} {next : Option Operator}

/-! ### What looks like an attribute -/

/-- What an attribute name ends before: a comma or the sign before a value. -/
inductive EndsName : List Char → Prop
  | comma (rest : List Char) : EndsName (',' :: rest)
  | unescaped (rest : List Char) : EndsName ('!' :: '=' :: rest)
  | equals {rest : List Char} (h : rest.head? ≠ some '=') : EndsName ('=' :: rest)

/-- A text that looks like the name of an attribute if the other text follows: a text in quotation
marks, or a run of characters of a name to its end. -/
inductive LooksLikeName : List Char → List Char → Prop
  | quoted {mark : Char} {name : List Char} (after : List Char) (hmark : isNameQuote mark = true)
      (hname : mark ∉ name) : LooksLikeName (mark :: (name ++ [mark])) after
  | bare {c : Char} {rest after : List Char} (hc : isLikelyNameStart c = true)
      (hrest : ∀ d ∈ rest, isLikelyNameChar d = true)
      (hafter : ∀ d ∈ after.head?, isLikelyNameChar d = false) : LooksLikeName (c :: rest) after

/-- An operand looks like an attribute. Either it is a name as a whole, and it ends the value or
stands before `!==`; or it starts with a name, and the sign that ends this name is a part of the
operand, as the comma in `f(a, b)` is. -/
inductive LooksLikeAttribute (operand : List Char) (next : Option Operator) : Prop
  | whole (hname : LooksLikeName operand []) (hnext : next = none ∨ next = some .unequal)
  | start {name blanks rest : List Char} (hoperand : operand = name ++ (blanks ++ rest))
      (hname : LooksLikeName name (blanks ++ rest)) (hblanks : ∀ c ∈ blanks, Text.isBlank c = true)
      (hrest : EndsName rest)

/-- What can follow an operand: the next operator, or else the next attribute or nothing. -/
inductive FollowedBy : Option Operator → List Char → Prop
  | last : FollowedBy none []
  | comma (rest : List Char) : FollowedBy none (',' :: rest)
  | operator (operator : Operator) (rest : List Char) :
      FollowedBy (some operator) (' ' :: (operator.text ++ ' ' :: rest))

theorem endsAttributeName_iff {cs : List Char} :
    endsAttributeName cs = true ↔ Text.trimStart cs = [] ∨ EndsName (Text.trimStart cs) := by
  rw [endsAttributeName]
  generalize Text.trimStart cs = trimmed
  constructor
  · intro h
    split at h
    · exact Or.inl rfl
    · exact Or.inr (.comma _)
    · exact Or.inr (.unescaped _)
    · cases h
    · next rest hsingle =>
      refine Or.inr (.equals fun hhead => ?_)
      obtain ⟨tail, rfl⟩ := List.head?_eq_some_iff.mp hhead
      exact hsingle tail rfl
    · cases h
  · rintro (rfl | hends)
    · rfl
    · cases hends with
      | comma => rfl
      | unescaped => rfl
      | @equals rest h =>
        cases rest with
        | nil => rfl
        | cons d rest =>
          split <;> first
            | rfl
            | next heq => exact absurd (by cases heq; rfl) h
            | next hsingle => exact absurd rfl (hsingle _)

theorem endsAttributeName_eq_false (hblank : Text.isBlank c = false) (hcomma : c ≠ ',')
    (hequals : c ≠ '=') (hbang : c ≠ '!') (rest : List Char) :
    endsAttributeName (' ' :: c :: rest) = false := by
  refine Bool.eq_false_iff.mpr fun h => ?_
  have htrim : Text.trimStart (' ' :: c :: rest) = c :: rest := by
    simp [Text.trimStart, List.dropWhile, show Text.isBlank ' ' = true by decide, hblank]
  rw [endsAttributeName_iff, htrim] at h
  rcases h with h | h
  · cases h
  · cases h <;> contradiction

theorem endsAttributeName_followedBy (h : FollowedBy next follow) :
    endsAttributeName follow = true ↔ next = none ∨ next = some .unequal := by
  cases h with
  | last => simp [endsAttributeName, Text.trimStart]
  | comma rest => simp [show endsAttributeName (',' :: rest) = true from rfl]
  | operator operator rest =>
    cases operator with
    | unequal => exact iff_of_true rfl (Or.inr rfl)
    | _ => exact iff_of_false (fun h => by cases h) (by simp)

/-! ### Where an operand looks like an attribute -/

theorem EndsName.head (h : EndsName rest) : ∃ c tail, rest = c :: tail ∧ Text.isBlank c = false ∧
    endsOperand c = false := by
  cases h with
  | comma => exact ⟨_, _, rfl, by decide, by decide⟩
  | unescaped => exact ⟨_, _, rfl, by decide, by decide⟩
  | equals => exact ⟨_, _, rfl, by decide, by decide⟩

/-- The sign that ends a name lies within the operand, which ends otherwise. -/
theorem EndsName.append_iff (hlast : ∃ before c, rest = before ++ [c] ∧ endsOperand c = true) :
    EndsName (rest ++ follow) ↔ EndsName rest := by
  obtain ⟨before, c, rfl, hc⟩ := hlast
  cases before with
  | nil =>
    refine iff_of_false (fun h => ?_) fun h => ?_
    all_goals
      obtain ⟨d, tail, hd, -, hnot⟩ := h.head
      cases hd
      rw [hc] at hnot
      cases hnot
  | cons d before =>
    obtain ⟨e, tail, htail⟩ : ∃ e tail, before ++ [c] = e :: tail := by
      cases before with
      | nil => exact ⟨c, [], rfl⟩
      | cons e before => exact ⟨e, before ++ [c], rfl⟩
    rw [List.cons_append, htail, List.cons_append, List.cons_append]
    -- the signs are told by their first two characters, which lie in the operand
    constructor
    all_goals
      intro h
      cases h with
      | comma => exact .comma _
      | unescaped => exact .unescaped _
      | equals h => exact .equals h

/-- A name ends within an operand where a sign follows it, perhaps after blanks. -/
theorem endsAttributeName_append_iff
    (hlast : ∃ before c, left = before ++ [c] ∧ endsOperand c = true) :
    endsAttributeName (left ++ follow) = true ↔
      ∃ blanks rest, left = blanks ++ rest ∧ (∀ c ∈ blanks, Text.isBlank c = true) ∧
        EndsName rest := by
  obtain ⟨before, c, rfl, hc⟩ := hlast
  obtain ⟨hblank, -⟩ := of_endsOperand hc
  have htrim : Text.trimStart (before ++ [c]) = Text.trimStart before ++ [c] := by
    rw [Text.trimStart, List.dropWhile_append, Text.trimStart]
    split
    · next h => simp [hblank, List.isEmpty_iff.mp h]
    · rfl
  have htrimAll : Text.trimStart (before ++ [c] ++ follow) =
      Text.trimStart before ++ [c] ++ follow := by
    rw [Text.trimStart, List.dropWhile_append]
    rw [Text.trimStart] at htrim
    rw [htrim, if_neg (by simp)]
  have hends : EndsName (Text.trimStart before ++ [c] ++ follow) ↔
      EndsName (Text.trimStart before ++ [c]) := EndsName.append_iff ⟨_, c, rfl, hc⟩
  rw [endsAttributeName_iff, htrimAll, hends, or_iff_right (by simp)]
  constructor
  · intro h
    refine ⟨(before ++ [c]).takeWhile Text.isBlank, _, ?_, fun _ => List.mem_takeWhile_imp, h⟩
    rw [← htrim]
    exact List.takeWhile_append_dropWhile.symm
  · rintro ⟨blanks, rest, hleft, hblanks, hrest⟩
    obtain ⟨d, tail, rfl, hd, -⟩ := hrest.head
    have hcut : Text.trimStart (before ++ [c]) = d :: tail := by
      rw [hleft, Text.trimStart, List.dropWhile_append_of_pos hblanks]
      simp [hd]
    rwa [← htrim, hcut]

theorem isLikelyNameChar_of_isLikelyNameStart (h : isLikelyNameStart c = true) :
    isLikelyNameChar c = true ∧ isNameQuote c = false := by
  have hnot : ∀ d : Char, isLikelyNameStart d = false → c ≠ d := by
    rintro d hd rfl
    rw [hd] at h
    cases h
  refine ⟨?_, by simp [isNameQuote, hnot '"' (by decide), hnot '\'' (by decide)]⟩
  simp only [isLikelyNameStart, Bool.or_eq_true, List.contains_eq_mem, decide_eq_true_eq] at h
  rcases h with h | h
  · simp [isLikelyNameChar, Char.isAlphanum, h]
  · simp only [String.reduceToList, List.mem_cons, List.not_mem_nil, or_false] at h
    rcases h with rfl | rfl | rfl | rfl | rfl <;> decide

theorem FollowedBy.head (h : FollowedBy next follow) :
    ∀ d ∈ follow.head?, isLikelyNameChar d = false := by
  cases h with
  | last => simp
  | comma => simp [show isLikelyNameChar ',' = false by decide]
  | operator => simp [show isLikelyNameChar ' ' = false by decide]

/-- A string that the text starts with ends in it. -/
theorem mem_of_through_string {p : Char → Bool} {s s' : Scan.State} {mark : Char}
    (h : Through p s rest s') (hmode : s.mode = .quoted mark ∨ s.mode = .escaped mark)
    (hend : s'.mode = .code) : mark ∈ rest := by
  induction h with
  | nil =>
    rw [hend] at hmode
    rcases hmode with hmode | hmode <;> cases hmode
  | @cons s s' c rest inside outer tail ih =>
    obtain ⟨mode, depth⟩ := s
    rcases hmode with hmode | hmode
    · obtain rfl : mode = .quoted mark := hmode
      rw [Scan.advance_quoted] at ih
      split_ifs at ih with hescape hmark
      · exact List.mem_cons_of_mem _ (ih (Or.inr rfl) hend)
      · rw [hmark]
        exact List.mem_cons_self
      · exact List.mem_cons_of_mem _ (ih (Or.inl rfl) hend)
    · obtain rfl : mode = .escaped mark := hmode
      exact List.mem_cons_of_mem _ (ih (Or.inl rfl) hend)

theorem Unbroken.mem_of_isNameQuote (h : Unbroken (c :: rest)) (hc : isNameQuote c = true) :
    c ∈ rest := by
  have hquoted : Scan.advance .start c = ⟨.quoted c, 0⟩ := by
    simp only [isNameQuote, Bool.or_eq_true, beq_iff_eq] at hc
    rcases hc with rfl | rfl <;> rfl
  cases h.through with
  | cons inside outer tail =>
    rw [hquoted] at tail
    exact mem_of_through_string tail (Or.inl rfl) rfl

theorem startsAttribute_cons (hc : Text.isBlank c = false) (rest : List Char) :
    startsAttribute (' ' :: c :: rest) =
      if isNameQuote c then
        match Text.cutAtChar? c rest with
        | none => false
        | some (_, after) => endsAttributeName after
      else if isLikelyNameStart c then endsAttributeName ((c :: rest).dropWhile isLikelyNameChar)
      else false := by
  have htrim : Text.trimStart (' ' :: c :: rest) = c :: rest := by
    simp [Text.trimStart, List.dropWhile, show Text.isBlank ' ' = true by decide, hc]
  rw [startsAttribute]
  split
  · next heq => rw [htrim] at heq; cases heq
  · next heq =>
    rw [htrim] at heq
    obtain ⟨rfl, rfl⟩ := List.cons.inj heq
    rfl

theorem LooksLikeName.head (h : LooksLikeName name left) :
    ∃ c rest, name = c :: rest ∧ Text.isBlank c = false := by
  cases h with
  | @quoted mark rest _ hmark =>
    refine ⟨mark, rest ++ [mark], rfl, ?_⟩
    simp only [isNameQuote, Bool.or_eq_true, beq_iff_eq] at hmark
    rcases hmark with rfl | rfl <;> decide
  | @bare c rest _ hc =>
    refine ⟨c, rest, rfl, Bool.eq_false_iff.mpr fun hblank => ?_⟩
    simp only [isLikelyNameStart, Bool.or_eq_true, List.contains_eq_mem, decide_eq_true_eq] at hc
    rcases hc with hc | hc
    · rw [not_isBlank_of_isTagChar (by simp [isTagChar, Char.isAlphanum, hc])] at hblank
      cases hblank
    · simp only [String.reduceToList, List.mem_cons, List.not_mem_nil, or_false] at hc
      rcases hc with rfl | rfl | rfl | rfl | rfl <;> cases hblank

/-- Where a name stands, it is an attribute if the name ends there. -/
theorem LooksLikeName.startsAttribute (h : LooksLikeName name left)
    (hfollow : FollowedBy next follow) :
    startsAttribute (' ' :: (name ++ (left ++ follow))) = endsAttributeName (left ++ follow) := by
  obtain ⟨c, rest, rfl, hblank⟩ := h.head
  rw [List.cons_append, startsAttribute_cons hblank]
  cases h with
  | @quoted _ name _ hmark hname =>
    rw [if_pos hmark, List.append_assoc, List.singleton_append, Text.cutAtChar?_append hname]
  | bare hc hrest hafter =>
    obtain ⟨hchar, hquote⟩ := isLikelyNameChar_of_isLikelyNameStart hc
    have hhead : ∀ d ∈ (left ++ follow).head?, isLikelyNameChar d = false := by
      cases left with
      | nil => exact hfollow.head
      | cons d left => exact hafter
    rw [if_neg (by simp [hquote]), if_pos hc, ← List.cons_append,
      List.dropWhile_append_of_pos (List.forall_mem_cons.mpr ⟨hchar, hrest⟩)]
    cases hcons : left ++ follow with
    | nil => rfl
    | cons d tail => simp [hhead d (by rw [hcons]; rfl)]

/-- An operand that is taken for an attribute starts with a name. -/
theorem exists_looksLikeName (h : Unbroken operand)
    (hstarts : startsAttribute (' ' :: (operand ++ follow)) = true) :
    ∃ name left, operand = name ++ left ∧ LooksLikeName name left := by
  obtain ⟨c, rest, rfl, hc⟩ := h.head
  rw [List.cons_append, startsAttribute_cons (of_startsOperand hc).1] at hstarts
  split_ifs at hstarts with hquote hstart
  · obtain ⟨before, after, rfl, hmark⟩ :=
      List.eq_append_cons_of_mem (h.mem_of_isNameQuote hquote)
    exact ⟨c :: (before ++ [c]), after, by simp, .quoted after hquote hmark⟩
  · obtain ⟨hchar, -⟩ := isLikelyNameChar_of_isLikelyNameStart hstart
    refine ⟨(c :: rest).takeWhile isLikelyNameChar, (c :: rest).dropWhile isLikelyNameChar,
      List.takeWhile_append_dropWhile.symm, ?_⟩
    rw [List.takeWhile_cons_of_pos hchar]
    refine .bare hstart (fun _ => List.mem_takeWhile_imp) fun d hd => ?_
    have := List.head?_dropWhile_not isLikelyNameChar (c :: rest)
    rwa [hd] at this

/-- What is looked at where an operand might be an attribute: a name that the operand starts with,
and whether it ends there. -/
theorem startsAttribute_iff (h : Unbroken operand) (hfollow : FollowedBy next follow) :
    startsAttribute (' ' :: (operand ++ follow)) = true ↔
      ∃ name left, operand = name ++ left ∧ LooksLikeName name left ∧
        endsAttributeName (left ++ follow) = true := by
  constructor
  · intro hstarts
    obtain ⟨name, left, rfl, hname⟩ := exists_looksLikeName h hstarts
    rw [List.append_assoc, hname.startsAttribute hfollow] at hstarts
    exact ⟨name, left, rfl, hname, hstarts⟩
  · rintro ⟨name, left, rfl, hname, hends⟩
    rwa [List.append_assoc, hname.startsAttribute hfollow]

/-- **Which operands are taken for an attribute**, in a list in which a blank stands before them. -/
theorem startsAttribute_operand (h : Unbroken operand) (hfollow : FollowedBy next follow) :
    startsAttribute (' ' :: (operand ++ follow)) = true ↔ LooksLikeAttribute operand next := by
  have hlast : ∀ name left : List Char, operand = name ++ left → left ≠ [] →
      ∃ before c, left = before ++ [c] ∧ endsOperand c = true := by
    intro name left hoperand hne
    obtain ⟨before, c, hend, hc⟩ := h.last
    obtain ⟨first, d, rfl⟩ := (List.eq_nil_or_concat left).resolve_left hne
    rw [hoperand, List.concat_eq_append, ← List.append_assoc] at hend
    obtain ⟨-, hd⟩ := List.append_inj' hend rfl
    obtain rfl := List.singleton_inj.mp hd
    exact ⟨first, d, List.concat_eq_append, hc⟩
  rw [startsAttribute_iff h hfollow]
  constructor
  · rintro ⟨name, left, hoperand, hname, hends⟩
    by_cases hleft : left = []
    · subst hleft
      rw [List.append_nil] at hoperand
      subst hoperand
      exact .whole hname ((endsAttributeName_followedBy hfollow).mp hends)
    · obtain ⟨blanks, rest, rfl, hblanks, hrest⟩ :=
        (endsAttributeName_append_iff (hlast name left hoperand hleft)).mp hends
      exact .start hoperand hname hblanks hrest
  · rintro (⟨hname, hnext⟩ | ⟨hoperand, hname, hblanks, hrest⟩)
    · exact ⟨operand, [], by simp, hname, (endsAttributeName_followedBy hfollow).mpr hnext⟩
    · next name blanks rest =>
      refine ⟨name, blanks ++ rest, hoperand, hname, ?_⟩
      have hne : blanks ++ rest ≠ [] := by
        obtain ⟨c, tail, rfl, -⟩ := hrest.head
        simp
      exact (endsAttributeName_append_iff (hlast _ _ hoperand hne)).mpr
        ⟨blanks, rest, rfl, hblanks, hrest⟩

/-! ### Values -/

/-- No operand but the first one looks like an attribute. -/
def IsClearBehind : List (Operator × Operand) → Prop
  | [] => True
  | (_, operand) :: rest =>
    ¬ LooksLikeAttribute operand.text (rest.head?.map Prod.fst) ∧ IsClearBehind rest

/-- No operand of a value but the first one looks like an attribute. -/
def Value.IsClear (value : Value) : Prop :=
  IsClearBehind value.others

variable {others : List (Operator × Operand)}

/-- A value is not cut within an operand or an operator. -/
theorem splitAttributeValue_append {text : List Char} (h : Through isUnbroken .start text .start)
    (rest : List Char) : splitAttributeValue (text ++ rest) =
      (text ++ (splitAttributeValue rest).1, (splitAttributeValue rest).2) := by
  have hends : ∀ c rest, isUnbroken c = true → endsAttributeValue (c :: rest) = false := by
    intro c rest hc
    obtain ⟨hblank, hcomma⟩ := isUnbroken_iff.mp hc
    simp [endsAttributeValue, hblank, hcomma]
  rw [splitAttributeValue, Scan.breakAt?, h.breakFrom? trivial hends, splitAttributeValue,
    Scan.breakAt?]
  cases Scan.breakFrom? endsAttributeValue .start rest <;> rfl

theorem splitAttributeValue_blank (cs : List Char) : splitAttributeValue (' ' :: cs) =
    if startsAttribute (' ' :: cs) = true then ([], ' ' :: cs)
    else (' ' :: (splitAttributeValue cs).1, (splitAttributeValue cs).2) := by
  have hstep : Scan.step false .start ' ' cs.head? = (some 0, .start) := rfl
  have hends : endsAttributeValue (' ' :: cs) = startsAttribute (' ' :: cs) := by
    simp [endsAttributeValue, show Text.isBlank ' ' = true by decide]
  rw [splitAttributeValue, Scan.breakAt?, Scan.breakFrom?, hstep, hends]
  dsimp only
  rw [splitAttributeValue, Scan.breakAt?]
  split_ifs with h h' h'
  · rfl
  · exact absurd h.2 h'
  · exact absurd ⟨rfl, h'⟩ h
  · cases Scan.breakFrom? endsAttributeValue .start cs <;> rfl

/-- Before an operator a value is not cut. -/
theorem startsAttribute_operator (operator : Operator) (h : Unbroken operand) :
    startsAttribute (' ' :: (operator.text ++ ' ' :: (operand ++ rest))) = false := by
  obtain ⟨c, tail, rfl, hc⟩ := h.head
  cases operator with
  | colon =>
    obtain ⟨hblank, hcomma, hequals, hbang⟩ := of_startsOperand hc
    exact endsAttributeName_eq_false hblank hcomma hequals hbang _
  | _ => rfl

theorem followedBy_others (others : List (Operator × Operand)) (hfollow : FollowedBy none follow) :
    FollowedBy (others.head?.map Prod.fst) (othersText others ++ follow) := by
  cases others with
  | nil => exact hfollow
  | cons other rest =>
    obtain ⟨operator, operand⟩ := other
    simpa [othersText] using
      FollowedBy.operator operator (operand.text ++ (othersText rest ++ follow))

theorem splitAttributeValue_followedBy (hfollow : FollowedBy none follow) :
    splitAttributeValue follow = ([], follow) := by
  cases hfollow <;> rfl

/-- **Where a value is cut**: at its end, or before an operand that looks like an attribute. -/
theorem splitAttributeValue_others (others : List (Operator × Operand))
    (hfollow : FollowedBy none follow) :
    (IsClearBehind others →
      splitAttributeValue (othersText others ++ follow) = (othersText others, follow)) ∧
    (¬ IsClearBehind others →
      (splitAttributeValue (othersText others ++ follow)).1.length <
        (othersText others).length) := by
  induction others with
  | nil => exact ⟨fun _ => splitAttributeValue_followedBy hfollow, fun h => absurd trivial h⟩
  | cons other rest ih =>
    obtain ⟨operator, operand⟩ := other
    have hoperand := operand.isOperand.unbroken
    have hlooks := startsAttribute_operand hoperand (followedBy_others rest hfollow)
    have hsplit : splitAttributeValue (othersText ((operator, operand) :: rest) ++ follow) =
        (' ' :: (operator.text ++ (splitAttributeValue
            (' ' :: (operand.text ++ (othersText rest ++ follow)))).1),
          (splitAttributeValue (' ' :: (operand.text ++ (othersText rest ++ follow)))).2) := by
      simp only [othersText, List.cons_append, List.append_assoc]
      rw [splitAttributeValue_blank, startsAttribute_operator operator hoperand,
        if_neg Bool.false_ne_true, splitAttributeValue_append operator.through]
    rw [hsplit, splitAttributeValue_blank]
    by_cases hcut : LooksLikeAttribute operand.text (rest.head?.map Prod.fst)
    · rw [if_pos (hlooks.mpr hcut)]
      refine ⟨fun h => absurd hcut h.1, fun _ => ?_⟩
      simp only [othersText, List.length_cons, List.length_append, List.length_nil]
      omega
    · rw [if_neg (mt hlooks.mp hcut), splitAttributeValue_append hoperand.through]
      refine ⟨fun h => ?_, fun h => ?_⟩
      · rw [ih.1 h.2]
        rfl
      · have hshort := ih.2 fun hrest => h ⟨hcut, hrest⟩
        simp only [othersText, List.length_cons, List.length_append]
        omega

example : splitAttributeValue "a + b, n2=c".toList = ("a +".toList, " b, n2=c".toList) := by
  decide

/-! ### Lists -/

/-- A plain attribute name. -/
def isAttributeName (name : List Char) : Bool :=
  name.head?.any Char.isAlpha && name.all fun c => c.isAlphanum || c == '-' || c == '_'

/-- An attribute as it is written in a list. -/
structure ListedAttribute where
  /-- Its name. -/
  name : List Char
  /-- Its value. -/
  value : Value
  /-- The name is plain. -/
  named : isAttributeName name = true

namespace ListedAttribute

/-- How an attribute is written. -/
def text (listed : ListedAttribute) : List Char :=
  listed.name ++ '=' :: listed.value.text

/-- The attribute that is meant. -/
def toAttribute (listed : ListedAttribute) : Attribute :=
  ⟨String.ofList listed.name, String.ofList listed.value.text, true⟩

end ListedAttribute

/-- What is written behind the first attribute of a list. -/
def furtherText (others : List ListedAttribute) : List Char :=
  others.flatMap fun listed => ',' :: ' ' :: listed.text

theorem followedBy_furtherText (others : List ListedAttribute) :
    FollowedBy none (furtherText others) := by
  cases others with
  | nil => exact .last
  | cons listed rest => exact .comma _

theorem isAttributeName_iff : isAttributeName name = true ↔
    (∃ c rest, name = c :: rest ∧ c.isAlpha = true) ∧
      ∀ c ∈ name, (c.isAlphanum || c == '-' || c == '_') = true := by
  cases name with
  | nil => simp [isAttributeName]
  | cons c rest => simp [isAttributeName]

/-- A character of a name without quotation marks, in which nothing is opened or closed. -/
def isNameChar (c : Char) : Bool :=
  Scan.isPassive c && isUnbroken c && c != '=' && c != '!'

/-- A name as it stands in a list without quotation marks. -/
structure IsName (name : List Char) : Prop where
  /-- It is not empty. -/
  ne_nil : name ≠ []
  /-- It ends before a blank, a comma or the sign before a value. -/
  chars : ∀ c ∈ name, isNameChar c = true

theorem isName_of_isAttributeName (h : isAttributeName name = true) : IsName name := by
  obtain ⟨⟨first, rest, rfl, -⟩, hchars⟩ := isAttributeName_iff.mp h
  refine ⟨List.cons_ne_nil _ _, fun c hc => ?_⟩
  have hchar := hchars c hc
  simp only [Bool.or_eq_true, beq_iff_eq] at hchar
  rcases hchar with (hchar | rfl) | rfl
  · obtain ⟨hpassive, hblank, hcomma, hequals, hbang⟩ := of_isWordChar (c := c) (by
      simp [isWordChar, hchar])
    simp [isNameChar, isUnbroken, hpassive, hblank, hcomma, hequals, hbang]
  · decide
  · decide

theorem of_isNameChar (h : isNameChar c = true) :
    Scan.isPassive c = true ∧ Text.isBlank c = false ∧ c ≠ ',' ∧ c ≠ '=' ∧ c ≠ '!' := by
  simp only [isNameChar, Bool.and_eq_true, bne_iff_ne] at h
  obtain ⟨⟨⟨hpassive, hunbroken⟩, hequals⟩, hbang⟩ := h
  exact ⟨hpassive, (isUnbroken_iff.mp hunbroken).1, (isUnbroken_iff.mp hunbroken).2, hequals, hbang⟩

theorem splitAttributeName_append (h : ∀ c ∈ name, isNameChar c = true) (assigned : List Char) :
    splitAttributeName (name ++ '=' :: assigned) = (name, '=' :: assigned) := by
  induction name with
  | nil => rfl
  | cons c rest ih =>
    obtain ⟨hc, hrest⟩ := List.forall_mem_cons.mp h
    obtain ⟨-, hblank, hcomma, hequals, hbang⟩ := of_isNameChar hc
    rw [List.cons_append, splitAttributeName, if_neg, ih hrest]
    simp [hblank, hcomma, hequals, hbang]

/-- An attribute is its name and its value up to where that is cut. -/
theorem attributesFrom_append {all separators : List Char}
    (hseparators : ∀ c ∈ separators, separatesAttributes c = true)
    (hname : IsName name) (hassigned : ∃ c rest, assigned = c :: rest ∧ Text.isBlank c = false) :
    attributesFrom all (separators ++ (name ++ '=' :: assigned)) =
      if (Text.trim (splitAttributeValue assigned).1).isEmpty then
        .error (.invalid (.missingValue (String.ofList name)))
      else (attributesFrom all (splitAttributeValue assigned).2).map
        (⟨String.ofList name, String.ofList (Text.trim (splitAttributeValue assigned).1),
          true⟩ :: ·) := by
  obtain ⟨n, more, rfl⟩ := List.exists_cons_of_ne_nil hname.ne_nil
  obtain ⟨hpassive, hblank, hcomma, -⟩ := of_isNameChar (hname.chars n List.mem_cons_self)
  have hstart : (separators ++ (n :: more ++ '=' :: assigned)).dropWhile separatesAttributes =
      n :: (more ++ '=' :: assigned) := by
    rw [List.dropWhile_append_of_pos hseparators]
    simp [separatesAttributes, hblank, hcomma]
  have hnamed : attributeName (n :: (more ++ '=' :: assigned)) =
      .ok (n :: more, '=' :: assigned) := by
    have hquote : isNameQuote n = false := by
      have hdouble : n ≠ '"' := by rintro rfl; cases hpassive
      have hsingle : n ≠ '\'' := by rintro rfl; cases hpassive
      simp [isNameQuote, hdouble, hsingle]
    rw [attributeName, hquote, ← List.cons_append, splitAttributeName_append hname.chars]
    rfl
  have hvalued : afterEquals? ('=' :: assigned) = some (assigned, true) := by
    obtain ⟨c, rest, rfl, hc⟩ := hassigned
    have htrim : Text.trimStart (c :: rest) = c :: rest := by
      simp [Text.trimStart, hc]
    have hequals : Text.trimStart ('=' :: c :: rest) = '=' :: c :: rest := rfl
    rw [afterEquals?, hequals]
    show some (Text.trimStart (c :: rest), true) = _
    rw [htrim]
  rw [attributesFrom]
  split
  · next heq => rw [hstart] at heq; cases heq
  · next d cs heq =>
    rw [hstart] at heq
    obtain ⟨rfl, rfl⟩ := List.cons.inj heq
    split
    · next heq => rw [hnamed] at heq; cases heq
    · next heq => rw [hnamed] at heq; cases heq
    · next m name' after heq =>
      rw [hnamed] at heq
      obtain ⟨hsame, rfl⟩ := Prod.mk.inj (Except.ok.inj heq)
      obtain ⟨rfl, rfl⟩ := List.cons.inj hsame
      split
      · next heq => rw [hvalued] at heq; cases heq
      · next heq =>
        rw [hvalued] at heq
        obtain ⟨rfl, rfl⟩ := Prod.mk.inj (Option.some.inj heq)
        rfl

theorem Value.head (value : Value) : ∃ c rest, value.text = c :: rest ∧ startsOperand c = true := by
  obtain ⟨c, rest, htext, hc⟩ := value.first.isOperand.unbroken.head
  exact ⟨c, rest ++ othersText value.others, by rw [Value.text, htext]; rfl, hc⟩

/-- A value ends like its last operand. -/
theorem endsOperand_others {text : List Char}
    (h : ∃ before c, text = before ++ [c] ∧ endsOperand c = true)
    (others : List (Operator × Operand)) :
    ∃ before c, text ++ othersText others = before ++ [c] ∧ endsOperand c = true := by
  induction others generalizing text with
  | nil => simpa [othersText] using h
  | cons other rest ih =>
    obtain ⟨operator, operand⟩ := other
    obtain ⟨before, c, hend, hc⟩ := operand.isOperand.unbroken.last
    have hbase : ∃ before c, text ++ (' ' :: (operator.text ++ ' ' :: operand.text)) =
        before ++ [c] ∧ endsOperand c = true :=
      ⟨text ++ (' ' :: (operator.text ++ ' ' :: before)), c, by simp [hend], hc⟩
    obtain ⟨before', c', hall, hc'⟩ := ih hbase
    exact ⟨before', c', by simpa [othersText] using hall, hc'⟩

theorem Value.trim (value : Value) : Text.trim value.text = value.text := by
  obtain ⟨c, rest, htext, hc⟩ := value.head
  obtain ⟨before, d, hlast, hd⟩ :=
    endsOperand_others value.first.isOperand.unbroken.last value.others
  rw [← Value.text] at hlast
  have hends : Text.EndsUnblank value.text := by
    intro e he
    rw [hlast, List.getLast?_concat] at he
    obtain rfl := Option.some.inj he
    exact (of_endsOperand hd).1
  rw [htext] at hends ⊢
  exact Text.trim_eq_self (of_startsOperand hc).1 hends

/-- **Where the value of an attribute is cut** in a list. -/
theorem splitAttributeValue_value (value : Value) (hfollow : FollowedBy none follow) :
    (value.IsClear → splitAttributeValue (value.text ++ follow) = (value.text, follow)) ∧
    (¬ value.IsClear →
      (splitAttributeValue (value.text ++ follow)).1.length < value.text.length) := by
  obtain ⟨hclear, hcut⟩ := splitAttributeValue_others value.others hfollow
  rw [Value.text, List.append_assoc,
    splitAttributeValue_append value.first.isOperand.unbroken.through]
  refine ⟨fun h => by rw [hclear h], fun h => ?_⟩
  have := hcut h
  simp only [List.length_append]
  omega

/-- An attribute is read back, and then what follows it, if its value is clear; otherwise it is not
read back, whatever follows. -/
theorem attributesFrom_listed {all separators : List Char} {attributes : List Attribute}
    (hseparators : ∀ c ∈ separators, separatesAttributes c = true) (listed : ListedAttribute)
    (hfollow : FollowedBy none follow) :
    attributesFrom all (separators ++ (listed.text ++ follow)) =
        .ok (listed.toAttribute :: attributes) ↔
      listed.value.IsClear ∧ attributesFrom all follow = .ok attributes := by
  have hassigned : ∃ c rest, listed.value.text ++ follow = c :: rest ∧ Text.isBlank c = false := by
    obtain ⟨c, rest, htext, hc⟩ := listed.value.head
    exact ⟨c, rest ++ follow, by rw [htext]; rfl, (of_startsOperand hc).1⟩
  obtain ⟨hclear, hcut⟩ := splitAttributeValue_value listed.value hfollow
  have htext : listed.text ++ follow = listed.name ++ '=' :: (listed.value.text ++ follow) := by
    rw [ListedAttribute.text, List.append_assoc, List.cons_append]
  rw [htext, attributesFrom_append hseparators (isName_of_isAttributeName listed.named) hassigned]
  by_cases h : listed.value.IsClear
  · have hne : listed.value.text ≠ [] := by
      obtain ⟨c, rest, hcons, -⟩ := listed.value.head
      simp [hcons]
    rw [hclear h]
    dsimp only
    rw [listed.value.trim, if_neg (by simpa using hne)]
    cases attributesFrom all follow <;> simp [Except.map, h, ListedAttribute.toAttribute]
  · have hshort := hcut h
    refine iff_of_false (fun hread => ?_) fun hboth => h hboth.1
    have htrim := (Text.length_trimEnd_le _).trans
      (Text.length_trimStart_le (splitAttributeValue (listed.value.text ++ follow)).1)
    split at hread
    · cases hread
    · cases hmore : attributesFrom all (splitAttributeValue (listed.value.text ++ follow)).2 with
      | error fault => rw [hmore] at hread; cases hread
      | ok more =>
        rw [hmore] at hread
        obtain ⟨hfirst, -⟩ := List.cons.inj (Except.ok.inj hread)
        have hvalue := congrArg List.length
          (String.ofList_injective (Attribute.mk.inj hfirst).2.1)
        rw [Text.trim] at hvalue
        omega

/-- **Which lists are read back.** -/
theorem attributesFrom_list (all : List Char) (first : ListedAttribute)
    (others : List ListedAttribute) {separators : List Char}
    (hseparators : ∀ c ∈ separators, separatesAttributes c = true) :
    attributesFrom all (separators ++ (first.text ++ furtherText others)) =
        .ok ((first :: others).map ListedAttribute.toAttribute) ↔
      ∀ listed ∈ first :: others, listed.value.IsClear := by
  induction others generalizing first separators with
  | nil =>
    have hnothing : attributesFrom all [] = .ok [] := by
      rw [attributesFrom]
      rfl
    rw [List.map_cons, attributesFrom_listed hseparators first (followedBy_furtherText [])]
    simp [furtherText, hnothing]
  | cons second rest ih =>
    have htext : furtherText (second :: rest) =
        [',', ' '] ++ (second.text ++ furtherText rest) := by
      simp [furtherText]
    rw [List.map_cons, attributesFrom_listed hseparators first (followedBy_furtherText _),
      List.forall_mem_cons, htext, ih second (List.all_eq_true.mp rfl)]

end PugContracts.Template
