import PugContracts.Proofs.Scan.Through
import PugContracts.Proofs.Template.Legible

/-!
# The headers of loops and mixins

The header of a loop is cut at its comma and at the first `in`, and the arguments of a mixin end at
the parenthesis that closes them. A cut is found again where texts were joined if they close all
they open: then the scanner is in code, outside all brackets, when it comes to the place.

## Main results

* `loopHeader?_bindings`: the header of a loop is cut where it was joined.
* `callArguments?_append`: the arguments of a mixin are those between the parentheses.
-/

namespace PugContracts.Template

variable {text : List Char}

namespace Statement

/-! ### Loops -/

theorem isPrefixOf_append_of_le {piece cs : List Char} (h : piece.length ≤ cs.length)
    (more : List Char) : piece.isPrefixOf (cs ++ more) = piece.isPrefixOf cs := by
  rw [Bool.eq_iff_iff, List.isPrefixOf_iff_prefix, List.isPrefixOf_iff_prefix]
  exact ⟨fun hprefix => List.prefix_of_prefix_length_le hprefix (List.prefix_append cs more) h,
    fun hprefix => hprefix.trans (List.prefix_append cs more)⟩

/-- A text is cut at the first `in`, whatever follows it. -/
theorem breakFrom?_loopWord {s : Scan.State} {bindings : List Char}
    (h : Scan.breakFrom? loopWord.isPrefixOf s (bindings ++ loopWord) =
      some (bindings, loopWord)) (more : List Char) :
    Scan.breakFrom? loopWord.isPrefixOf s (bindings ++ (loopWord ++ more)) =
      some (bindings, loopWord ++ more) := by
  have hword : loopWord = [' ', 'i', 'n', ' '] := rfl
  induction bindings generalizing s with
  | nil =>
    have hcut : (Scan.step false s ' ' (some 'i')).1 = some 0 := by
      by_contra hnot
      rw [List.nil_append, hword, Scan.breakFrom?] at h
      dsimp only [List.head?_cons] at h
      rw [if_neg (fun hcut => hnot hcut.1)] at h
      simp at h
    rw [List.nil_append, hword]
    show Scan.breakFrom? _ s (' ' :: 'i' :: 'n' :: ' ' :: more) = _
    rw [Scan.breakFrom?]
    dsimp only [List.head?_cons]
    rw [if_pos ⟨hcut, by simp [List.isPrefixOf]⟩]
    rfl
  | cons c rest ih =>
    have hhead : (rest ++ (loopWord ++ more)).head? = (rest ++ loopWord).head? := by
      cases rest <;> rfl
    have hprefix : loopWord.isPrefixOf (c :: (rest ++ (loopWord ++ more))) =
        loopWord.isPrefixOf (c :: (rest ++ loopWord)) := by
      have hlength : loopWord.length ≤ (c :: (rest ++ loopWord)).length := by
        simp only [List.length_cons, List.length_append]
        omega
      rw [← List.append_assoc, ← List.cons_append]
      exact isPrefixOf_append_of_le hlength more
    rw [List.cons_append, Scan.breakFrom?] at h ⊢
    rw [hhead, hprefix]
    generalize Scan.step false s c (rest ++ loopWord).head? = stepped at h ⊢
    obtain ⟨depth?, after⟩ := stepped
    dsimp only at h ⊢
    split at h
    · simp at h
    · next hnot =>
      simp only [Option.map_eq_some_iff, Prod.mk.injEq, Prod.exists, List.cons.injEq, true_and] at h
      obtain ⟨before, tail, hfound, rfl, rfl⟩ := h
      rw [if_neg hnot, ih hfound]
      rfl

/-- Without comments, a closed text ends in code at depth zero. -/
theorem endState_of_isBalanced (h : Scan.isBalanced false text = true) :
    Scan.endState false .start text = .start := by
  have hplain : ∀ (s : Scan.State) (cs : List Char), s.Plain →
      (Scan.endState false s cs).Plain := by
    intro s cs
    induction cs generalizing s with
    | nil => exact id
    | cons c rest ih =>
      intro hs
      rw [Scan.endState, Scan.step_false hs]
      exact ih _ (hs.advance c)
  exact (hplain .start text trivial).eq_start h

/-- A comma after closed text is a cut. -/
theorem pieces_append_comma {before : List Char} (h : Scan.isBalanced false before = true)
    (after : List Char) :
    Scan.pieces false ',' (before ++ ',' :: after) =
      Scan.pieces false ',' before ++ Scan.pieces false ',' after :=
  Scan.piecesFrom_append_sep (by decide) (s := .start) trivial (endState_of_isBalanced h) after

theorem isLoopVariable_iff : isLoopVariable text = true ↔
    Legible text ∧ Scan.isBalanced false text = true ∧ Scan.pieces false ',' text = [text] := by
  rw [isLoopVariable, Bool.and_eq_true, Bool.and_eq_true, isPhrase_iff, beq_iff_eq, and_assoc]

theorem nonempty?_legible (h : Legible text) : nonempty? text = some (String.ofList text) := by
  rw [nonempty?, if_neg (by simpa using h.ne_nil)]

theorem legible_bindings {item : String} {key : Option String} (hitem : Legible item.toList)
    (hkey : ∀ name ∈ key, Legible name.toList) : Legible (NodeKind.bindings item key).toList := by
  cases key with
  | none => exact hitem
  | some key =>
    have hname := hkey key rfl
    rw [NodeKind.bindings, String.toList_append]
    refine .append ?_ ?_ hname.single hname.ne_nil hname.last
    · simp [hitem.single]
    · obtain ⟨c, hc, hblank⟩ := hitem.head
      exact ⟨c, by simp [hc], hblank⟩

/-- **The header of a loop is cut where it was joined.** -/
theorem loopHeader?_bindings {item collection : String} {key : Option String}
    (hitem : isLoopVariable item.toList = true)
    (hkey : key.all (isLoopVariable ·.toList) = true)
    (hbindings : NodeKind.endsBindings (NodeKind.bindings item key).toList = true)
    (hcollection : Legible collection.toList) :
    loopHeader? ((NodeKind.bindings item key).toList ++ (loopWord ++ collection.toList)) =
      some (.each item key collection) := by
  obtain ⟨hitem, hclosed, hpiece⟩ := isLoopVariable_iff.mp hitem
  have hcut : Scan.breakAt? loopWord.isPrefixOf
      ((NodeKind.bindings item key).toList ++ (loopWord ++ collection.toList)) =
        some ((NodeKind.bindings item key).toList, loopWord ++ collection.toList) :=
    breakFrom?_loopWord (beq_iff_eq.mp hbindings) collection.toList
  have hafter : (loopWord ++ collection.toList).drop loopWord.length = collection.toList :=
    List.drop_left
  rw [loopHeader?, hcut]
  dsimp only [Option.bind_eq_bind, Option.bind_some]
  rw [hafter, hcollection.trim, nonempty?_legible hcollection, String.ofList_toList]
  cases key with
  | none =>
    have hbound : nonempty? (Text.trim item.toList) = some item := by
      rw [hitem.trim, nonempty?_legible hitem, String.ofList_toList]
    simp [NodeKind.bindings, hbound, hpiece]
  | some key =>
    obtain ⟨hkey, -, hkeyPiece⟩ := isLoopVariable_iff.mp hkey
    have hjoined : (NodeKind.bindings item (some key)).toList =
        item.toList ++ ',' :: ' ' :: key.toList := by
      simp [NodeKind.bindings]
    have hlegible : Legible (NodeKind.bindings item (some key)).toList :=
      legible_bindings hitem (by simpa using hkey)
    have hspace : Scan.pieces false ',' (' ' :: key.toList) = [' ' :: key.toList] := by
      have hstart : Scan.piecesFrom false ',' (Scan.advance .start ' ') key.toList =
          [key.toList] := hkeyPiece
      rw [Scan.pieces, Scan.piecesFrom_false_cons (s := .start) trivial, hstart]
      rfl
    have hpieces : Scan.pieces false ',' (NodeKind.bindings item (some key)).toList =
        [item.toList, ' ' :: key.toList] := by
      rw [hjoined, pieces_append_comma hclosed, hpiece, hspace]
      rfl
    rw [hlegible.trim, nonempty?_legible hlegible, String.ofList_toList]
    dsimp only [Option.bind_some]
    rw [hpieces]
    simp [hitem.trim, hkey.trim_space, nonempty?_legible hitem, nonempty?_legible hkey]

/-! ### Mixins -/

/-- A text that closes all it opens, and nothing else, is gone through. -/
theorem through_of_closesFrom {s : Scan.State} (hs : s.Plain) (h : closesFrom s text = true) :
    Scan.Through (fun _ => true) s text .start := by
  induction text generalizing s with
  | nil =>
    rw [hs.eq_start h]
    exact .nil _
  | cons c rest ih =>
    rw [closesFrom, Scan.step_false hs, Bool.and_eq_true, decide_eq_true_eq] at h
    exact .cons h.1 (fun _ => rfl) (ih (hs.advance c) h.2)

theorem isArguments_iff : isArguments text = true ↔
    '\n' ∉ text ∧ Text.trim text = text ∧ closesFrom .start text = true := by
  simp only [isArguments, isNested, Bool.and_eq_true, Bool.not_eq_true', List.contains_eq_mem,
    decide_eq_false_iff_not, beq_iff_eq, and_assoc]

theorem isMixinName_iff : isMixinName text = true ↔
    text ≠ [] ∧ ∀ c ∈ text, endsCallName c = false := by
  simp [isMixinName]

/-- **The arguments of a mixin are those between the parentheses.** -/
theorem callArguments?_append {name args : List Char} (hname : isMixinName name = true)
    (hargs : isArguments args = true) :
    callName (name ++ '(' :: (args ++ [')'])) = name ∧
      callArguments? (name ++ '(' :: (args ++ [')'])) = some (String.ofList args) := by
  obtain ⟨-, hname⟩ := isMixinName_iff.mp hname
  obtain ⟨-, htrim, hnested⟩ := isArguments_iff.mp hargs
  have hchars : ∀ c ∈ name, (!endsCallName c) = true := fun c hc => by rw [hname c hc]; rfl
  have hgroup : Scan.group? ('(' :: (args ++ [')'])) = some (args, []) :=
    (through_of_closesFrom (s := .start) trivial hnested).group? rfl rfl []
  constructor
  · rw [callName, List.takeWhile_append_of_pos hchars]
    simp [endsCallName]
  · have hrest : (name ++ '(' :: (args ++ [')'])).dropWhile (!endsCallName ·) =
        '(' :: (args ++ [')']) := by
      rw [List.dropWhile_append_of_pos hchars]
      simp [endsCallName]
    rw [callArguments?, hrest]
    show (Scan.group? ('(' :: (args ++ [')']))).map
      (fun group => String.ofList (Text.trim group.1)) = some (String.ofList args)
    rw [hgroup, Option.map_some, htrim]

theorem legible_mixinName (h : isMixinName text = true) : Legible text := by
  obtain ⟨hne, hchars⟩ := isMixinName_iff.mp h
  have hblank : ∀ c ∈ text, Text.isBlank c = false := fun c hc =>
    (Bool.or_eq_false_iff.mp (hchars c hc)).2
  obtain ⟨c, rest, rfl⟩ := List.exists_cons_of_ne_nil hne
  refine ⟨fun hnewline => ?_, ⟨c, rfl, hblank c List.mem_cons_self⟩, fun c hc => ?_⟩
  · exact absurd (hblank _ hnewline) (by decide)
  · exact hblank c (List.mem_of_getLast? hc)

theorem callArguments?_name (hname : isMixinName text = true) :
    callName text = text ∧ callArguments? text = none := by
  obtain ⟨-, hname⟩ := isMixinName_iff.mp hname
  have hchars : ∀ c ∈ text, (!endsCallName c) = true := fun c hc => by rw [hname c hc]; rfl
  have hrest : text.dropWhile (!endsCallName ·) = [] := List.dropWhile_eq_nil_iff.mpr hchars
  refine ⟨List.takeWhile_eq_self_iff.mpr hchars, ?_⟩
  rw [callArguments?, hrest]

end Statement

end PugContracts.Template
