import PugContracts.Proofs.Scan.Comment

/-!
# Reading a text through

`Through p` says how the scanner reads a text from one state to another: it closes no bracket that
was opened before the text, and what stands outside of all brackets and strings satisfies `p`. A
text is passed over by every cut that is not made at such a character, and two texts are read one
after the other like one.

## Main results

* `fst_step_eq_zero_iff`: when a character stands outside of all brackets.
* `Through.breakFrom?`: a cut that is made at none of these characters is made after the text.
* `Through.group?`: a group is what was put in brackets, if that closes all it opens.
* `Through.raise`: in brackets, nothing of the text stands outside of all brackets.
* `Through.pieces_append`: a text without separators is a piece of what it is joined to.
-/

namespace PugContracts.Scan

variable {p q : Char → Bool} {s s' s'' : State} {a b cs : List Char} {c opener closer : Char}
  {depth : Int}

/-! ### Characters -/

theorem fst_step_code (depth : Int) (c : Char) :
    (step false ⟨.code, depth⟩ c none).1 =
      some (if isCloser c then depth - 1 else depth).toNat := by
  simp only [step, stepCode]
  cases isCloser c <;> cases isOpener c <;> cases isQuote c <;> rfl

/-- **Outside of all brackets** code is read at depth zero or below, and a closing bracket, which is
counted before it is read, also at depth one. -/
theorem fst_step_eq_zero_iff : (step false s c none).1 = some 0 ↔
    s.mode = .code ∧ s.depth ≤ if isCloser c = true then 1 else 0 := by
  have hcode (depth : Int) : (step false ⟨.code, depth⟩ c none).1 = some 0 ↔
      depth ≤ if isCloser c = true then 1 else 0 := by
    rw [fst_step_code, Option.some.injEq]
    split_ifs <;> omega
  constructor
  · intro h
    have hmode : s.mode = .code := mode_of_step_isSome (by rw [h]; rfl)
    obtain ⟨mode, depth⟩ := s
    obtain rfl : mode = .code := hmode
    exact ⟨rfl, (hcode depth).mp h⟩
  · obtain ⟨mode, depth⟩ := s
    rintro ⟨rfl, hdepth⟩
    exact (hcode depth).mpr hdepth

theorem fst_step_start (c : Char) : (step false .start c none).1 = some 0 :=
  fst_step_eq_zero_iff.mpr ⟨rfl, by show 0 ≤ _; split_ifs <;> decide⟩

theorem fst_step_raise_eq_zero_iff {k : Int} : (step false (s.raise k) c none).1 = some 0 ↔
    s.mode = .code ∧ s.depth + k ≤ if isCloser c = true then 1 else 0 :=
  fst_step_eq_zero_iff

/-- An opening bracket raises the depth. -/
theorem advance_of_isOpener (hmode : s.mode = .code) (h : isOpener c = true) :
    advance s c = ⟨.code, s.depth + 1⟩ := by
  obtain ⟨mode, depth⟩ := s
  obtain rfl : mode = .code := hmode
  simp only [isOpener, Bool.or_eq_true, beq_iff_eq] at h
  rcases h with (rfl | rfl) | rfl <;> rfl

/-- A closing bracket lowers the depth. -/
theorem advance_of_isCloser (hmode : s.mode = .code) (h : isCloser c = true) :
    advance s c = ⟨.code, s.depth - 1⟩ := by
  obtain ⟨mode, depth⟩ := s
  obtain rfl : mode = .code := hmode
  rw [advance_code, stepCode, if_pos h]

/-- A character that leaves the scanner where it is. -/
def isPassive (c : Char) : Bool :=
  !(isOpener c || isCloser c || isQuote c)

theorem isPassive_iff :
    isPassive c = true ↔ isOpener c = false ∧ isCloser c = false ∧ isQuote c = false := by
  simp [isPassive, and_assoc]

theorem advance_of_isPassive (hmode : s.mode = .code) (h : isPassive c = true) :
    advance s c = s := by
  obtain ⟨mode, depth⟩ := s
  obtain rfl : mode = .code := hmode
  obtain ⟨hopener, hcloser, hquote⟩ := isPassive_iff.mp h
  simp [advance_code, stepCode, hopener, hcloser, hquote]

/-- Outside of all brackets such a character is read at depth zero or below. -/
theorem of_fst_step_passive (h : isPassive c = true) (hzero : (step false s c none).1 = some 0) :
    s.mode = .code ∧ s.depth ≤ 0 ∧ advance s c = s := by
  obtain ⟨hmode, hdepth⟩ := fst_step_eq_zero_iff.mp hzero
  rw [(isPassive_iff.mp h).2.1] at hdepth
  exact ⟨hmode, hdepth, advance_of_isPassive hmode h⟩

theorem isPassive_of_isBlank (hc : Text.isBlank c = true) : isPassive c = true := by
  have hinert := isInert_of_isBlank hc
  simp only [isInert, Bool.not_eq_true', Bool.or_eq_false_iff] at hinert
  simp [isPassive, hinert]

/-! ### Texts -/

/-- The scanner goes through the text from one state to the other. -/
inductive Through (p : Char → Bool) : State → List Char → State → Prop
  | nil (s : State) : Through p s [] s
  | cons {s s' : State} {c : Char} {rest : List Char} (inside : 0 ≤ (advance s c).depth)
      (outer : (step false s c none).1 = some 0 → p c = true)
      (tail : Through p (advance s c) rest s') : Through p s (c :: rest) s'

theorem Through.append (ha : Through p s a s') (hb : Through p s' b s'') :
    Through p s (a ++ b) s'' := by
  induction ha with
  | nil => exact hb
  | cons inside outer tail ih => exact .cons inside outer (ih hb)

theorem Through.mono (h : Through p s cs s') (hp : ∀ c, p c = true → q c = true) :
    Through q s cs s' := by
  induction h with
  | nil => exact .nil _
  | cons inside outer tail ih => exact .cons inside (fun hzero => hp _ (outer hzero)) ih

theorem Through.plain (h : Through p s cs s') (hs : s.Plain) : s'.Plain := by
  induction h with
  | nil => exact hs
  | cons _ _ _ ih => exact ih (hs.advance _)

/-- Whoever cuts at none of the characters in question goes on after the text. -/
theorem Through.breakFrom? {ends : List Char → Bool} (h : Through p s cs s') (hs : s.Plain)
    (hends : ∀ c rest, p c = true → ends (c :: rest) = false) (rest : List Char) :
    Scan.breakFrom? ends s (cs ++ rest) =
      (Scan.breakFrom? ends s' rest).map (Prod.map (cs ++ ·) id) := by
  induction h with
  | nil =>
    rw [List.nil_append]
    show _ = Option.map id _
    rw [Option.map_id, id]
  | @cons s s' c tail inside outer _ ih =>
    rw [List.cons_append, Scan.breakFrom?, step_false hs]
    dsimp only
    rw [if_neg]
    · show (Scan.breakFrom? ends (advance s c) (tail ++ rest)).map _ = _
      rw [ih (hs.advance c), Option.map_map]
      rfl
    · rintro ⟨hzero, hcut⟩
      rw [hends c _ (outer hzero)] at hcut
      cases hcut

/-- A bracket closes the group, or the group goes on with the character. -/
theorem closeGroup?_cons (hs : s.Plain) (c : Char) (rest : List Char) :
    closeGroup? s (c :: rest) =
      if (step false s c none).1 = some 0 ∧ isCloser c = true then some ([], rest)
      else (closeGroup? (advance s c) rest).map (Prod.map (c :: ·) id) := by
  rw [closeGroup?, step_false hs]
  rfl

/-- A group goes on behind a text that closes no bracket opened before it. -/
theorem Through.closeGroup? (h : Through p s cs s') (hs : s.Plain) (rest : List Char) :
    Scan.closeGroup? (s.raise 1) (cs ++ rest) =
      (Scan.closeGroup? (s'.raise 1) rest).map (Prod.map (cs ++ ·) id) := by
  induction h with
  | nil =>
    rw [List.nil_append]
    show _ = Option.map id _
    rw [Option.map_id, id]
  | @cons s s' c tail inside outer _ ih =>
    have hraised : (s.raise 1).Plain := hs
    have hopen : ¬ ((step false (s.raise 1) c none).1 = some 0 ∧ isCloser c = true) := by
      rintro ⟨hzero, hcloser⟩
      obtain ⟨hmode, hdepth⟩ := fst_step_raise_eq_zero_iff.mp hzero
      rw [if_pos hcloser] at hdepth
      rw [advance_of_isCloser hmode hcloser] at inside
      dsimp only at inside
      omega
    rw [List.cons_append, closeGroup?_cons hraised, if_neg hopen, advance_raise,
      ih (hs.advance c), Option.map_map]
    rfl

/-- **A group** in which a text stands that closes all it opens, and nothing else, is this text. -/
theorem Through.group? (h : Through p .start cs .start) (hopener : isOpener opener = true)
    (hcloser : isCloser closer = true) (tail : List Char) :
    Scan.group? (opener :: (cs ++ closer :: tail)) = some (cs, tail) := by
  have hraised : (State.start.raise 1).Plain := trivial
  have hzero : (step false (State.start.raise 1) closer none).1 = some 0 :=
    fst_step_eq_zero_iff.mpr ⟨rfl, by rw [if_pos hcloser]; exact Int.le_refl 1⟩
  have hread := h.closeGroup? trivial (closer :: tail)
  rw [closeGroup?_cons hraised, if_pos ⟨hzero, hcloser⟩, Option.map_some, Prod.map,
    List.append_nil] at hread
  rw [Scan.group?, if_pos hopener]
  exact hread

theorem through_of_isPassive (hc : isPassive c = true) (hp : p c = true) (hdepth : 0 ≤ depth) :
    Through p ⟨.code, depth⟩ [c] ⟨.code, depth⟩ := by
  have hadvance : advance ⟨.code, depth⟩ c = ⟨.code, depth⟩ := advance_of_isPassive rfl hc
  refine .cons ?_ (fun _ => hp) ?_
  · rwa [hadvance]
  · rw [hadvance]
    exact .nil _

theorem through_of_all (h : (cs.all fun c => isPassive c && p c) = true) (hdepth : 0 ≤ depth) :
    Through p ⟨.code, depth⟩ cs ⟨.code, depth⟩ := by
  induction cs with
  | nil => exact .nil _
  | cons c rest ih =>
    simp only [List.all_cons, Bool.and_eq_true] at h
    obtain ⟨⟨hc, hp⟩, hrest⟩ := h
    exact (through_of_isPassive hc hp hdepth).append (ih hrest)

/-! ### Strings and brackets -/

/-- In a string, no character is code. -/
theorem through_string (hmode : s.mode ≠ .code) (hdepth : 0 ≤ s.depth) (hsame : advance s c = s')
    (hkept : s'.depth = s.depth) : Through p s [c] s' := by
  subst hsame
  refine .cons (by rwa [hkept]) (fun hzero => ?_) (.nil _)
  exact absurd (mode_of_step_isSome (by rw [hzero]; rfl)) hmode

/-- In brackets a group goes back to the depth at which it was opened. -/
theorem through_bracketed {inner : List Char}
    (hopener : isOpener opener = true) (hcloser : isCloser closer = true)
    (hbrackets : ∀ c, isOpener c = true ∨ isCloser c = true → p c = true)
    (hinside : Through p ⟨.code, depth + 1⟩ inner ⟨.code, depth + 1⟩) (hdepth : 0 ≤ depth) :
    Through p ⟨.code, depth⟩ (opener :: (inner ++ [closer])) ⟨.code, depth⟩ := by
  have hopen : advance ⟨.code, depth⟩ opener = ⟨.code, depth + 1⟩ := advance_of_isOpener rfl hopener
  have hclose : advance ⟨.code, depth + 1⟩ closer = ⟨.code, depth⟩ := by
    rw [advance_of_isCloser rfl hcloser, Int.add_sub_cancel]
  refine .cons (by rw [hopen]; show 0 ≤ depth + 1; omega)
    (fun _ => hbrackets _ (Or.inl hopener)) ?_
  rw [hopen]
  refine hinside.append (.cons ?_ (fun _ => hbrackets _ (Or.inr hcloser)) ?_)
  · rwa [hclose]
  · rw [hclose]
    exact .nil _

/-- **In brackets**, nothing of a text that is gone through stands outside of all brackets. -/
theorem Through.raise (h : Through p s cs s') (hdepth : 0 ≤ s.depth) {k : Int} (hk : 0 < k) :
    Through q (s.raise k) cs (s'.raise k) := by
  induction h with
  | nil => exact .nil _
  | @cons s s' c rest inside outer tail ih =>
    have hinside : 0 ≤ (advance (s.raise k) c).depth := by
      rw [advance_raise]
      show 0 ≤ (advance s c).depth + k
      omega
    refine .cons hinside (fun hzero => ?_) ?_
    · obtain ⟨hmode, hshallow⟩ := fst_step_raise_eq_zero_iff.mp hzero
      split_ifs at hshallow with hcloser
      · rw [advance_of_isCloser hmode hcloser] at inside
        dsimp only at inside
        omega
      · omega
    · rw [advance_raise]
      exact ih inside

/-! ### Parts of a text -/

theorem Through.of_append (h : Through p s (a ++ b) s') :
    ∃ m, Through p s a m ∧ Through p m b s' := by
  induction a generalizing s with
  | nil => exact ⟨s, .nil s, h⟩
  | cons c a ih =>
    cases h with
    | cons inside outer tail =>
      obtain ⟨m, ha, hb⟩ := ih tail
      exact ⟨m, .cons inside outer ha, hb⟩

/-- Blanks at the start of a text leave the scanner where it is. -/
theorem Through.of_blanks_append (ha : ∀ c ∈ a, Text.isBlank c = true)
    (h : Through p .start (a ++ b) s') : Through p .start b s' := by
  induction a with
  | nil => exact h
  | cons c a ih =>
    obtain ⟨hc, ha⟩ := List.forall_mem_cons.mp ha
    cases h with
    | cons inside outer tail =>
      have hsame : advance .start c = .start := advance_of_isPassive rfl (isPassive_of_isBlank hc)
      rw [hsame] at tail
      exact ih ha tail

/-- A text that is gone through still is when it is trimmed. -/
theorem Through.trim (h : Through p .start cs s') : ∃ m, Through p .start (Text.trim cs) m := by
  have hblanks : ∀ c ∈ cs.takeWhile Text.isBlank, Text.isBlank c = true := fun c =>
    List.mem_takeWhile_imp
  rw [← List.takeWhile_append_dropWhile (p := Text.isBlank) (l := cs)] at h
  have hstart := h.of_blanks_append hblanks
  obtain ⟨blanks, hcut, -⟩ := exists_trimEnd_append (Text.trimStart cs)
  rw [← Text.trimStart, hcut] at hstart
  obtain ⟨m, htrim, -⟩ := hstart.of_append
  exact ⟨m, htrim⟩

/-! ### Pieces -/

variable {sep : Char}

theorem piecesFrom_ne_nil (comments : Bool) (sep : Char) (s : State) (cs : List Char) :
    piecesFrom comments sep s cs ≠ [] := by
  cases cs with
  | nil => simp [piecesFrom]
  | cons c rest =>
    rw [piecesFrom]
    dsimp only
    split
    · simp
    · split <;> simp

/-- At each character a cut is made, or the first piece goes on with it. -/
theorem piecesFrom_cons (comments : Bool) (sep : Char) (s : State) (c : Char) (rest : List Char) :
    piecesFrom comments sep s (c :: rest) =
      if (step comments s c rest.head?).1 = some 0 ∧ c = sep then
        [] :: piecesFrom comments sep (step comments s c rest.head?).2 rest
      else
        (piecesFrom comments sep (step comments s c rest.head?).2 rest).modifyHead (c :: ·) := by
  obtain ⟨first, others, hpieces⟩ := List.exists_cons_of_ne_nil
    (piecesFrom_ne_nil comments sep (step comments s c rest.head?).2 rest)
  rw [piecesFrom]
  dsimp only
  rw [hpieces]
  rfl

theorem piecesFrom_false_cons (hs : s.Plain) (sep c : Char) (rest : List Char) :
    piecesFrom false sep s (c :: rest) =
      if (step false s c none).1 = some 0 ∧ c = sep then
        [] :: piecesFrom false sep (advance s c) rest
      else (piecesFrom false sep (advance s c) rest).modifyHead (c :: ·) := by
  rw [piecesFrom_cons, step_false hs]
  rfl

/-- A separator after closed text is a cut. -/
theorem piecesFrom_append_sep (hsep : isPassive sep = true) (hs : s.Plain)
    (hend : endState false s a = .start) (after : List Char) :
    piecesFrom false sep s (a ++ sep :: after) =
      piecesFrom false sep s a ++ pieces false sep after := by
  induction a generalizing s with
  | nil =>
    obtain rfl : s = .start := hend
    have hplain : State.start.Plain := trivial
    have hsame : advance .start sep = .start := advance_of_isPassive rfl hsep
    rw [List.nil_append, piecesFrom_false_cons hplain, if_pos ⟨fst_step_start sep, rfl⟩, hsame]
    rfl
  | cons c rest ih =>
    rw [endState, step_false hs] at hend
    have htail := ih (hs.advance c) hend
    obtain ⟨first, others, hpieces⟩ :=
      List.exists_cons_of_ne_nil (piecesFrom_ne_nil false sep (advance s c) rest)
    rw [hpieces] at htail
    rw [List.cons_append, piecesFrom_false_cons hs, piecesFrom_false_cons hs, htail, hpieces]
    split <;> rfl

theorem Through.endState (h : Through p s cs s') (hs : s.Plain) :
    Scan.endState false s cs = s' := by
  induction h with
  | nil => rfl
  | cons inside outer tail ih =>
    rw [Scan.endState, step_false hs]
    exact ih (hs.advance _)

/-- A text without separators goes on with the first piece of what follows it. -/
theorem Through.piecesFrom_append (h : Through p s cs s') (hs : s.Plain)
    (hp : ∀ c, p c = true → c ≠ sep) (after : List Char) :
    piecesFrom false sep s (cs ++ after) =
      (piecesFrom false sep s' after).modifyHead (cs ++ ·) := by
  induction h with
  | nil s =>
    show _ = List.modifyHead id _
    rw [List.nil_append, List.modifyHead_id, id]
  | @cons s s' c rest inside outer tail ih =>
    rw [List.cons_append, piecesFrom_false_cons hs, ih (hs.advance c), List.modifyHead_modifyHead,
      if_neg fun hcut => hp c (outer hcut.1) hcut.2]
    rfl

/-- A text without separators is one piece. -/
theorem Through.piecesFrom_eq_singleton (h : Through p s cs s') (hs : s.Plain)
    (hp : ∀ c, p c = true → c ≠ sep) : piecesFrom false sep s cs = [cs] := by
  have happend := h.piecesFrom_append hs hp []
  rwa [List.append_nil, piecesFrom, List.modifyHead_cons, List.append_nil] at happend

/-- **A text without separators** is a piece of what it is joined to. -/
theorem Through.pieces_append (h : Through p .start cs .start) (hp : ∀ c, p c = true → c ≠ sep)
    (hsep : isPassive sep = true) (after : List Char) :
    pieces false sep (cs ++ sep :: after) = cs :: pieces false sep after := by
  have hplain : State.start.Plain := trivial
  rw [pieces, piecesFrom_append_sep hsep hplain (h.endState hplain),
    h.piecesFrom_eq_singleton hplain hp]
  rfl

/-- **The pieces of a text** are gone through like the text. -/
theorem Through.exists_piecesFrom (h : Through p s cs s') (hs : s.Plain)
    (hsep : isPassive sep = true) :
    ∃ first others, piecesFrom false sep s cs = first :: others ∧ (∃ m, Through p s first m) ∧
      ∀ other ∈ others, ∃ m, Through p .start other m := by
  induction h with
  | nil s => exact ⟨[], [], rfl, ⟨s, .nil s⟩, by simp⟩
  | @cons s s' c rest inside outer tail ih =>
    obtain ⟨first, others, hpieces, ⟨m, hfirst⟩, hothers⟩ := ih (hs.advance c)
    rw [piecesFrom_false_cons hs, hpieces]
    split_ifs with hcut
    · obtain ⟨hzero, rfl⟩ := hcut
      obtain ⟨hmode, hdepth, hsame⟩ := of_fst_step_passive hsep hzero
      rw [hsame] at inside hfirst
      obtain ⟨mode, depth⟩ := s
      obtain rfl : mode = .code := hmode
      obtain rfl : depth = 0 := Int.le_antisymm hdepth inside
      exact ⟨[], first :: others, rfl, ⟨_, .nil _⟩,
        List.forall_mem_cons.mpr ⟨⟨m, hfirst⟩, hothers⟩⟩
    · exact ⟨c :: first, others, rfl, ⟨m, .cons inside outer hfirst⟩, hothers⟩

theorem Through.of_mem_pieces (h : Through p .start cs s') {piece : List Char}
    (hpiece : piece ∈ pieces false sep cs) (hsep : isPassive sep = true) :
    ∃ m, Through p .start piece m := by
  have hplain : State.start.Plain := trivial
  obtain ⟨first, others, hpieces, hfirst, hothers⟩ := h.exists_piecesFrom hplain hsep
  rw [pieces, hpieces] at hpiece
  rcases List.mem_cons.mp hpiece with rfl | hpiece
  · exact hfirst
  · exact hothers piece hpiece

end PugContracts.Scan
