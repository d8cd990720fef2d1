import PugContracts.Proofs.Scan.Plain

/-!
# Where a line comment starts

Two scanners look for the line comment at the end of a text. `beforeSlashes?`, with which comments
are cut off, takes two slashes in code for its start and knows no block comments; the scanner that
is asked whether the rest is balanced does. Quotation marks and slashes in a block comment mean
something to the first one only, so the two may disagree on where code goes on after it.

`FindsLineComment` says that they do not: what is cut off is the line comment, if there is one, and
nothing else. Then the text is balanced if and only if what is left of it is. Otherwise what is left
is not balanced, or it ends in the line comment that was not found.

## Main results

* `isBalanced_withoutLineComment_iff`: a text whose line comment is found is balanced if and only if
  it is without this comment.
* `endState_withoutLineComment`: a text without its line comment ends in code, if it is balanced and
  the comment is found, and only then.
* `findsLineComment_of_isQuiet`: the comment is found where the block comments before it hold
  neither quotation marks nor two slashes in a row.
-/

namespace PugContracts.Scan

variable {comments : Bool} {s s' aware blind : State} {c d : Char} {cs a b before more : List Char}
  {depth : Int}

/-! ### Comments -/

/-- What precedes the line comment of a text, in which block comments are passed over. -/
def beforeLineComment? (s : State) : List Char → Option (List Char)
  | [] => none
  | c :: rest =>
    if s.mode = .code ∧ c = '/' ∧ rest.head? = some '/' then some []
    else (beforeLineComment? (step true s c rest.head?).2 rest).map (c :: ·)

/-- The line comment of a text is found, and nothing else is taken for one. -/
def FindsLineComment (cs : List Char) : Prop :=
  beforeLineComment? .start cs = beforeSlashes? .start cs

instance (cs : List Char) : Decidable (FindsLineComment cs) :=
  inferInstanceAs (Decidable (_ = _))

/-- Whether a character that is not blank stands outside of comments. -/
def hasCodeFrom (s : State) : List Char → Bool
  | [] => false
  | c :: rest =>
    (!isComment s c rest.head? && !Text.isBlank c) ||
      hasCodeFrom (step true s c rest.head?).2 rest

/-- Whether a text holds something besides blanks and comments. -/
def hasCode (cs : List Char) : Bool :=
  hasCodeFrom .start cs

/-- Whether the block comments of a text hold neither quotation marks nor two slashes in a row. -/
def isQuietFrom (s : State) : List Char → Bool
  | [] => true
  | c :: rest =>
    !(s.inComment && (isQuote c || (c == '/' && rest.head? == some '/'))) &&
      isQuietFrom (step true s c rest.head?).2 rest

/-- Whether nothing in the block comments of a text means something to a scanner that takes them for
code, save brackets. -/
def isQuiet (cs : List Char) : Bool :=
  isQuietFrom .start cs

/-! ### One text after the other -/

/-- A character that starts and ends no comment is read alike before all such characters. -/
theorem step_before (hslash : d ≠ '/') (hstar : d ≠ '*') (s : State) (c : Char) :
    step comments s c (some d) = step comments s c none := by
  obtain ⟨mode, depth⟩ := s
  cases mode <;> simp [step, hslash, hstar]

theorem step_head?_append (h : ∀ d ∈ b.head?, d ≠ '/' ∧ d ≠ '*') (s : State) (c : Char) :
    step comments s c (a ++ b).head? = step comments s c a.head? := by
  cases a with
  | cons d a => rfl
  | nil =>
    cases b with
    | nil => rfl
    | cons d b =>
      obtain ⟨hslash, hstar⟩ := h d rfl
      exact step_before hslash hstar s c

/-- A text after another one is read from the state that the first one ends in. -/
theorem endState_append_of_head (h : ∀ d ∈ b.head?, d ≠ '/' ∧ d ≠ '*') (s : State) :
    endState comments s (a ++ b) = endState comments (endState comments s a) b := by
  induction a generalizing s with
  | nil => rfl
  | cons c rest ih => rw [List.cons_append, endState, endState, step_head?_append h, ih]

/-- The mark of a character that starts no comment depends on what precedes it alone. -/
theorem getElem?_marks (hslash : c ≠ '/') (hstar : c ≠ '*') (s : State) (a more : List Char) :
    (marks comments s (a ++ c :: more))[a.length]? =
      some ⟨c, (step comments (endState comments s a) c more.head?).1⟩ := by
  induction a generalizing s with
  | nil => rfl
  | cons d rest ih =>
    have hhead : ∀ e ∈ (c :: more).head?, e ≠ '/' ∧ e ≠ '*' := fun e he => by
      obtain rfl := Option.some.inj he
      exact ⟨hslash, hstar⟩
    rw [List.length_cons, endState, ← step_head?_append hhead s d, ← ih]
    rfl

theorem step_raise (k : Int) (s : State) (c : Char) (next : Option Char) :
    (step comments (s.raise k) c next).2 = (step comments s c next).2.raise k := by
  by_cases hcomment : isComment s c next = true
  · obtain ⟨mode, depth⟩ := s
    cases mode with
    | code =>
      obtain ⟨rfl, hnext⟩ : c = '/' ∧ (next = some '/' ∨ next = some '*') := by
        simpa [isComment] using hcomment
      cases comments with
      | false => exact advance_raise k ⟨.code, depth⟩ '/'
      | true => rcases hnext with rfl | rfl <;> rfl
    | quoted | escaped => cases hcomment
    | lineComment | blockComment =>
      simp only [State.raise, step]
      split_ifs <;> rfl
    | blockOpen | blockClose => rfl
  · have hplain := Bool.eq_false_iff.mpr hcomment
    rw [step_of_not_isComment hplain]
    rw [← advance_raise]
    exact step_of_not_isComment hplain

/-- What is read at one depth is read at any other one, with or without comments. -/
theorem endState_raise (k : Int) (s : State) (cs : List Char) :
    endState comments (s.raise k) cs = (endState comments s cs).raise k := by
  induction cs generalizing s with
  | nil => rfl
  | cons c rest ih => rw [endState, endState, step_raise, ih]

/-- A line comment goes on to the end of the line. -/
theorem endState_of_lineComment (h : '\n' ∉ cs) (depth : Int) :
    endState true ⟨.lineComment, depth⟩ cs = ⟨.lineComment, depth⟩ := by
  induction cs with
  | nil => rfl
  | cons c rest ih =>
    obtain ⟨hc, hrest⟩ := List.ne_and_not_mem_of_not_mem_cons h
    rw [endState, step, if_neg hc.symm]
    exact ih hrest

/-! ### Two slashes in code -/

/-- A slash neither starts nor ends a string. -/
theorem mode_of_advance_slash (hs : s.Plain) (h : (advance s '/').mode = .code) :
    s.mode = .code := by
  obtain ⟨mode, depth⟩ := s
  cases mode with
  | code => rfl
  | quoted mark =>
    have hmark : '/' ≠ mark := by
      rintro rfl
      cases hs
    rw [advance_quoted, if_neg (by decide), if_neg hmark] at h
    exact h
  | escaped => cases h
  | _ => exact hs.elim

/-- Where the cut is made there are two slashes, and no third one before them. -/
theorem of_beforeSlashes? (hs : s.Plain) (h : beforeSlashes? s cs = some before) :
    (∃ more, cs = before ++ '/' :: '/' :: more) ∧ before.getLast? ≠ some '/' := by
  induction cs generalizing s before with
  | nil => cases h
  | cons c rest ih =>
    rw [beforeSlashes?, step_false hs] at h
    dsimp only at h
    split at h
    · next hcut =>
      obtain ⟨-, rfl, hnext⟩ := hcut
      obtain ⟨more, rfl⟩ := List.head?_eq_some_iff.mp hnext
      obtain rfl := Option.some.inj h
      exact ⟨⟨more, rfl⟩, by simp⟩
    · next hcut =>
      obtain ⟨before, hfound, rfl⟩ := Option.map_eq_some_iff.mp h
      obtain ⟨⟨more, hrest⟩, hlast⟩ := ih (hs.advance c) hfound
      refine ⟨⟨more, by rw [hrest]; rfl⟩, ?_⟩
      cases before with
      | cons d before => rwa [List.getLast?_cons_cons]
      | nil =>
        -- a slash before the two would have been the first one to be cut at
        rw [List.getLast?_singleton, ne_eq, Option.some.injEq]
        rintro rfl
        obtain rfl : rest = '/' :: '/' :: more := hrest
        change beforeSlashes? (advance s '/') _ = _ at hfound
        rw [beforeSlashes?, step_false (hs.advance '/')] at hfound
        dsimp only at hfound
        split at hfound
        · next hnext =>
          have hcode := mode_of_advance_slash hs (mode_of_step_isSome hnext.1)
          obtain ⟨mode, depth⟩ := s
          obtain rfl : mode = .code := hcode
          exact hcut ⟨rfl, rfl, rfl⟩
        · simp at hfound

/-- Before a slash, only a star is read otherwise than at the end of a text. -/
theorem step_before_slash (hc : c ≠ '/') (s : State) :
    step true s c (some '/') = step true s c none ∨
      (step true s c none).2.mode = .blockComment ∧
        (step true s c (some '/')).2.mode = .blockClose := by
  obtain ⟨mode, depth⟩ := s
  cases mode with
  | code => simp [step, hc]
  | blockComment =>
    by_cases hstar : c = '*'
    · simp [step, hstar]
    · simp [step, hstar]
  | quoted | escaped | lineComment | blockOpen | blockClose => exact Or.inl rfl

theorem map_cons_eq_some_iff {found : Option (List Char)} :
    found.map (c :: ·) = some (c :: cs) ↔ found = some cs := by
  cases found <;> simp

/-- The comment-aware scan goes on after the cut from where it stands there, unless that is in a
block comment. -/
theorem endState_append_slash (hlast : before.getLast? ≠ some '/')
    (hmode : (endState true s before).mode ≠ .blockComment) (more : List Char) :
    endState true s (before ++ '/' :: more) =
      endState true (endState true s before) ('/' :: more) := by
  induction before generalizing s with
  | nil => rfl
  | cons c rest ih =>
    cases rest with
    | cons d rest => exact ih (by rwa [List.getLast?_cons_cons] at hlast) hmode
    | nil =>
      have hc : c ≠ '/' := by simpa using hlast
      rcases step_before_slash hc s with hstep | ⟨hopen, -⟩
      · rw [List.singleton_append, endState, List.head?_cons, hstep]
        rfl
      · exact absurd hopen hmode

/-- The cut is the start of the line comment if the comment-aware scan stands in code there. -/
theorem beforeLineComment?_append_iff (hlast : before.getLast? ≠ some '/')
    (hsingle : '\n' ∉ before) (more : List Char) :
    beforeLineComment? s (before ++ '/' :: '/' :: more) = some before ↔
      (endState true s before).mode = .code := by
  induction before generalizing s with
  | nil => simp [beforeLineComment?, endState]
  | cons c rest ih =>
    obtain ⟨-, hrest⟩ := List.ne_and_not_mem_of_not_mem_cons hsingle
    rw [List.cons_append, beforeLineComment?]
    cases rest with
    | nil =>
      have hc : c ≠ '/' := by simpa using hlast
      have htail := ih (s := (step true s c (some '/')).2) (by simp) hrest
      rw [if_neg fun hcut => hc hcut.2.1]
      show Option.map (c :: ·) (beforeLineComment? (step true s c (some '/')).2
        ([] ++ '/' :: '/' :: more)) = some [c] ↔ (step true s c none).2.mode = .code
      rw [map_cons_eq_some_iff, htail]
      rcases step_before_slash hc s with hstep | ⟨hopen, hclose⟩
      · rw [hstep]
        rfl
      · rw [hopen]
        exact iff_of_false (by rw [endState, hclose]; simp) (by simp)
    | cons d rest =>
      rw [List.getLast?_cons_cons] at hlast
      have htail := ih (s := (step true s c (some d)).2) hlast hrest
      split
      · next hcut =>
        obtain ⟨hcode, rfl, hnext⟩ := hcut
        obtain rfl : d = '/' := Option.some.inj hnext
        obtain ⟨mode, depth⟩ := s
        obtain rfl : mode = .code := hcode
        refine iff_of_false (by simp) fun hend => ?_
        rw [endState] at hend
        have hcomment : step true ⟨.code, depth⟩ '/' (('/' :: rest).head?) =
            (none, ⟨.lineComment, depth⟩) := rfl
        rw [hcomment, endState_of_lineComment hrest] at hend
        cases hend
      · show Option.map (c :: ·) (beforeLineComment? (step true s c (some d)).2
          (d :: rest ++ '/' :: '/' :: more)) = some (c :: d :: rest) ↔ _
        rw [map_cons_eq_some_iff, htail]
        rfl

/-- A line comment starts with two slashes in code. -/
theorem mode_step_ne_lineComment {next : Option Char} (hmode : s.mode ≠ .lineComment)
    (hslashes : ¬ (s.mode = .code ∧ c = '/' ∧ next = some '/')) :
    (step true s c next).2.mode ≠ .lineComment := by
  obtain ⟨mode, depth⟩ := s
  cases mode with
  | code =>
    have hnot : ¬ (c = '/' ∧ next = some '/') := fun h => hslashes ⟨rfl, h⟩
    simp only [step, true_and, if_neg hnot, stepCode]
    split_ifs <;> simp
  | lineComment => exact absurd rfl hmode
  | quoted | blockComment =>
    simp only [step]
    split_ifs <;> simp
  | escaped | blockOpen | blockClose => simp [step]

/-- Without a line comment in it, a text does not end in one. -/
theorem beforeLineComment?_eq_none_iff (hsingle : '\n' ∉ cs) (hmode : s.mode ≠ .lineComment) :
    beforeLineComment? s cs = none ↔ (endState true s cs).mode ≠ .lineComment := by
  induction cs generalizing s with
  | nil => exact iff_of_true rfl hmode
  | cons c rest ih =>
    obtain ⟨-, hrest⟩ := List.ne_and_not_mem_of_not_mem_cons hsingle
    rw [beforeLineComment?, endState]
    split
    · next hcut =>
      obtain ⟨hcode, rfl, hnext⟩ := hcut
      obtain ⟨mode, depth⟩ := s
      obtain rfl : mode = .code := hcode
      have hcomment : step true ⟨.code, depth⟩ '/' rest.head? = (none, ⟨.lineComment, depth⟩) := by
        rw [hnext]
        rfl
      rw [hcomment, endState_of_lineComment hrest]
      exact iff_of_false (by simp) (by simp)
    · next hcut =>
      rw [Option.map_eq_none_iff]
      exact ih hrest (mode_step_ne_lineComment hmode hcut)

/-! ### Blanks at the end -/

namespace State

/-- A state between two signs: not within the two characters that start or end a block comment. -/
def Settled (s : State) : Prop :=
  s.Plain ∨ s.mode = .lineComment ∨ s.mode = .blockComment

/-- Code, a string or a comment. -/
def Regular (s : State) : Prop :=
  s.Settled ∨ s.mode = .blockOpen ∨ s.mode = .blockClose

theorem Regular.step (hs : s.Regular) (c : Char) (next : Option Char) :
    (Scan.step true s c next).2.Regular ∧
      (next = none → (Scan.step true s c next).2.Settled) := by
  by_cases hcomment : isComment s c next = true
  · obtain ⟨mode, depth⟩ := s
    cases mode with
    | code =>
      obtain ⟨rfl, rfl | rfl⟩ : c = '/' ∧ (next = some '/' ∨ next = some '*') := by
        simpa [isComment] using hcomment
      · exact ⟨Or.inl (Or.inr (Or.inl rfl)), by simp⟩
      · exact ⟨Or.inr (Or.inl rfl), by simp⟩
    | quoted | escaped => cases hcomment
    | lineComment =>
      by_cases hline : c = '\n'
      · simp [Scan.step, hline, Regular, Settled, Plain]
      · simp [Scan.step, hline, Regular, Settled]
    | blockComment =>
      by_cases hend : c = '*' ∧ next = some '/'
      · simp [Scan.step, hend, Regular]
      · simp [Scan.step, hend, Regular, Settled]
    | blockOpen | blockClose => simp [Scan.step, Regular, Settled, Plain]
  · have hplain : s.Plain := by
      obtain ⟨mode, depth⟩ := s
      cases mode with
      | code => trivial
      | quoted | escaped => simpa [Regular, Settled] using hs
      | _ => exact absurd rfl hcomment
    rw [step_of_not_isComment (Bool.eq_false_iff.mpr hcomment)]
    exact ⟨Or.inl (Or.inl (hplain.advance c)), fun _ => Or.inl (hplain.advance c)⟩

/-- At the end of a text no sign is half read. -/
theorem settled_endState (hs : s.Regular) (hnil : cs = [] → s.Settled) :
    (endState true s cs).Settled := by
  induction cs generalizing s with
  | nil => exact hnil rfl
  | cons c rest ih =>
    obtain ⟨hregular, hsettled⟩ := hs.step c rest.head?
    refine ih hregular ?_
    rintro rfl
    exact hsettled rfl

/-- Blanks leave the scanner where it is, save that they take the meaning from a backslash. -/
theorem Settled.step_blank (hs : s.Settled) (hblank : Text.isBlank c = true) (hline : c ≠ '\n')
    (next : Option Char) : (Scan.step true s c next).2 = s.calm := by
  have hinert := isInert_of_isBlank hblank
  rcases hs with hs | hmode | hmode
  · rw [step_of_not_isComment (isComment_of_isInert hinert hs next), advance_of_isInert hinert hs]
  · obtain ⟨mode, depth⟩ := s
    obtain rfl : mode = .lineComment := hmode
    simp [Scan.step, hline, calm]
  · obtain ⟨mode, depth⟩ := s
    obtain rfl : mode = .blockComment := hmode
    simp [Scan.step, (ne_of_isInert hinert).2, calm]

theorem Settled.calm (hs : s.Settled) : s.calm.Settled := by
  rcases hs with hs | hmode | hmode
  · exact Or.inl hs.calm
  · obtain ⟨mode, depth⟩ := s
    obtain rfl : mode = .lineComment := hmode
    exact Or.inr (Or.inl rfl)
  · obtain ⟨mode, depth⟩ := s
    obtain rfl : mode = .blockComment := hmode
    exact Or.inr (Or.inr rfl)

theorem calm_endState_blanks (hs : s.Settled) (hblank : ∀ c ∈ cs, Text.isBlank c = true)
    (hsingle : '\n' ∉ cs) : (endState true s cs).calm = s.calm := by
  induction cs generalizing s with
  | nil => rfl
  | cons c rest ih =>
    obtain ⟨hc, hrest⟩ := List.forall_mem_cons.mp hblank
    obtain ⟨hline, hsingle⟩ := List.ne_and_not_mem_of_not_mem_cons hsingle
    rw [endState, hs.step_blank hc hline.symm, ih hs.calm hrest hsingle, calm_calm]

@[simp] theorem isBalanced_calm (s : State) : s.calm.isBalanced = s.isBalanced := by
  obtain ⟨mode, depth⟩ := s
  cases mode <;> rfl

theorem mode_calm_eq_code_iff : s.calm.mode = .code ↔ s.mode = .code := by
  obtain ⟨mode, depth⟩ := s
  cases mode <;> simp [State.calm]

end State

theorem exists_trimEnd_append (cs : List Char) :
    ∃ blanks, cs = Text.trimEnd cs ++ blanks ∧ ∀ c ∈ blanks, Text.isBlank c = true := by
  refine ⟨(cs.reverse.takeWhile Text.isBlank).reverse, ?_,
    fun c hc => List.mem_takeWhile_imp (List.mem_reverse.mp hc)⟩
  rw [Text.trimEnd, Text.dropTrailing, ← List.reverse_append, List.takeWhile_append_dropWhile,
    List.reverse_reverse]

/-- Trailing blanks are of no account. -/
theorem calm_endState_trimEnd (hsingle : '\n' ∉ cs) :
    (endState true .start (Text.trimEnd cs)).calm = (endState true .start cs).calm := by
  obtain ⟨blanks, hcut, hblank⟩ := exists_trimEnd_append cs
  have hhead : ∀ d ∈ blanks.head?, d ≠ '/' ∧ d ≠ '*' := fun d hd =>
    ne_of_isInert (isInert_of_isBlank (hblank d (List.mem_of_mem_head? hd)))
  have hsettled : (endState true .start (Text.trimEnd cs)).Settled :=
    State.settled_endState (Or.inl (Or.inl trivial)) fun _ => Or.inl trivial
  have hline : '\n' ∉ blanks := fun hmem => by
    rw [hcut] at hsingle
    exact hsingle (List.mem_append_right _ hmem)
  calc (endState true .start (Text.trimEnd cs)).calm
      = (endState true (endState true .start (Text.trimEnd cs)) blanks).calm :=
        (State.calm_endState_blanks hsettled hblank hline).symm
    _ = (endState true .start (Text.trimEnd cs ++ blanks)).calm := by
        rw [endState_append_of_head hhead]
    _ = (endState true .start cs).calm := by rw [← hcut]

/-! ### Without the line comment -/

/-- What is balanced ends in code or in a line comment. -/
theorem State.of_isBalanced (h : s.isBalanced = true) :
    s.depth = 0 ∧ (s.mode = .code ∨ s.mode = .lineComment) := by
  obtain ⟨mode, depth⟩ := s
  simp only [State.isBalanced, Bool.and_eq_true, beq_iff_eq, Bool.not_eq_true'] at h
  obtain ⟨⟨hdepth, hstring⟩, hcomment⟩ := h
  refine ⟨hdepth, ?_⟩
  cases mode with
  | code => exact Or.inl rfl
  | lineComment => exact Or.inr rfl
  | quoted | escaped => cases hstring
  | blockOpen | blockComment | blockClose => cases hcomment

theorem isBalanced_trimEnd (hsingle : '\n' ∉ cs) :
    isBalanced true (Text.trimEnd cs) = isBalanced true cs := by
  rw [isBalanced, isBalanced, ← State.isBalanced_calm, calm_endState_trimEnd hsingle,
    State.isBalanced_calm]

/-- Where the comment-aware scan stands in code or in a line comment, the rest of the line after two
slashes is one. -/
theorem endState_of_slashes (hlast : before.getLast? ≠ some '/') (hsingle : '\n' ∉ more)
    (hmode : (endState true .start before).mode = .code ∨
      (endState true .start before).mode = .lineComment) :
    endState true .start (before ++ '/' :: '/' :: more) =
      ⟨.lineComment, (endState true .start before).depth⟩ := by
  have hblock : (endState true .start before).mode ≠ .blockComment := by
    rcases hmode with hmode | hmode <;> simp [hmode]
  rw [endState_append_slash hlast hblock]
  generalize endState true .start before = s at hmode
  obtain ⟨mode, depth⟩ := s
  have hslash : '\n' ∉ '/' :: more := by simpa using hsingle
  rcases hmode with hmode | hmode
  · obtain rfl : mode = .code := hmode
    exact endState_of_lineComment hslash depth
  · obtain rfl : mode = .lineComment := hmode
    exact endState_of_lineComment (by simpa using hsingle) depth

theorem isBalanced_iff_of_mode (hmode : s.mode = .code ∨ s.mode = .lineComment) :
    s.isBalanced = true ↔ s.depth = 0 := by
  obtain ⟨mode, depth⟩ := s
  rcases hmode with hmode | hmode
  · obtain rfl : mode = .code := hmode
    simp [State.isBalanced, State.inString, State.inComment]
  · obtain rfl : mode = .lineComment := hmode
    simp [State.isBalanced, State.inString, State.inComment]

variable (hsingle : '\n' ∉ cs)
include hsingle

/-- **What is left is only balanced if all is.** -/
theorem isBalanced_of_withoutLineComment (h : isBalanced true (withoutLineComment cs) = true) :
    isBalanced true cs = true := by
  cases hcut : beforeSlashes? .start cs with
  | none => rwa [withoutLineComment, hcut] at h
  | some before =>
    obtain ⟨⟨more, rfl⟩, hlast⟩ := of_beforeSlashes? (s := .start) trivial hcut
    simp only [List.mem_append, List.mem_cons, not_or] at hsingle
    rw [withoutLineComment, hcut] at h
    have h : isBalanced true (Text.trimEnd before) = true := h
    rw [isBalanced_trimEnd hsingle.1, isBalanced] at h
    obtain ⟨hdepth, hmode⟩ := State.of_isBalanced h
    rw [isBalanced, endState_of_slashes hlast hsingle.2.2.2 hmode, hdepth]
    rfl

/-- **A text whose line comment is found** is balanced if and only if it is without the comment. -/
theorem isBalanced_withoutLineComment_iff (hfinds : FindsLineComment cs) :
    isBalanced true (withoutLineComment cs) = true ↔ isBalanced true cs = true := by
  refine ⟨isBalanced_of_withoutLineComment hsingle, fun h => ?_⟩
  cases hcut : beforeSlashes? .start cs with
  | none => rwa [withoutLineComment, hcut]
  | some before =>
    obtain ⟨⟨more, rfl⟩, hlast⟩ := of_beforeSlashes? (s := .start) trivial hcut
    simp only [List.mem_append, List.mem_cons, not_or] at hsingle
    rw [FindsLineComment, hcut] at hfinds
    have hcode := (beforeLineComment?_append_iff hlast hsingle.1 more).mp hfinds
    rw [isBalanced, endState_of_slashes hlast hsingle.2.2.2 (Or.inl hcode)] at h
    rw [withoutLineComment, hcut]
    show isBalanced true (Text.trimEnd before) = true
    rw [isBalanced_trimEnd hsingle.1, isBalanced, isBalanced_iff_of_mode (Or.inl hcode)]
    exact (State.of_isBalanced h).1

/-- **What is left of a balanced text ends in code** if the line comment is found, and only then. -/
theorem endState_withoutLineComment (h : isBalanced true (withoutLineComment cs) = true) :
    endState true .start (withoutLineComment cs) = .start ↔ FindsLineComment cs := by
  obtain ⟨hdepth, -⟩ := State.of_isBalanced h
  have hstart : endState true .start (withoutLineComment cs) = .start ↔
      (endState true .start (withoutLineComment cs)).mode = .code := by
    generalize endState true .start (withoutLineComment cs) = s at hdepth
    obtain ⟨mode, depth⟩ := s
    obtain rfl : depth = 0 := hdepth
    simp [State.start]
  rw [hstart, FindsLineComment]
  cases hcut : beforeSlashes? .start cs with
  | none =>
    have hwhole : withoutLineComment cs = cs := by rw [withoutLineComment, hcut]
    rw [hwhole] at h ⊢
    rw [beforeLineComment?_eq_none_iff hsingle (by decide)]
    rcases (State.of_isBalanced h).2 with hmode | hmode <;> simp [hmode]
  | some before =>
    obtain ⟨⟨more, rfl⟩, hlast⟩ := of_beforeSlashes? (s := .start) trivial hcut
    simp only [List.mem_append, List.mem_cons, not_or] at hsingle
    rw [beforeLineComment?_append_iff hlast hsingle.1, withoutLineComment, hcut]
    show (endState true .start (Text.trimEnd before)).mode = .code ↔ _
    rw [← State.mode_calm_eq_code_iff, calm_endState_trimEnd hsingle.1, State.mode_calm_eq_code_iff]

omit hsingle

theorem hasCodeFrom_of_lineComment (hsingle : '\n' ∉ cs) (depth : Int) :
    hasCodeFrom ⟨.lineComment, depth⟩ cs = false := by
  induction cs with
  | nil => rfl
  | cons c rest ih =>
    obtain ⟨hc, hrest⟩ := List.ne_and_not_mem_of_not_mem_cons hsingle
    rw [hasCodeFrom, step, if_neg hc.symm, ih hrest]
    rfl

theorem trimEnd_cons_ne_nil (hc : Text.isBlank c = false) (cs : List Char) :
    Text.trimEnd (c :: cs) ≠ [] := by
  intro hnil
  obtain ⟨blanks, hcut, hblank⟩ := exists_trimEnd_append (c :: cs)
  rw [hnil, List.nil_append] at hcut
  rw [hblank c (by rw [← hcut]; exact List.mem_cons_self)] at hc
  cases hc

/-- What is left of a text is something if there was code, or a block comment at its start. -/
theorem withoutLineComment_ne_nil_iff (hhead : ∀ c ∈ cs.head?, Text.isBlank c = false)
    (hsingle : '\n' ∉ cs) :
    withoutLineComment cs ≠ [] ↔ hasCode cs = true ∨ ['/', '*'] <+: cs := by
  cases cs with
  | nil => simp [withoutLineComment, beforeSlashes?, hasCode, hasCodeFrom]
  | cons c rest =>
    have hc := hhead c rfl
    by_cases hslashes : c = '/' ∧ rest.head? = some '/'
    · obtain ⟨rfl, hnext⟩ := hslashes
      obtain ⟨more, rfl⟩ := List.head?_eq_some_iff.mp hnext
      have hcode : hasCode ('/' :: '/' :: more) = false :=
        hasCodeFrom_of_lineComment (List.ne_and_not_mem_of_not_mem_cons hsingle).2 0
      refine iff_of_false (fun hne => hne rfl) ?_
      simp [hcode, List.cons_prefix_cons]
    · have hleft : withoutLineComment (c :: rest) ≠ [] := by
        rw [withoutLineComment]
        cases hcut : beforeSlashes? .start (c :: rest) with
        | none => exact List.cons_ne_nil c rest
        | some before =>
          rw [beforeSlashes?] at hcut
          dsimp only at hcut
          rw [if_neg fun h => hslashes h.2] at hcut
          obtain ⟨tail, -, rfl⟩ := Option.map_eq_some_iff.mp hcut
          exact trimEnd_cons_ne_nil hc tail
      refine iff_of_true hleft ?_
      by_cases hstar : c = '/' ∧ rest.head? = some '*'
      · obtain ⟨rfl, hnext⟩ := hstar
        obtain ⟨more, rfl⟩ := List.head?_eq_some_iff.mp hnext
        exact Or.inr ⟨more, rfl⟩
      · have hplain : isComment .start c rest.head? = false := by
          simp only [isComment, State.start]
          by_cases hslash : c = '/'
          · simp only [hslash, true_and] at hslashes hstar
            simp [hslashes, hstar]
          · simp [hslash]
        simp [hasCode, hasCodeFrom, hplain, hc]

/-! ### Quiet comments -/

/-- Both scanners are in the same code or string, or one of them takes a block comment for code. -/
def Apace (aware blind : State) : Prop :=
  (aware.Plain ∧ blind.mode = aware.mode) ∨ (aware.inComment = true ∧ blind.mode = .code)

/-- The scanners stay together over code and strings. -/
theorem Apace.advance (haware : aware.Plain) (hmode : blind.mode = aware.mode) (c : Char) :
    Apace (advance aware c) (advance blind c) := by
  refine Or.inl ⟨haware.advance c, ?_⟩
  have hraise : blind = aware.raise (blind.depth - aware.depth) := by
    obtain ⟨mode, depth⟩ := aware
    obtain ⟨mode', depth'⟩ := blind
    obtain rfl : mode' = mode := hmode
    simp only [State.raise, State.mk.injEq, true_and]
    omega
  rw [hraise, advance_raise]
  rfl

/-- The scanners stay together over a quiet comment. -/
theorem Apace.step_comment (haware : aware.inComment = true) (hblind : blind.mode = .code)
    (hquote : isQuote c = false) (next : Option Char) :
    Apace (step true aware c next).2 (Scan.advance blind c) := by
  have hcode : (Scan.advance blind c).mode = .code := by
    obtain ⟨mode, depth⟩ := blind
    obtain rfl : mode = .code := hblind
    rw [advance_code, stepCode, hquote]
    cases isCloser c <;> cases isOpener c <;> rfl
  obtain ⟨mode, depth⟩ := aware
  cases mode with
  | blockClose => exact Or.inl ⟨trivial, hcode⟩
  | blockOpen => exact Or.inr ⟨rfl, hcode⟩
  | blockComment =>
    refine Or.inr ⟨?_, hcode⟩
    simp only [step]
    split_ifs <;> rfl
  | _ => cases haware

theorem isSome_step_iff {next : Option Char} :
    (step false s c next).1.isSome = true ↔ s.mode = .code := by
  refine ⟨mode_of_step_isSome, fun hmode => ?_⟩
  obtain ⟨mode, depth⟩ := s
  obtain rfl : mode = .code := hmode
  rfl

/-- One step of both scanners, where neither finds the line comment. -/
theorem Apace.step (hapace : Apace aware blind) {next : Option Char}
    (hquiet : (!(aware.inComment && (isQuote c || (c == '/' && next == some '/')))) = true)
    (hslashes : ¬ (aware.mode = .code ∧ c = '/' ∧ next = some '/')) :
    Apace (Scan.step true aware c next).2 (Scan.advance blind c) := by
  rcases hapace with ⟨hplain, hmode⟩ | ⟨hcomment, hmode⟩
  · by_cases hstarts : isComment aware c next = true
    · obtain ⟨mode, depth⟩ := aware
      obtain ⟨mode', depth'⟩ := blind
      obtain rfl : mode' = mode := hmode
      cases mode' with
      | code =>
        obtain ⟨rfl, hnext⟩ : c = '/' ∧ (next = some '/' ∨ next = some '*') := by
          simpa [isComment] using hstarts
        obtain rfl : next = some '*' := hnext.resolve_left fun hnext => hslashes ⟨rfl, rfl, hnext⟩
        exact Or.inr ⟨rfl, rfl⟩
      | quoted | escaped => cases hstarts
      | _ => exact hplain.elim
    · rw [step_of_not_isComment (Bool.eq_false_iff.mpr hstarts)]
      exact .advance hplain hmode c
  · rw [hcomment, Bool.true_and, Bool.not_eq_true', Bool.or_eq_false_iff] at hquiet
    exact .step_comment hcomment hmode hquiet.1 next

theorem beforeLineComment?_of_isQuietFrom (hblind : blind.Plain) (hapace : Apace aware blind)
    (h : isQuietFrom aware cs = true) : beforeLineComment? aware cs = beforeSlashes? blind cs := by
  induction cs generalizing aware blind with
  | nil => rfl
  | cons c rest ih =>
    rw [isQuietFrom, Bool.and_eq_true] at h
    obtain ⟨hquiet, hrest⟩ := h
    have hsame : ((step false blind c none).1.isSome = true ∧ c = '/' ∧ rest.head? = some '/') ↔
        (aware.mode = .code ∧ c = '/' ∧ rest.head? = some '/') := by
      rw [isSome_step_iff]
      refine and_congr_left fun hslashes => ?_
      rcases hapace with ⟨-, hmode⟩ | ⟨hcomment, -⟩
      · rw [hmode]
      · simp [hcomment, hslashes] at hquiet
    rw [beforeLineComment?, beforeSlashes?, step_false hblind]
    dsimp only
    by_cases hcut : aware.mode = .code ∧ c = '/' ∧ rest.head? = some '/'
    · rw [if_pos hcut, if_pos (hsame.mpr hcut)]
    · rw [if_neg hcut, if_neg (mt hsame.mp hcut),
        ih (hblind.advance c) (hapace.step hquiet hcut) hrest]
      rfl

/-- **The line comment is found** where the block comments before it are quiet. -/
theorem findsLineComment_of_isQuiet (h : isQuiet cs = true) : FindsLineComment cs :=
  have hstart : State.Plain .start := trivial
  beforeLineComment?_of_isQuietFrom hstart (Or.inl ⟨hstart, rfl⟩) h

example : ¬ FindsLineComment "a /* see http://b */".toList := by decide

end PugContracts.Scan
