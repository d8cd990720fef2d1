import PugContracts.Proofs.Program.Layout
import PugContracts.Proofs.Scan.Plain

/-!
# Scanning the layout of a program

A pushed text is cut into lines and each line is indented, also where it goes on inside a string
literal. The scanner does not notice: a line terminator and the blanks of the indentation are
characters without a meaning, in code as in a literal, and the only character that could give them
one, a backslash before them, takes effect on the newline instead (`plain?_relaid`).

`Lays k steps` holds of steps whose source is read from code to code, with comments, and raises the
depth by `k`. Steps after each other add up (`Lays.append`), because a source ends with a newline
and so no comment starts or goes on where two of them meet.
-/

namespace PugContracts.Program

open Scan (State endState plain? isComment advance isInert Spans)

variable {j k : Int} {depth : Nat} {origin : Origin} {text : List Char} {steps more : List Step}

/-! ### Cutting and indenting -/

/-- The source of a pushed text without the indentation of its first line. -/
def relaid (depth : Nat) (text : List Char) : List Char :=
  match splitLines text with
  | [] => []
  | line :: rest => line ++ '\n' :: rest.flatMap fun line => indented depth line ++ ['\n']

theorem isInert_of_isLineEnd {c : Char} (h : isLineEnd c = true) : isInert c = true := by
  simp only [isLineEnd, Bool.or_eq_true, beq_iff_eq, or_assoc] at h
  rcases h with rfl | rfl | rfl | rfl <;> decide

/-- An indented line is the line after inert characters. -/
theorem exists_indented (depth : Nat) (line : List Char) :
    ∃ blanks, (∀ c ∈ blanks, isInert c = true) ∧ indented depth line = blanks ++ line := by
  have hindentation : ∀ c ∈ indentation, isInert c = true :=
    List.all_eq_true.mp rfl
  rw [indented]
  split
  · next hempty => exact ⟨[], by simp, by rw [List.isEmpty_iff.mp hempty]; rfl⟩
  · refine ⟨_, fun c hc => ?_, rfl⟩
    obtain ⟨level, hlevel, hc⟩ := List.mem_flatten.mp hc
    exact hindentation c (List.eq_of_mem_replicate hlevel ▸ hc)

/-- The source of a push is the relaid text after inert characters. -/
theorem exists_sourceOf_push (depth : Nat) (text : List Char) (origin : Origin) :
    ∃ blanks, (∀ c ∈ blanks, isInert c = true) ∧
      (sourceOf ((Step.push text origin).lines depth)).toList = blanks ++ relaid depth text := by
  cases hlines : splitLines text with
  | nil => exact absurd hlines (splitLines_ne_nil text)
  | cons line rest =>
    obtain ⟨blanks, hblanks, hindented⟩ := exists_indented depth line
    refine ⟨blanks, hblanks, ?_⟩
    simp [Step.lines, relaid, sourceOf, hlines, hindented, List.flatMap_map]

/-- A line terminator at the start of a text becomes a newline, and indentation. -/
theorem exists_relaid_of_splitLines {rest : List Char} (h : splitLines text = [] :: splitLines rest)
    (depth : Nat) :
    ∃ blanks, (∀ c ∈ blanks, isInert c = true) ∧
      relaid depth text = '\n' :: (blanks ++ relaid depth rest) := by
  cases hlines : splitLines rest with
  | nil => exact absurd hlines (splitLines_ne_nil rest)
  | cons line lines =>
    obtain ⟨blanks, hblanks, hindented⟩ := exists_indented depth line
    exact ⟨blanks, hblanks, by simp [relaid, h, hlines, hindented]⟩

/-- Any other character stays where it is. -/
theorem relaid_cons {c : Char} (hc : isLineEnd c = false) (depth : Nat) (text : List Char) :
    relaid depth (c :: text) = c :: relaid depth text := by
  have hpair : ∀ tail, c = '\r' → text = '\n' :: tail → False := by
    rintro tail rfl -
    cases hc
  cases hlines : splitLines text with
  | nil => exact absurd hlines (splitLines_ne_nil text)
  | cons line lines => simp [relaid, splitLines.eq_3 _ _ hpair, hc, hlines]

theorem exists_splitLines_cons {c : Char} (hc : isLineEnd c = true) (text : List Char) :
    ∃ rest, splitLines (c :: text) = [] :: splitLines rest := by
  by_cases hpair : ∃ tail, c = '\r' ∧ text = '\n' :: tail
  · obtain ⟨tail, rfl, rfl⟩ := hpair
    exact ⟨tail, by rw [splitLines]⟩
  · refine ⟨text, ?_⟩
    rw [splitLines.eq_3 _ _ fun tail hc htext => hpair ⟨tail, hc, htext⟩, if_pos hc]

/-- Relaying a text does not bring a slash or a star behind a character. -/
theorem isComment_relaid (s : State) (c : Char) (depth : Nat) (text : List Char) :
    isComment s c (relaid depth text).head? = isComment s c text.head? := by
  have hinert : ∀ d, isInert d = true → isComment s c (some d) = isComment s c none := by
    intro d hd
    obtain ⟨hslash, hstar⟩ := Scan.ne_of_isInert hd
    obtain ⟨mode, depth⟩ := s
    cases mode <;> simp [isComment, hslash, hstar]
  cases text with
  | nil => exact hinert '\n' (by decide)
  | cons d rest =>
    cases hd : isLineEnd d with
    | false => rw [relaid_cons hd]; rfl
    | true =>
      obtain ⟨after, hlines⟩ := exists_splitLines_cons hd rest
      obtain ⟨blanks, -, hrelaid⟩ := exists_relaid_of_splitLines hlines depth
      rw [hrelaid]
      exact (hinert '\n' (by decide)).trans (hinert d (isInert_of_isLineEnd hd)).symm

/-- **A text is read as before when it is cut into lines and these are indented**, and the newline
at its end takes the meaning from a backslash before it. -/
theorem plain?_relaid {s : State} (hs : s.Plain) (depth : Nat) (text : List Char) :
    plain? s (relaid depth text) = (plain? s text).map State.calm := by
  have hreturn : isInert '\r' = true := by decide
  have hbreak : isInert '\n' = true := by decide
  induction text using splitLines.induct generalizing s with
  | case1 =>
    show plain? s ['\n'] = some s.calm
    rw [Scan.plain?_inert_cons hbreak hs]
    rfl
  | case2 rest ih =>
    have hlines : splitLines ('\r' :: '\n' :: rest) = [] :: splitLines rest := by rw [splitLines]
    obtain ⟨blanks, hblanks, hrelaid⟩ := exists_relaid_of_splitLines hlines depth
    rw [hrelaid, Scan.plain?_inert_cons hbreak hs, Scan.plain?_inert_cons hreturn hs,
      Scan.plain?_inert_append hblanks hs.calm s.calm_calm, ih hs.calm,
      Scan.plain?_inert_cons hbreak hs.calm, s.calm_calm]
  | case3 c rest hpair hend ih =>
    have hlines : splitLines (c :: rest) = [] :: splitLines rest := by
      rw [splitLines.eq_3 _ _ hpair, if_pos hend]
    obtain ⟨blanks, hblanks, hrelaid⟩ := exists_relaid_of_splitLines hlines depth
    rw [hrelaid, Scan.plain?_inert_cons hbreak hs,
      Scan.plain?_inert_cons (isInert_of_isLineEnd hend) hs,
      Scan.plain?_inert_append hblanks hs.calm s.calm_calm, ih hs.calm]
  | case4 c rest hpair hend hnil ih => exact absurd hnil (splitLines_ne_nil rest)
  | case5 c rest hpair hend line lines hlines ih =>
    rw [relaid_cons (Bool.eq_false_iff.mpr hend), plain?, plain?, isComment_relaid]
    split
    · rfl
    · exact ih (hs.advance c)

/-! ### Sources -/

/-- Where the first text does not end with a slash or a star, the second is read from the state that
the first ends in, comments or not. -/
theorem endState_append {comments : Bool} {s : State} {a b : List Char}
    (h : ∀ c, a.getLast? = some c → isInert c = true) :
    endState comments s (a ++ b) = endState comments (endState comments s a) b := by
  induction a generalizing s with
  | nil => rfl
  | cons c rest ih =>
    cases rest with
    | nil =>
      obtain ⟨hslash, hstar⟩ := Scan.ne_of_isInert (h c rfl)
      have hstep : ∀ next, Scan.step comments s c next = Scan.step comments s c none := by
        intro next
        simp [Scan.step, hslash, hstar]
      rw [List.singleton_append, endState, hstep, endState, endState]
      rfl
    | cons d rest =>
      exact ih fun c hc => h c (by rw [List.getLast?_cons_cons]; exact hc)

/-- The source of the steps is read from code to code, at any indentation and any depth, and raises
the depth by `k`. -/
def Lays (k : Int) (steps : List Step) : Prop :=
  ∀ indent depth, endState true ⟨.code, depth⟩ (sourceOf (layout indent steps)).toList =
    ⟨.code, depth + k⟩

theorem lays_nil : Lays 0 [] := fun indent depth => by
  rw [Int.add_zero]
  rfl

/-- **Steps after each other add up.** -/
theorem Lays.append (h : Lays j steps) (hmore : Lays k more) : Lays (j + k) (steps ++ more) := by
  intro indent depth
  have hsource : ∀ before after : List Line,
      (sourceOf (before ++ after)).toList =
        (sourceOf before).toList ++ (sourceOf after).toList := by
    simp [sourceOf]
  rw [layout_append, hsource, endState_append, h, hmore, Int.add_assoc]
  intro c hc
  cases hlines : layout indent steps with
  | nil => simp [hlines] at hc
  | cons line rest =>
    rw [getLast?_sourceOf (by simp [hlines])] at hc
    exact Option.some.inj hc ▸ by decide

theorem lays_indent : Lays 0 [.indent] := fun indent => lays_nil (indent + 1)

theorem lays_dedent : Lays 0 [.dedent] := fun indent => lays_nil (indent - 1)

theorem lays_push (h : Spans k text) (origin : Origin) : Lays k [.push text origin] := by
  intro indent depth
  obtain ⟨blanks, hblanks, hsource⟩ := exists_sourceOf_push indent text origin
  have hcode : State.Plain ⟨.code, depth⟩ := trivial
  refine Scan.endState_of_plain? ?_
  rw [layout, layout, List.append_nil, hsource, Scan.plain?_inert_append hblanks hcode rfl,
    plain?_relaid hcode, h]
  rfl

/-- A line comment ends with its line. -/
theorem endState_lineComment {rest : List Char} (h : '\n' ∉ rest) (depth : Int) :
    endState true ⟨.lineComment, depth⟩ (rest ++ ['\n']) = ⟨.code, depth⟩ := by
  induction rest with
  | nil => rfl
  | cons c rest ih =>
    obtain ⟨hc, hrest⟩ := List.ne_and_not_mem_of_not_mem_cons h
    rw [List.cons_append, endState, Scan.step, if_neg hc.symm]
    exact ih hrest

/-- A text without line terminators is one line. -/
theorem splitLines_eq_singleton (h : ∀ c ∈ text, isLineEnd c = false) :
    splitLines text = [text] := by
  induction text with
  | nil => rfl
  | cons c rest ih =>
    obtain ⟨hc, hrest⟩ := List.forall_mem_cons.mp h
    have hpair : ∀ tail, c = '\r' → rest = '\n' :: tail → False := by
      rintro tail rfl -
      cases hc
    rw [splitLines.eq_3 _ _ hpair, if_neg (by simp [hc]), ih hrest]

/-- **A line comment is over where the next line starts.** -/
theorem lays_comment {rest : List Char} (h : ∀ c ∈ rest, isLineEnd c = false) (origin : Origin) :
    Lays 0 [.push ('/' :: '/' :: rest) origin] := by
  intro indent depth
  have hslash : isLineEnd '/' = false := by decide
  have hline := splitLines_eq_singleton
    (List.forall_mem_cons.mpr ⟨hslash, List.forall_mem_cons.mpr ⟨hslash, h⟩⟩)
  obtain ⟨blanks, hblanks, hindented⟩ := exists_indented indent ('/' :: '/' :: rest)
  have hcode : State.Plain ⟨.code, depth⟩ := trivial
  have hend : '\n' ∉ rest := fun hc => absurd (h _ hc) (by decide)
  have hsource : (sourceOf (layout indent [.push ('/' :: '/' :: rest) origin])).toList =
      blanks ++ '/' :: '/' :: (rest ++ ['\n']) := by
    simp [layout, Step.lines, hline, hindented]
  have hblank : endState true ⟨.code, depth⟩ blanks = ⟨.code, depth⟩ := by
    refine Scan.endState_of_plain? ?_
    rw [← List.append_nil blanks, Scan.plain?_inert_append hblanks hcode rfl]
    rfl
  rw [hsource, endState_append fun c hc => hblanks c (List.mem_of_getLast? hc), hblank,
    Int.add_zero]
  exact endState_lineComment hend depth

end PugContracts.Program
