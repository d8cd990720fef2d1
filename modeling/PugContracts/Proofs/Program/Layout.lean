import PugContracts.Program.Generate

/-!
# Lines of a program and entries of its map

The origin of a generated line is looked up by its number, so a line terminator that is counted
differently on the two sides moves every later diagnostic to another line of the template. A pushed
text may hold any of the terminators of the host language. They are cut out before a line is
stored, so no stored line holds one (`not_isLineEnd_of_mem_layout`), and the only terminators of the
source are the newlines that `sourceOf` adds, one for each line.

`Aligned lines` collects what this gives for a reader of the source: it finds no terminator but the
newline, as many newlines as there are map entries, and line by line the texts that were stored
with these entries.

## Main results

* `physicalLines_splitLines`: a pushed text is cut into its physical lines.
* `text_aligned_with_map`: the text and the map are aligned, in every program and after any steps,
  and a push adds its physical lines, all with its origin.
-/

namespace PugContracts.Program

variable {depth : Nat} {lines : List Line} {line : Line} {steps : List Step}

/-! ### Cutting a text -/

/-- What ends a line in the host language. -/
def terminators : List (List Char) :=
  [['\n'], ['\r'], ['\r', '\n'], ['\u2028'], ['\u2029']]

/-- The physical lines of a text: stretches without line terminators, with one terminator between
two of them. A carriage return and the newline after it are one terminator. -/
inductive PhysicalLines : List Char → List (List Char) → Prop
  /-- What follows the last terminator. -/
  | last {piece : List Char} (hpiece : ∀ c ∈ piece, isLineEnd c = false) :
      PhysicalLines piece [piece]
  /-- A line and its terminator. -/
  | cons {piece terminator rest : List Char} {pieces : List (List Char)}
      (hpiece : ∀ c ∈ piece, isLineEnd c = false) (hterminator : terminator ∈ terminators)
      (hreturn : terminator = ['\r'] → rest.head? ≠ some '\n') (hrest : PhysicalLines rest pieces) :
      PhysicalLines (piece ++ terminator ++ rest) (piece :: pieces)

theorem PhysicalLines.not_isLineEnd {text : List Char} {pieces : List (List Char)}
    (h : PhysicalLines text pieces) {piece : List Char} (hpiece : piece ∈ pieces) :
    ∀ c ∈ piece, isLineEnd c = false := by
  induction h with
  | last hlast => rwa [List.mem_singleton.mp hpiece]
  | cons hfirst _ _ _ ih =>
    rcases List.mem_cons.mp hpiece with rfl | hpiece
    · exact hfirst
    · exact ih hpiece

/-- A character that ends no line goes to the front of the first line. -/
theorem PhysicalLines.push {c : Char} {text piece : List Char} {pieces : List (List Char)}
    (h : PhysicalLines text (piece :: pieces)) (hc : isLineEnd c = false) :
    PhysicalLines (c :: text) ((c :: piece) :: pieces) := by
  cases h with
  | last hpiece => exact last (List.forall_mem_cons.mpr ⟨hc, hpiece⟩)
  | cons hpiece hterminator hreturn hrest =>
    exact cons (List.forall_mem_cons.mpr ⟨hc, hpiece⟩) hterminator hreturn hrest

/-- A terminator at the front of a text ends an empty line. -/
theorem PhysicalLines.cons_nil {terminator rest : List Char} {pieces : List (List Char)}
    (hterminator : terminator ∈ terminators)
    (hreturn : terminator = ['\r'] → rest.head? ≠ some '\n') (hrest : PhysicalLines rest pieces) :
    PhysicalLines (terminator ++ rest) ([] :: pieces) :=
  cons (List.forall_mem_nil _) hterminator hreturn hrest

theorem splitLines_ne_nil (text : List Char) : splitLines text ≠ [] := by
  fun_cases splitLines text <;> simp

/-- **The pieces that a text is cut into are its physical lines.** -/
theorem physicalLines_splitLines (text : List Char) : PhysicalLines text (splitLines text) := by
  induction text using splitLines.induct with
  | case1 => exact .last (by simp)
  | case2 rest ih =>
    rw [splitLines, show '\r' :: '\n' :: rest = ['\r', '\n'] ++ rest from rfl]
    exact .cons_nil (by decide) (by simp) ih
  | case3 c rest hpair hend ih =>
    rw [splitLines.eq_3 _ _ hpair, if_pos hend, ← List.singleton_append]
    refine .cons_nil ?_ (fun hc hnext => ?_) ih
    · simpa [isLineEnd, terminators, or_assoc] using hend
    · obtain ⟨tail, rfl⟩ := List.head?_eq_some_iff.mp hnext
      exact hpair tail (List.singleton_inj.mp hc) rfl
  | case4 c rest hpair hend hnil ih => exact absurd hnil (splitLines_ne_nil rest)
  | case5 c rest hpair hend line lines hsplit ih =>
    rw [splitLines.eq_3 _ _ hpair, if_neg hend, hsplit]
    rw [hsplit] at ih
    exact ih.push (Bool.eq_false_iff.mpr hend)

/-! ### Stored lines -/

theorem not_isLineEnd_of_mem_indentation : ∀ c ∈ indentation, isLineEnd c = false := by
  have hspaces : indentation = [' ', ' '] := by decide +kernel
  simp [hspaces, isLineEnd]

theorem not_isLineEnd_of_mem_indented {text : List Char}
    (htext : ∀ c ∈ text, isLineEnd c = false) {c : Char} (hc : c ∈ indented depth text) :
    isLineEnd c = false := by
  rw [indented] at hc
  split at hc
  · simp at hc
  · rcases List.mem_append.mp hc with hc | hc
    · obtain ⟨level, hlevel, hc⟩ := List.mem_flatten.mp hc
      rw [List.eq_of_mem_replicate hlevel] at hc
      exact not_isLineEnd_of_mem_indentation c hc
    · exact htext c hc

theorem not_isLineEnd_of_mem_step {step : Step} (hline : line ∈ step.lines depth) :
    ∀ c ∈ line.text, isLineEnd c = false := by
  cases step with
  | push text origin =>
    obtain ⟨piece, hpiece, rfl⟩ := List.mem_map.mp hline
    exact fun c => not_isLineEnd_of_mem_indented fun c hc =>
      (physicalLines_splitLines text).not_isLineEnd hpiece c hc
  | indent | dedent => simp [Step.lines] at hline

/-- **No stored line holds a line terminator**, whatever was pushed. -/
theorem not_isLineEnd_of_mem_layout (hline : line ∈ layout depth steps) :
    ∀ c ∈ line.text, isLineEnd c = false := by
  induction steps generalizing depth with
  | nil => simp [layout] at hline
  | cons step rest ih =>
    rcases List.mem_append.mp hline with hline | hline
    · exact not_isLineEnd_of_mem_step hline
    · exact ih hline

/-- The indentation that steps lead to is that of what comes after them. -/
theorem layout_append (depth : Nat) (before after : List Step) :
    layout depth (before ++ after) =
      layout depth before ++ layout (before.foldl Step.depthAfter depth) after := by
  induction before generalizing depth with
  | nil => rfl
  | cons step rest ih => simp [layout, ih]

theorem layout_eq_nil_iff :
    layout depth steps = [] ↔ ∀ text origin, Step.push text origin ∉ steps := by
  induction steps generalizing depth with
  | nil => simp [layout]
  | cons step rest ih =>
    cases step with
    | push text origin =>
      have hpushed : (Step.push text origin).lines depth ≠ [] := by
        simpa [Step.lines] using splitLines_ne_nil text
      refine iff_of_false (fun hnil => hpushed (List.append_eq_nil_iff.mp hnil).1) fun hnone => ?_
      exact hnone text origin List.mem_cons_self
    | indent | dedent => simp [layout, Step.lines, ih]

/-! ### The source -/

@[simp] theorem toList_sourceOf_nil : (sourceOf []).toList = [] := rfl

@[simp] theorem toList_sourceOf_cons :
    (sourceOf (line :: lines)).toList = line.text ++ '\n' :: (sourceOf lines).toList := by
  simp [sourceOf]

theorem getLast?_sourceOf (hlines : lines ≠ []) :
    (sourceOf lines).toList.getLast? = some '\n' := by
  induction lines with
  | nil => exact absurd rfl hlines
  | cons line rest ih =>
    rw [toList_sourceOf_cons, List.getLast?_append, List.getLast?_cons, Option.some_or]
    cases rest with
    | nil => rfl
    | cons next rest => rw [ih (List.cons_ne_nil _ _), Option.getD_some]

/-- A reader of the source and the map agree on the lines. -/
structure Aligned (lines : List Line) : Prop where
  /-- No line terminator but the newline occurs in the source. -/
  eq_newline : ∀ c ∈ (sourceOf lines).toList, isLineEnd c = true → c = '\n'
  /-- The source has as many newlines as the map has entries. -/
  count_newline : (sourceOf lines).toList.count '\n' = (lines.map Line.origin).length
  /-- The physical lines of the source are the stored lines, and nothing after the last. -/
  physicalLines : PhysicalLines (sourceOf lines).toList (lines.map Line.text ++ [[]])

theorem aligned_of_not_isLineEnd
    (hlines : ∀ line ∈ lines, ∀ c ∈ line.text, isLineEnd c = false) : Aligned lines := by
  induction lines with
  | nil => exact ⟨by simp, rfl, .last (by simp)⟩
  | cons line rest ih =>
    obtain ⟨hline, hrest⟩ := List.forall_mem_cons.mp hlines
    obtain ⟨heq, hcount, hphysical⟩ := ih hrest
    have hnone : line.text.count '\n' = 0 :=
      List.count_eq_zero.mpr fun hc => absurd (hline _ hc) (by decide)
    refine ⟨fun c hc hend => ?_, ?_, ?_⟩
    · rw [toList_sourceOf_cons, List.mem_append, List.mem_cons] at hc
      rcases hc with hc | rfl | hc
      · exact absurd hend (by simp [hline c hc])
      · rfl
      · exact heq c hc hend
    · simp [hnone, hcount]
    · rw [toList_sourceOf_cons, ← List.singleton_append, ← List.append_assoc]
      exact .cons hline (by decide) (by simp) hphysical

theorem aligned_layout (depth : Nat) (steps : List Step) : Aligned (layout depth steps) :=
  aligned_of_not_isLineEnd fun _ => not_isLineEnd_of_mem_layout

/-! ### Main results -/

/-- **The text and the map belong together, line by line.** For any tree, contract and shared locals
the text and the map of the program are aligned, and the text ends with a newline. More generally
they are aligned after any steps: the text is empty as long as nothing was pushed, and ends with a
newline from then on. A push adds the physical lines of its text, each at the indentation reached so
far and each with the origin of the push; what was there before and what comes after is the same as
without it. -/
theorem text_aligned_with_map :
    (∀ (tree : List Template.Node) (contract : Contract) (shared : Option SharedLocals),
      Aligned (generate tree contract shared).lines ∧
        (generate tree contract shared).source.toList.getLast? = some '\n') ∧
    ∀ steps : List Step,
      Aligned (layout 0 steps) ∧
        ((∀ text origin, Step.push text origin ∉ steps) → sourceOf (layout 0 steps) = "") ∧
        (∀ text origin, Step.push text origin ∈ steps →
          (sourceOf (layout 0 steps)).toList.getLast? = some '\n') ∧
        ∀ before text origin after, steps = before ++ Step.push text origin :: after →
          ∃ pieces, PhysicalLines text pieces ∧
            layout 0 steps =
              layout 0 before ++
                pieces.map (fun piece =>
                  ⟨indented (before.foldl Step.depthAfter 0) piece, origin⟩) ++
                layout (before.foldl Step.depthAfter 0) after := by
  have hpushed : ∀ (steps : List Step) (text : List Char) (origin : Origin),
      Step.push text origin ∈ steps →
        (sourceOf (layout 0 steps)).toList.getLast? = some '\n' := fun _ text origin hmem =>
    getLast?_sourceOf fun hnil => layout_eq_nil_iff.mp hnil text origin hmem
  refine ⟨fun tree contract shared => ⟨aligned_layout 0 _, ?_⟩, fun steps =>
    ⟨aligned_layout 0 steps, fun hnone => ?_, hpushed steps, ?_⟩⟩
  · -- The closing brace is pushed last.
    exact hpushed _ "\x7d".toList ⟨contract.template, contract.expectsLine.getD 1⟩
      (by simp [programSteps, pushing])
  · rw [layout_eq_nil_iff.mpr hnone]
    rfl
  · rintro before text origin after rfl
    refine ⟨splitLines text, physicalLines_splitLines text, ?_⟩
    rw [layout_append, layout, List.append_assoc]
    rfl

/-- The text of steps that push nothing does not end with a newline. -/
theorem source_of_no_push :
    (sourceOf (layout 0 [.indent, .dedent])).toList.getLast? ≠ some '\n' := by
  decide

end PugContracts.Program
