import PugContracts.Proofs.Scan.Through

/-!
# Cutting at separators

A separator is a cut where the reading of the whole text comes to it outside of all brackets. By
then more brackets may have been closed than opened, so that the text goes on below depth zero; a
piece, on the other hand, is read anew as code at depth zero. What stands in brackets where the
depth is counted through the whole text does so all the more in its piece, so that it is not cut
again.

## Main results

* `intercalate_piecesFrom`: the pieces make up the text.
* `exists_piecesFrom_uncut`: no piece is cut again.
* `cutAfter_piecesFrom_iff`: which separators are cuts.
* `cuts_at_separators`: all of it for whole texts.
-/

namespace PugContracts.Scan

variable {comments : Bool} {sep c : Char} {s : State} {cs before : List Char}
  {texts : List (List Char)}

/-! ### Joining -/

theorem intercalate_nil_cons (hne : texts ≠ []) :
    [sep].intercalate ([] :: texts) = sep :: [sep].intercalate texts := by
  obtain ⟨first, others, rfl⟩ := List.exists_cons_of_ne_nil hne
  rw [List.intercalate_cons_cons]
  rfl

theorem intercalate_modifyHead (hne : texts ≠ []) (sep c : Char) :
    [sep].intercalate (texts.modifyHead (c :: ·)) = c :: [sep].intercalate texts := by
  obtain ⟨first, others, rfl⟩ := List.exists_cons_of_ne_nil hne
  cases others with
  | nil => simp [List.intercalate]
  | cons second others =>
    rw [List.modifyHead_cons, List.intercalate_cons_cons, List.intercalate_cons_cons]
    rfl

/-- **The pieces make up the text**, with the separator between any two of them. -/
theorem intercalate_piecesFrom (comments : Bool) (sep : Char) (s : State) (cs : List Char) :
    [sep].intercalate (piecesFrom comments sep s cs) = cs := by
  induction cs generalizing s with
  | nil => simp [piecesFrom, List.intercalate]
  | cons c rest ih =>
    have hne := piecesFrom_ne_nil comments sep (step comments s c rest.head?).2 rest
    rw [piecesFrom_cons]
    split_ifs with hcut
    · rw [intercalate_nil_cons hne, ih, hcut.2]
    · rw [intercalate_modifyHead hne, ih]

/-! ### Cutting again -/

/-- What is read outside of all brackets when the depth is greater is so when it is less. -/
theorem step_zero_of_raise {k : Int} (hk : 0 ≤ k) (c : Char)
    (h : (step false (s.raise k) c none).1 = some 0) : (step false s c none).1 = some 0 := by
  obtain ⟨hmode, hdepth⟩ := fst_step_raise_eq_zero_iff.mp h
  exact fst_step_eq_zero_iff.mpr ⟨hmode, Int.le_trans (Int.le_add_of_nonneg_right hk) hdepth⟩

/-- A text that is not cut at one depth is not cut at a greater one. -/
theorem piecesFrom_raise (hs : s.Plain) {k : Int} (hk : 0 ≤ k)
    (h : piecesFrom false sep s cs = [cs]) : piecesFrom false sep (s.raise k) cs = [cs] := by
  induction cs generalizing s with
  | nil => rfl
  | cons c rest ih =>
    have hraised : (s.raise k).Plain := hs
    obtain ⟨first, others, hpieces⟩ :=
      List.exists_cons_of_ne_nil (piecesFrom_ne_nil false sep (advance s c) rest)
    rw [piecesFrom_false_cons hs, hpieces] at h
    split_ifs at h with hcut
    · cases h
    · obtain ⟨hfirst, rfl⟩ : c :: first = c :: rest ∧ others = [] := by simpa using h
      obtain rfl : first = rest := (List.cons.inj hfirst).2
      have hdeep : ¬ ((step false (s.raise k) c none).1 = some 0 ∧ c = sep) := fun hcuts =>
        hcut ⟨step_zero_of_raise hk c hcuts.1, hcuts.2⟩
      rw [piecesFrom_false_cons hraised, if_neg hdeep, advance_raise, ih (hs.advance c) hpieces]
      rfl

/-- **No piece is cut again**: the first one is not where the text starts, and the others, which
start behind a cut and so at depth zero or below, are not as texts of their own. -/
theorem exists_piecesFrom_uncut (hs : s.Plain) (hsep : isPassive sep = true) (cs : List Char) :
    ∃ first others, piecesFrom false sep s cs = first :: others ∧
      piecesFrom false sep s first = [first] ∧
      ∀ other ∈ others, pieces false sep other = [other] := by
  induction cs generalizing s with
  | nil => exact ⟨[], [], rfl, rfl, by simp⟩
  | cons c rest ih =>
    obtain ⟨first, others, hpieces, hfirst, hothers⟩ := ih (hs.advance c)
    rw [piecesFrom_false_cons hs, hpieces]
    split_ifs with hcut
    · obtain ⟨hzero, rfl⟩ := hcut
      obtain ⟨hmode, hdepth, hsame⟩ := of_fst_step_passive hsep hzero
      rw [hsame] at hfirst
      obtain ⟨mode, depth⟩ := s
      obtain rfl : mode = .code := hmode
      dsimp only at hdepth
      have hraised := piecesFrom_raise (s := ⟨.code, depth⟩) (k := -depth) trivial (by omega) hfirst
      rw [State.raise, Int.add_right_neg] at hraised
      exact ⟨[], first :: others, rfl, rfl, List.forall_mem_cons.mpr ⟨hraised, hothers⟩⟩
    · refine ⟨c :: first, others, rfl, ?_, hothers⟩
      rw [piecesFrom_false_cons hs, hfirst, if_neg hcut]
      rfl

/-! ### Cuts -/

/-- A cut is made after `before`: the first pieces make it up, and there are more. -/
def CutAfter (sep : Char) (pieces : List (List Char)) (before : List Char) : Prop :=
  ∃ front back, pieces = front ++ back ∧ front ≠ [] ∧ back ≠ [] ∧ [sep].intercalate front = before

theorem cutAfter_nil_cons (hne : texts ≠ []) : CutAfter sep ([] :: texts) [] :=
  ⟨[[]], texts, rfl, List.cons_ne_nil _ _, hne, by simp [List.intercalate]⟩

theorem cutAfter_cons_iff :
    CutAfter sep ([] :: texts) (sep :: before) ↔ CutAfter sep texts before := by
  constructor
  · rintro ⟨front, back, htexts, hfront, hback, hjoin⟩
    obtain ⟨first, front, rfl⟩ := List.exists_cons_of_ne_nil hfront
    obtain ⟨rfl, rfl⟩ := List.cons.inj htexts
    cases front with
    | nil => simp [List.intercalate] at hjoin
    | cons second front =>
      rw [intercalate_nil_cons (List.cons_ne_nil second front)] at hjoin
      exact ⟨second :: front, back, rfl, List.cons_ne_nil second front, hback,
        (List.cons.inj hjoin).2⟩
  · rintro ⟨front, back, rfl, hfront, hback, rfl⟩
    exact ⟨[] :: front, back, rfl, List.cons_ne_nil [] front, hback, intercalate_nil_cons hfront⟩

/-- Before the end of its first piece a text is not cut. -/
theorem not_cutAfter_modifyHead : ¬ CutAfter sep (texts.modifyHead (c :: ·)) [] := by
  rintro ⟨front, back, htexts, hfront, -, hjoin⟩
  cases texts with
  | nil => exact hfront (List.append_eq_nil_iff.mp htexts.symm).1
  | cons first others =>
    obtain ⟨head, front, rfl⟩ := List.exists_cons_of_ne_nil hfront
    obtain ⟨rfl, -⟩ := List.cons.inj htexts
    have hmodified := intercalate_modifyHead (List.cons_ne_nil first front) sep c
    rw [List.modifyHead_cons, hjoin] at hmodified
    cases hmodified

theorem cutAfter_modifyHead_iff :
    CutAfter sep (texts.modifyHead (c :: ·)) (c :: before) ↔ CutAfter sep texts before := by
  constructor
  · rintro ⟨front, back, htexts, hfront, hback, hjoin⟩
    cases texts with
    | nil => exact absurd (List.append_eq_nil_iff.mp htexts.symm).1 hfront
    | cons first others =>
      obtain ⟨head, front, rfl⟩ := List.exists_cons_of_ne_nil hfront
      obtain ⟨rfl, rfl⟩ := List.cons.inj htexts
      have hmodified := intercalate_modifyHead (List.cons_ne_nil first front) sep c
      rw [List.modifyHead_cons, hjoin] at hmodified
      exact ⟨first :: front, back, rfl, List.cons_ne_nil first front, hback,
        (List.cons.inj hmodified).2.symm⟩
  · rintro ⟨front, back, rfl, hfront, hback, rfl⟩
    obtain ⟨first, front, rfl⟩ := List.exists_cons_of_ne_nil hfront
    exact ⟨(c :: first) :: front, back, rfl, List.cons_ne_nil _ front, hback,
      intercalate_modifyHead (List.cons_ne_nil first front) sep c⟩

/-- **A separator is a cut** if it is read outside of all brackets. -/
theorem cutAfter_piecesFrom_iff (comments : Bool) (sep : Char) (s : State)
    (before after : List Char) :
    CutAfter sep (piecesFrom comments sep s (before ++ sep :: after)) before ↔
      (marks comments s (before ++ sep :: after))[before.length]? = some ⟨sep, some 0⟩ := by
  induction before generalizing s with
  | nil =>
    have hne := piecesFrom_ne_nil comments sep (step comments s sep after.head?).2 after
    rw [List.nil_append, piecesFrom_cons, marks]
    split_ifs with hcut
    · exact iff_of_true (cutAfter_nil_cons hne) (by simp [hcut.1])
    · exact iff_of_false not_cutAfter_modifyHead fun hmark => hcut ⟨by simpa using hmark, rfl⟩
  | cons d before ih =>
    rw [List.cons_append, piecesFrom_cons]
    refine Iff.trans ?_ (ih (step comments s d (before ++ sep :: after).head?).2)
    split_ifs with hcut
    · obtain ⟨-, rfl⟩ := hcut
      exact cutAfter_cons_iff
    · exact cutAfter_modifyHead_iff

/-- **Cutting at separators loses nothing and leaves nothing to cut.** For a separator that is
neither a bracket nor a quotation mark, the pieces of a text make it up again with the separator
between any two of them, each piece is its own only piece, and the text is cut at a separator
exactly if that is read as code outside of all brackets. This holds of every text, also of one that
closes more than it opens or that ends in a string. -/
theorem cuts_at_separators (cs : List Char) (sep : Char) (hsep : isPassive sep = true) :
    [sep].intercalate (pieces false sep cs) = cs ∧
      (∀ piece ∈ pieces false sep cs, pieces false sep piece = [piece]) ∧
      ∀ before after, cs = before ++ sep :: after →
        (CutAfter sep (pieces false sep cs) before ↔
          (marks false .start cs)[before.length]? = some ⟨sep, some 0⟩) := by
  refine ⟨intercalate_piecesFrom false sep .start cs, fun piece hpiece => ?_, ?_⟩
  · obtain ⟨first, others, hpieces, hfirst, hothers⟩ :=
      exists_piecesFrom_uncut (s := .start) trivial hsep cs
    rw [pieces, hpieces] at hpiece
    rcases List.mem_cons.mp hpiece with rfl | hpiece
    · exact hfirst
    · exact hothers piece hpiece
  · rintro before after rfl
    exact cutAfter_piecesFrom_iff false sep .start before after

/-- Behind a closing bracket that was never opened, the next opening one does not keep the text
together; and no cut is made in the string that is still open at the end. -/
theorem cuts_at_separators_unbalanced :
    pieces false ',' "a)b,(c,d'e,f".toList = ["a)b".toList, "(c".toList, "d'e,f".toList] ∧
      pieces false ',' "d'e,f".toList = ["d'e,f".toList] ∧
      CutAfter ',' (pieces false ',' "a)b,(c,d'e,f".toList) "a)b,(c".toList :=
  have hcuts := cuts_at_separators "a)b,(c,d'e,f".toList ',' (by decide)
  ⟨by decide, hcuts.2.1 _ (by decide), (hcuts.2.2 _ "d'e,f".toList rfl).mpr (by decide)⟩

end PugContracts.Scan
