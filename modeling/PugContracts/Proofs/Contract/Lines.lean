import PugContracts.Contract.Basic
import PugContracts.Proofs.Template.Numbering

/-!
# The lines of directives

Directives are looked for in the lines of a template apart from its statements, with a numbering of
its own: a carriage return before a newline belongs to the end of the line there, the empty piece
after the last newline is none, and the lines that an open shape takes are counted when it is
closed. Every line of this numbering is also a line of the template.

## Main results

* `located_extract`: the expectation, the imports and the errors of a contract are on lines of the
  template.
-/

namespace PugContracts

theorem Text.length_lines_le (cs : List Char) :
    (Text.lines cs).length ≤ (Text.newlinePieces cs).length := by
  have hpieces : ∀ pieces : List (List Char),
      (Text.linesOfPieces pieces).length ≤ pieces.length := by
    intro pieces
    induction pieces with
    | nil => exact Nat.le_refl _
    | cons piece rest ih =>
      cases rest with
      | nil => rw [Text.linesOfPieces]; split <;> simp
      | cons next rest => exact Nat.succ_le_succ ih
  exact hpieces _

namespace Contract

/-- The line that a directive stands on. -/
def Directive.line : Directive → Nat
  | importing line _ | expecting line _ | unknown line => line

@[simp] theorem Directive.line_read (number : Nat) (rule : List Char) (lines : List (List Char)) :
    (read number rule lines).1.line = number := by
  rw [read]
  split
  · rfl
  · split <;> rfl

/-- Directives are on the lines that are numbered from the given number on. -/
theorem Directive.line_of_mem_readFrom {number : Nat} {lines : List (List Char)}
    {directive : Directive} (h : directive ∈ readFrom number lines) :
    number ≤ directive.line ∧ directive.line < number + lines.length := by
  induction number, lines using readFrom.induct with
  | case1 => simp [readFrom] at h
  | case2 number line after hbody ih =>
    rw [readFrom, hbody] at h
    have := ih h
    rw [List.length_cons]
    omega
  | case3 number line after rule hbody rest ih =>
    rw [readFrom, hbody] at h
    rw [List.length_cons]
    rcases List.mem_cons.mp h with rfl | h
    · rw [Directive.line_read]
      omega
    · have hfewer := length_read number rule after
      have := ih h
      simp only [rest] at this
      omega

theorem Directive.hasLine_of_mem_readAll {source : String} {directive : Directive}
    (h : directive ∈ readAll source.toList) : HasLine source directive.line := by
  have hline := line_of_mem_readFrom h
  have hfewer := Text.length_lines_le source.toList
  exact ⟨hline.1, by omega⟩

/-- What a contract says of lines is true of the template with the given text. -/
structure Located (source : String) (contract : Contract) : Prop where
  /-- The expectation is on a line. -/
  expects : ∀ line ∈ contract.expectsLine, HasLine source line
  /-- The imports are on lines of the template. -/
  imports : ∀ record ∈ contract.imports, record.file = contract.template ∧
    HasLine source record.line

theorem Import.place_of_read {statement : List Char} {file : Path} {line : Nat} {record : Import}
    (h : Import.read statement file line = .ok record) :
    record.file = file ∧ record.line = line := by
  rw [Import.read] at h
  dsimp only at h
  split at h
  · simp at h
  · split at h
    · simp at h
    · rw [Except.ok.injEq] at h
      subst h
      exact ⟨rfl, rfl⟩

variable {source : String} {contract : Contract}

@[simp] theorem template_addDirective (contract : Contract) (directive : Directive) :
    (contract.addDirective directive).1.template = contract.template := by
  fun_cases addDirective contract directive <;> rfl

/-- One more directive on a line of the template. -/
theorem Located.addDirective (h : contract.Located source) {directive : Directive}
    (hline : HasLine source directive.line) :
    (contract.addDirective directive).1.Located source ∧
      ∀ fault ∈ (contract.addDirective directive).2, fault.1 = directive.line := by
  fun_cases Contract.addDirective contract directive with
  | case1 line statement record hread =>
    obtain ⟨hfile, rfl⟩ := Import.place_of_read hread
    refine ⟨⟨h.expects, fun other hother => ?_⟩, by simp⟩
    rcases List.mem_append.mp hother with hother | hother
    · exact h.imports other hother
    · rw [List.mem_singleton.mp hother]
      exact ⟨hfile, hline⟩
  | case6 line text _ =>
    refine ⟨⟨fun other hother => ?_, h.imports⟩, by simp⟩
    rw [← Option.some.inj hother]
    exact hline
  | case7 => exact ⟨h, by simp⟩
  | case2 | case3 | case4 | case5 => exact ⟨h, by simp [Directive.line]⟩

/-- Further directives on lines of the template. -/
theorem Located.addDirectives (h : contract.Located source) {directives : List Directive}
    (hlines : ∀ directive ∈ directives, HasLine source directive.line) :
    (contract.addDirectives directives).1.Located source ∧
      (contract.addDirectives directives).1.template = contract.template ∧
      ∀ fault ∈ (contract.addDirectives directives).2, HasLine source fault.1 := by
  induction directives generalizing contract with
  | nil => exact ⟨h, rfl, by simp [Contract.addDirectives]⟩
  | cons directive rest ih =>
    obtain ⟨hfirst, hmore⟩ := List.forall_mem_cons.mp hlines
    obtain ⟨hone, hfaults⟩ := h.addDirective hfirst
    obtain ⟨hall, htemplate, hrest⟩ := ih hone hmore
    refine ⟨hall, htemplate.trans (template_addDirective contract directive),
      fun fault hfault => ?_⟩
    rcases List.mem_append.mp hfault with hfault | hfault
    · rw [hfaults fault hfault]
      exact hfirst
    · exact hrest fault hfault

/-- **What is extracted from a template is on its lines**: the expectation, each import and each
error, and all of these name the template. -/
theorem located_extract (source : String) (template viewsRoot : Path) :
    (extract source template viewsRoot).1.Located source ∧
      (extract source template viewsRoot).1.template = template ∧
      ∀ error ∈ (extract source template viewsRoot).2, error.file = template ∧
        ∃ line, error.line = some line ∧ HasLine source line := by
  have hempty : (ofTemplate template).Located source := ⟨by simp [ofTemplate], by simp [ofTemplate]⟩
  obtain ⟨hlocated, htemplate, hfaults⟩ :=
    hempty.addDirectives fun _ => Directive.hasLine_of_mem_readAll
  refine ⟨⟨hlocated.expects, hlocated.imports⟩, htemplate, fun error herror => ?_⟩
  obtain ⟨fault, hfault, rfl⟩ := List.mem_map.mp herror
  exact ⟨rfl, fault.1, rfl, hfaults fault hfault⟩

end Contract

end PugContracts
