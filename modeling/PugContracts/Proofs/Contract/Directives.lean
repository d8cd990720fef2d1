import PugContracts.Proofs.Contract.Spans

/-!
# What becomes of directives

Each directive comes to one thing at most. An import is recorded or reported. The first expectation
that is closed is taken, and each other one is reported, with whatever is wrong with it; it has no
part in the contract.

The contract grows as the directives are read, and whether an expectation is taken depends on what
was read before. `addDirectives_eq` says the same without an order of steps: the imports are those
of all directives, the expectation is the first of all, and a directive is wrong by itself or
because another expectation is taken.

## Main results

* `addDirectives_eq`: what becomes of directives on different lines.
* `accounts_extract`: what becomes of each directive line of a template.
-/

namespace PugContracts.Contract

variable {contract : Contract} {template viewsRoot : Path} {directive : Directive}
  {directives : List Directive} {taken : Option Nat} {first : Nat} {source : String}

/-! ### Directives in one go -/

namespace Directive

/-- The record of an import that can be read. -/
def record? (template : Path) : Directive → Option Import
  | importing line statement => (Import.read statement template line).toOption
  | _ => none

/-- The line and the shape of an expectation that is closed. -/
def expectation? : Directive → Option (Nat × List Char)
  | expecting line (.complete shape) => some (line, shape)
  | _ => none

/-- What is wrong with a directive if the expectation on the line `taken` is the one that is
taken. -/
def fault? (template : Path) (taken : Option Nat) : Directive → Option DirectiveFault
  | importing line statement =>
    match Import.read statement template line with
    | .ok _ => none
    | .error fault => some (.badImport fault)
  | expecting _ .missing => some .missingShape
  | expecting _ .unterminated => some .unterminatedShape
  | expecting line (.complete _) => (taken.filter (· ≠ line)).map .repeated
  | unknown _ => none

/-- The same with the line of the directive. -/
def located? (template : Path) (taken : Option Nat) (directive : Directive) :
    Option (Nat × DirectiveFault) :=
  (directive.fault? template taken).map (directive.line, ·)

end Directive

/-- The contract with further imports. -/
def importing (contract : Contract) (records : List Import) : Contract :=
  { contract with imports := contract.imports ++ records }

/-- The contract with the shape of an expectation, if there is one. -/
def expecting (contract : Contract) : Option (Nat × List Char) → Contract
  | none => contract
  | some (line, shape) =>
    { contract with
      shape := Shape.ofText shape
      rawExpects := String.ofList shape
      expectsLine := some line }

theorem importing_nil (contract : Contract) : contract.importing [] = contract := by
  rw [importing, List.append_nil]

theorem importing_importing (contract : Contract) (records more : List Import) :
    (contract.importing records).importing more = contract.importing (records ++ more) := by
  rw [importing, importing, importing, List.append_assoc]

@[simp] theorem template_importing (contract : Contract) (records : List Import) :
    (contract.importing records).template = contract.template := rfl

theorem expecting_importing (contract : Contract) (records : List Import)
    (expectation : Option (Nat × List Char)) :
    (contract.importing records).expecting expectation =
      (contract.expecting expectation).importing records := by
  cases expectation <;> rfl

theorem filterMap_cons_toList {α β : Type} (f : α → Option β) (a : α) (as : List α) :
    (a :: as).filterMap f = (f a).toList ++ as.filterMap f := by
  rw [List.filterMap_cons]
  cases f a <;> rfl

/-- A directive that is no closed expectation is recorded or reported, or neither. -/
theorem addDirective_of_none (h : directive.expectation? = none) (taken : Option Nat) :
    contract.addDirective directive =
      (contract.importing (directive.record? contract.template).toList,
        (directive.located? contract.template taken).toList) := by
  cases directive with
  | importing line statement =>
    rw [addDirective, Directive.record?, Directive.located?, Directive.fault?]
    cases Import.read statement contract.template line with
    | ok record => rfl
    | error fault => exact Prod.ext (importing_nil contract).symm rfl
  | expecting line shape =>
    cases shape with
    | missing | unterminated => exact Prod.ext (importing_nil contract).symm rfl
    | complete => cases h
  | unknown => exact Prod.ext (importing_nil contract).symm rfl

/-- Once an expectation is taken, so is every directive on another line. -/
theorem addDirective_of_taken (h : contract.expectsLine = some first)
    (hline : first ≠ directive.line) :
    contract.addDirective directive =
      (contract.importing (directive.record? contract.template).toList,
        (directive.located? contract.template (some first)).toList) := by
  cases hclosed : directive.expectation? with
  | none => exact addDirective_of_none hclosed _
  | some found =>
    cases directive with
    | expecting line shape =>
      cases shape with
      | complete shape =>
        have hother : (some first).filter (· ≠ line) = some first :=
          Option.filter_some_pos (decide_eq_true hline)
        rw [addDirective, h, Directive.located?, Directive.fault?, hother]
        exact Prod.ext (importing_nil contract).symm rfl
      | missing | unterminated => cases hclosed
    | importing | unknown => cases hclosed

/-- Once an expectation is taken, the directives on other lines are recorded or reported. -/
theorem addDirectives_of_taken (h : contract.expectsLine = some first)
    (hlines : first ∉ directives.map Directive.line) :
    contract.addDirectives directives =
      (contract.importing (directives.filterMap (Directive.record? contract.template)),
        directives.filterMap (Directive.located? contract.template (some first))) := by
  induction directives generalizing contract with
  | nil => exact Prod.ext (importing_nil contract).symm rfl
  | cons directive rest ih =>
    rw [List.map_cons, List.mem_cons, not_or] at hlines
    have hrest := @ih (contract.importing (directive.record? contract.template).toList)
      h hlines.2
    rw [addDirectives, addDirective_of_taken h hlines.1]
    dsimp only
    rw [hrest, importing_importing, template_importing, filterMap_cons_toList,
      filterMap_cons_toList]

/-- **What becomes of directives** on different lines: all imports that can be read are recorded,
the first closed expectation is taken, and what is wrong is reported in order. -/
theorem addDirectives_eq (h : contract.expectsLine = none)
    (hlines : (directives.map Directive.line).Nodup) :
    contract.addDirectives directives =
      ((contract.expecting (directives.findSome? Directive.expectation?)).importing
          (directives.filterMap (Directive.record? contract.template)),
        directives.filterMap (Directive.located? contract.template
          ((directives.findSome? Directive.expectation?).map Prod.fst))) := by
  induction directives generalizing contract with
  | nil => exact Prod.ext (importing_nil contract).symm rfl
  | cons directive rest ih =>
    rw [List.map_cons, List.nodup_cons] at hlines
    rw [addDirectives, List.findSome?_cons]
    cases hclosed : directive.expectation? with
    | none =>
      have hrest := @ih (contract.importing (directive.record? contract.template).toList)
        h hlines.2
      dsimp only
      rw [addDirective_of_none hclosed ((rest.findSome? Directive.expectation?).map Prod.fst)]
      dsimp only
      rw [hrest, expecting_importing, importing_importing, template_importing,
        filterMap_cons_toList, filterMap_cons_toList]
    | some found =>
      obtain ⟨line, shape, rfl, rfl⟩ : ∃ line shape, directive = .expecting line (.complete shape) ∧
          found = (line, shape) := by
        fun_cases Directive.expectation? directive with
        | case1 line shape => exact ⟨line, shape, rfl, (Option.some.inj hclosed).symm⟩
        | case2 => simp_all [Directive.expectation?]
      have hadd : contract.addDirective (.expecting line (.complete shape)) =
          (contract.expecting (some (line, shape)), []) := by
        rw [addDirective, h]
        rfl
      have hsound : Directive.located? contract.template (some line)
          (.expecting line (.complete shape)) = none := by
        simp [Directive.located?, Directive.fault?, Option.filter_some]
      have htaken : (contract.expecting (some (line, shape))).expectsLine = some line := rfl
      have hrest := addDirectives_of_taken htaken hlines.1
      dsimp only
      rw [hadd]
      dsimp only
      rw [hrest, filterMap_cons_toList, filterMap_cons_toList, Option.map_some, hsound]
      rfl

/-! ### What a span comes to -/

namespace Span

/-- An error on the first line of a span. -/
def error (span : Span) (template : Path) (fault : DirectiveFault) : TemplateError :=
  .onLine .directiveShape template span.line fault.message

/-- The imports and the errors on the first line of a span, if the expectation on the line `taken`
is the one that is taken. -/
inductive Accounted (template : Path) (taken : Option Nat) (span : Span) :
    List Import → List TemplateError → Prop
  /-- An import that can be read is recorded. -/
  | imported {record : Import} (hkind : span.kind = .importing)
      (hread : Import.read span.rule template span.line = .ok record) :
      Accounted template taken span [record] []
  /-- Any other is reported. -/
  | badImport {fault : ImportFault} (hkind : span.kind = .importing)
      (hread : Import.read span.rule template span.line = .error fault) :
      Accounted template taken span [] [span.error template (.badImport fault)]
  /-- An expectation without a shape is reported. -/
  | missing {text : List Char} (hkind : span.kind = .expecting text)
      (hshape : shapeOf text span.more = .missing) :
      Accounted template taken span [] [span.error template .missingShape]
  /-- So is one that is not closed. -/
  | unterminated {text : List Char} (hkind : span.kind = .expecting text)
      (hshape : shapeOf text span.more = .unterminated) :
      Accounted template taken span [] [span.error template .unterminatedShape]
  /-- The expectation that is taken is not. -/
  | taken {text shape : List Char} (hkind : span.kind = .expecting text)
      (hshape : shapeOf text span.more = .complete shape) (htaken : taken = some span.line) :
      Accounted template taken span [] []
  /-- Each one that is closed after it is reported. -/
  | repeated {text shape : List Char} {first : Nat} (hkind : span.kind = .expecting text)
      (hshape : shapeOf text span.more = .complete shape) (htaken : taken = some first)
      (hafter : first < span.line) :
      Accounted template taken span [] [span.error template (.repeated first)]
  /-- Other directives have no meaning. -/
  | unknown (hkind : span.kind = .unknown) : Accounted template taken span [] []

/-- Nothing is both recorded and reported. -/
theorem Accounted.recorded_or_reported {template : Path} {taken : Option Nat} {span : Span}
    {records : List Import} {errors : List TemplateError}
    (h : span.Accounted template taken records errors) : records = [] ∨ errors = [] := by
  cases h <;> simp

/-- The record of an import that can be read. -/
def record? (template : Path) (span : Span) : Option Import :=
  span.directive.record? template

/-- The line and the shape of an expectation that is closed. -/
def expectation? (span : Span) : Option (Nat × List Char) :=
  span.directive.expectation?

/-- What is reported of a span. -/
def error? (template : Path) (taken : Option Nat) (span : Span) : Option TemplateError :=
  (span.directive.fault? template taken).map (span.error template)

variable {span : Span} {spans : List Span} {record : Import} {error : TemplateError}

theorem line_of_record? (h : span.record? template = some record) : record.line = span.line := by
  rw [record?, directive] at h
  split at h
  · rw [Directive.record?] at h
    cases hread : Import.read span.rule template span.line with
    | error fault => rw [hread] at h; cases h
    | ok found =>
      rw [hread] at h
      obtain rfl : found = record := Option.some.inj h
      exact (Import.place_of_read hread).2
  · cases h
  · cases h

theorem line_of_error? (h : span.error? template taken = some error) :
    error.line = some span.line := by
  obtain ⟨fault, -, rfl⟩ := Option.map_eq_some_iff.mp h
  rfl

theorem error?_of_record? (h : span.record? template = some record) :
    span.error? template taken = none := by
  rw [record?] at h
  rw [error?]
  cases hdirective : span.directive with
  | importing line statement =>
    rw [hdirective, Directive.record?] at h
    rw [Directive.fault?]
    cases hread : Import.read statement template line with
    | ok record => rfl
    | error fault => rw [hread] at h; cases h
  | expecting line shape => rw [hdirective] at h; cases h
  | unknown line => rfl

/-- Nothing is wrong with the expectation that is taken. -/
theorem error?_of_expectation? {shape : List Char} (h : span.expectation? = some (first, shape)) :
    span.error? template (some first) = none := by
  rw [expectation?] at h
  rw [error?]
  generalize span.directive = directive at h ⊢
  fun_cases Directive.expectation? directive with
  | case1 line shape =>
    obtain rfl : line = first := congrArg Prod.fst (Option.some.inj h)
    simp [Directive.fault?, Option.filter_some]
  | case2 => simp_all [Directive.expectation?]

theorem line_of_expectation? {shape : List Char} (h : span.expectation? = some (first, shape)) :
    first = span.line := by
  rw [expectation?] at h
  rw [← line_directive]
  generalize span.directive = directive at h ⊢
  fun_cases Directive.expectation? directive with
  | case1 line shape => exact (congrArg Prod.fst (Option.some.inj h)).symm
  | case2 => simp_all [Directive.expectation?]

/-- A span is accounted for by what is recorded and what is reported of it. -/
theorem accounted (hfirst : ∀ shape, span.expectation? = some (span.line, shape) →
      ∃ first, taken = some first ∧ first ≤ span.line) :
    span.Accounted template taken (span.record? template).toList
      (span.error? template taken).toList := by
  rw [record?, error?]
  cases hkind : span.kind with
  | importing =>
    have hdirective : span.directive = .importing span.line span.rule := by rw [directive, hkind]
    rw [hdirective, Directive.record?, Directive.fault?]
    cases hread : Import.read span.rule template span.line with
    | ok record => exact .imported hkind hread
    | error fault => exact .badImport hkind hread
  | expecting text =>
    have hdirective : span.directive = .expecting span.line (shapeOf text span.more) := by
      rw [directive, hkind]
    rw [hdirective]
    cases hshape : shapeOf text span.more with
    | missing => exact .missing hkind hshape
    | unterminated => exact .unterminated hkind hshape
    | complete shape =>
      obtain ⟨first, rfl, hle⟩ := hfirst shape (by rw [expectation?, hdirective, hshape]; rfl)
      rw [Directive.fault?, Option.filter_some]
      by_cases heq : first = span.line
      · rw [if_neg (by simpa using heq)]
        exact .taken hkind hshape (congrArg some heq)
      · rw [if_pos (by simpa using heq)]
        exact .repeated hkind hshape rfl (Nat.lt_of_le_of_ne hle heq)
  | unknown =>
    have hdirective : span.directive = .unknown span.line := by rw [directive, hkind]
    rw [hdirective]
    exact .unknown hkind

end Span

/-! ### Spans on increasing lines -/

section Increasing

variable {span : Span} {spans : List Span}

/-- The spans of a template are on increasing lines. -/
theorem pairwise_line {number : Nat} {lines : List (List Char)}
    (h : directiveLines number lines = spans.flatMap Span.lines) :
    spans.Pairwise fun span other => span.line < other.line := by
  have hall := pairwise_directiveLines number lines
  rw [h, List.map_flatMap] at hall
  have hsub : (spans.map Span.line).Sublist
      (spans.flatMap fun span => span.lines.map Prod.snd) := by
    clear h hall
    induction spans with
    | nil => exact .slnil
    | cons span rest ih => exact (List.sublist_append_of_sublist_right ih).cons_cons span.line
  exact List.pairwise_map.mp (hall.sublist hsub)

variable (hlines : spans.Pairwise fun span other => span.line < other.line)

include hlines

/-- What comes of the spans with the number of one of them is what comes of that one. -/
theorem filter_filterMap_of_mem {α : Type} {f : Span → Option α} {at? : α → Option Nat}
    (hat : ∀ {span a}, f span = some a → at? a = some span.line) (hspan : span ∈ spans) :
    (spans.filterMap f).filter (at? · == some span.line) = (f span).toList := by
  obtain ⟨before, after, rfl⟩ := List.append_of_mem hspan
  obtain ⟨-, hafter, hbefore⟩ := List.pairwise_append.mp hlines
  have hnone : ∀ others : List Span, (∀ other ∈ others, other.line ≠ span.line) →
      (others.filterMap f).filter (at? · == some span.line) = [] := by
    intro others hothers
    refine List.filter_eq_nil_iff.mpr fun a ha heq => ?_
    obtain ⟨other, hother, hfound⟩ := List.mem_filterMap.mp ha
    rw [hat hfound, beq_iff_eq] at heq
    exact hothers other hother (Option.some.inj heq)
  have hself : ((f span).toList).filter (at? · == some span.line) = (f span).toList := by
    refine List.filter_eq_self.mpr fun a ha => beq_iff_eq.mpr ?_
    exact hat (Option.mem_toList.mp ha)
  rw [List.filterMap_append, List.filter_append, filterMap_cons_toList, List.filter_append, hself,
    hnone before fun other hother => Nat.ne_of_lt (hbefore other hother span List.mem_cons_self),
    hnone after fun other hother => Nat.ne_of_gt (List.rel_of_pairwise_cons hafter hother),
    List.nil_append, List.append_nil]

/-- What comes of the spans is in the order of their lines. -/
theorem pairwise_filterMap_line {α : Type} {f : Span → Option α} {at? : α → Option Nat}
    (hat : ∀ {span a}, f span = some a → at? a = some span.line) :
    ((spans.filterMap f).filterMap at?).Pairwise (· < ·) := by
  rw [List.filterMap_filterMap]
  refine hlines.filterMap _ fun span other hlt first hfirst next hnext => ?_
  obtain ⟨a, ha, hfirst⟩ := Option.bind_eq_some_iff.mp hfirst
  obtain ⟨b, hb, hnext⟩ := Option.bind_eq_some_iff.mp hnext
  obtain rfl : span.line = first := Option.some.inj ((hat ha).symm.trans hfirst)
  obtain rfl : other.line = next := Option.some.inj ((hat hb).symm.trans hnext)
  exact hlt

/-- Something comes of the spans with the number of one of them if something comes of that one. -/
theorem any_filterMap_of_mem {α : Type} {f : Span → Option α} {at? : α → Option Nat}
    (hat : ∀ {span a}, f span = some a → at? a = some span.line) (hspan : span ∈ spans) :
    (spans.filterMap f).any (at? · == some span.line) = (f span).isSome := by
  have hfilter := filter_filterMap_of_mem hlines hat hspan
  cases hfound : f span with
  | none =>
    rw [hfound] at hfilter
    exact List.any_eq_false.mpr (List.filter_eq_nil_iff.mp hfilter)
  | some a =>
    refine List.any_eq_true.mpr ⟨a, List.mem_filterMap.mpr ⟨span, hspan, hfound⟩, ?_⟩
    exact beq_iff_eq.mpr (hat hfound)

/-- The expectation that is taken is not after any other one that is closed. -/
theorem line_le_of_expectation? {shape : List Char} (hspan : span ∈ spans)
    (h : span.expectation? = some (span.line, shape)) :
    ∃ first, (spans.findSome? Span.expectation?).map Prod.fst = some first ∧ first ≤ span.line := by
  induction spans with
  | nil => cases hspan
  | cons head rest ih =>
    obtain ⟨hhead, hrest⟩ := List.pairwise_cons.mp hlines
    rw [List.findSome?_cons]
    cases hclosed : head.expectation? with
    | none =>
      rcases List.mem_cons.mp hspan with rfl | hspan
      · rw [h] at hclosed
        cases hclosed
      · exact ih hrest hspan
    | some found =>
      obtain ⟨first, _⟩ := found
      refine ⟨first, rfl, ?_⟩
      rw [Span.line_of_expectation? hclosed]
      rcases List.mem_cons.mp hspan with rfl | hspan
      · exact Nat.le_refl _
      · exact Nat.le_of_lt (hhead span hspan)

/-- Adding the directives of spans, in one go. -/
theorem addDirectives_spans (template : Path) :
    (ofTemplate template).addDirectives (spans.map Span.directive) =
      (((ofTemplate template).expecting (spans.findSome? Span.expectation?)).importing
          (spans.filterMap (Span.record? template)),
        spans.filterMap fun span => span.directive.located? template
          ((spans.findSome? Span.expectation?).map Prod.fst)) := by
  have hnodup : ((spans.map Span.directive).map Directive.line).Nodup := by
    rw [List.map_map]
    exact List.pairwise_map.mpr (hlines.imp fun h => by simpa using Nat.ne_of_lt h)
  rw [addDirectives_eq rfl hnodup, List.findSome?_map, List.filterMap_map, List.filterMap_map]
  rfl

/-- **Each span is accounted for** by what comes of all of them. -/
theorem accounted_of_mem (template : Path) (hspan : span ∈ spans) :
    let taken := (spans.findSome? Span.expectation?).map Prod.fst
    span.Accounted template taken
      ((spans.filterMap (Span.record? template)).filter (some ·.line == some span.line))
      ((spans.filterMap (Span.error? template taken)).filter (·.line == some span.line)) := by
  intro taken
  rw [filter_filterMap_of_mem hlines (fun h => congrArg some (Span.line_of_record? h)) hspan,
    filter_filterMap_of_mem hlines Span.line_of_error? hspan]
  exact Span.accounted fun shape => line_le_of_expectation? hlines hspan

/-- What is reported of a span has no part in what the spans make of the contract. -/
theorem addDirectives_sound (template : Path) :
    ((ofTemplate template).addDirectives ((spans.filter fun span =>
        (span.error? template ((spans.findSome? Span.expectation?).map Prod.fst)).isNone).map
          Span.directive)).1 =
      ((ofTemplate template).addDirectives (spans.map Span.directive)).1 := by
  have hrecords : ∀ taken, (spans.filter fun span =>
        (span.error? template taken).isNone).filterMap (Span.record? template) =
      spans.filterMap (Span.record? template) := by
    intro taken
    rw [List.filterMap_filter]
    refine congrArg (List.filterMap · spans) (funext fun span => ?_)
    cases hrecord : span.record? template with
    | none => split <;> rfl
    | some record =>
      rw [Span.error?_of_record? hrecord]
      rfl
  have hexpectation : (spans.filter fun span => (span.error? template
        ((spans.findSome? Span.expectation?).map Prod.fst)).isNone).findSome? Span.expectation? =
      spans.findSome? Span.expectation? := by
    cases hfound : spans.findSome? Span.expectation? with
    | none =>
      rw [List.findSome?_eq_none_iff] at hfound ⊢
      exact fun span hspan => hfound span (List.mem_filter.mp hspan).1
    | some found =>
      obtain ⟨first, shape⟩ := found
      obtain ⟨before, span, after, rfl, hspan, hbefore⟩ := List.findSome?_eq_some_iff.mp hfound
      rw [Option.map_some, List.filter_append, List.filter_cons_of_pos]
      · refine List.findSome?_eq_some_iff.mpr ⟨_, span, _, rfl, hspan, fun other hother => ?_⟩
        exact hbefore other (List.mem_filter.mp hother).1
      · rw [Span.error?_of_expectation? hspan]
        rfl
  rw [addDirectives_spans (hlines.filter _), addDirectives_spans hlines, hexpectation, hrecords]

/-- What is extracted of a template, by the spans of its directive lines. -/
theorem extract_of_spans {source : String} (template viewsRoot : Path)
    (hread : Directive.readFrom 1 (Text.lines source.toList) = spans.map Span.directive) :
    extract source template viewsRoot =
      ((((ofTemplate template).expecting (spans.findSome? Span.expectation?)).importing
          (spans.filterMap (Span.record? template))).addReferences viewsRoot
            (Template.parse source).nodes,
        spans.filterMap (Span.error? template
          ((spans.findSome? Span.expectation?).map Prod.fst))) := by
  rw [extract, Directive.readAll, hread, addDirectives_spans hlines]
  refine Prod.ext rfl ?_
  dsimp only
  rw [List.map_filterMap]
  refine congrArg (List.filterMap · spans) (funext fun span => ?_)
  rw [Directive.located?, Option.map_map, Span.line_directive]
  rfl

end Increasing

/-! ### Main result -/

/-- What a contract and its errors have of the directive lines of a template. -/
structure Accounts (source : String) (template viewsRoot : Path) (spans : List Span)
    (result : Contract × List TemplateError) : Prop where
  /-- Each directive line is in one span: it starts a directive, or it continues one. -/
  lines : directiveLines 1 (Text.lines source.toList) = spans.flatMap Span.lines
  /-- What is continued is an expectation that is not closed. -/
  extent : ∀ span ∈ spans, span.Extent (directiveLines 1 (Text.lines source.toList))
  /-- Each directive is accounted for once, on its first line. -/
  accounted : ∀ span ∈ spans, span.Accounted template result.1.expectsLine
    (result.1.imports.filter (some ·.line == some span.line))
    (result.2.filter (·.line == some span.line))
  /-- There are no other imports and errors. -/
  others : (∀ record ∈ result.1.imports, ∃ span ∈ spans, record.line = span.line) ∧
    ∀ error ∈ result.2, ∃ span ∈ spans, error.line = some span.line
  /-- The lines of the imports are increasing, and so are those of the errors. -/
  increasing : (result.1.imports.map Import.line).Pairwise (· < ·) ∧
    (result.2.filterMap TemplateError.line).Pairwise (· < ·)
  /-- No line has an import and an error. -/
  disjoint : ∀ record ∈ result.1.imports, ∀ error ∈ result.2, error.line ≠ some record.line
  /-- The first expectation that is closed is taken. -/
  expectation :
    match spans.findSome? Span.expectation? with
    | some (line, shape) => result.1.expectsLine = some line ∧
        result.1.rawExpects = String.ofList shape ∧ result.1.shape = Shape.ofText shape
    | none => result.1.expectsLine = none ∧ result.1.rawExpects = emptyShape ∧
        result.1.shape = .emptyLiteral
  /-- What is reported has no part in the contract: without the spans that have an error, it is the
  same. -/
  unchanged : result.1 = (((ofTemplate template).addDirectives
    ((spans.filter fun span => !result.2.any (·.line == some span.line)).map
      Span.directive)).1).addReferences viewsRoot (Template.parse source).nodes

/-- **Every directive line is accounted for once.** The directive lines of a template fall into
spans, one for each directive. An import is recorded or reported, the first closed expectation is
taken and every other one reported, and nothing comes of other directives. -/
theorem accounts_extract (source : String) (template viewsRoot : Path) :
    ∃ spans, Accounts source template viewsRoot spans (extract source template viewsRoot) := by
  obtain ⟨spans, hread, hlines, hextent⟩ :=
    Directive.readFrom_spans 1 (Text.lines source.toList)
  have hincreasing := pairwise_line hlines
  have hresult := extract_of_spans hincreasing template viewsRoot hread
  have htaken : (extract source template viewsRoot).1.expectsLine =
      (spans.findSome? Span.expectation?).map Prod.fst := by
    rw [hresult]
    cases spans.findSome? Span.expectation? <;> rfl
  have himports : (extract source template viewsRoot).1.imports =
      spans.filterMap (Span.record? template) := by
    rw [hresult]
    cases spans.findSome? Span.expectation? <;> rfl
  have herrors : (extract source template viewsRoot).2 = spans.filterMap (Span.error? template
      ((spans.findSome? Span.expectation?).map Prod.fst)) := by rw [hresult]
  have haccounted : ∀ span ∈ spans,
      span.Accounted template (extract source template viewsRoot).1.expectsLine
        ((extract source template viewsRoot).1.imports.filter (some ·.line == some span.line))
        ((extract source template viewsRoot).2.filter (·.line == some span.line)) := by
    intro span hspan
    rw [htaken, himports, herrors]
    exact accounted_of_mem hincreasing template hspan
  refine ⟨spans, hlines, hextent, haccounted, ⟨fun record hrecord => ?_,
    fun error herror => ?_⟩, ⟨?_, ?_⟩, fun record hrecord error herror heq => ?_, ?_, ?_⟩
  · rw [himports] at hrecord
    obtain ⟨span, hspan, hfound⟩ := List.mem_filterMap.mp hrecord
    exact ⟨span, hspan, Span.line_of_record? hfound⟩
  · rw [herrors] at herror
    obtain ⟨span, hspan, hfound⟩ := List.mem_filterMap.mp herror
    exact ⟨span, hspan, Span.line_of_error? hfound⟩
  · rw [himports, ← List.filterMap_eq_map]
    exact pairwise_filterMap_line hincreasing fun h => congrArg some (Span.line_of_record? h)
  · rw [herrors]
    exact pairwise_filterMap_line hincreasing Span.line_of_error?
  · have hboth := hrecord
    rw [himports] at hboth
    obtain ⟨span, hspan, hfound⟩ := List.mem_filterMap.mp hboth
    rw [Span.line_of_record? hfound] at heq
    rcases (haccounted span hspan).recorded_or_reported with hnone | hnone
    · refine List.filter_eq_nil_iff.mp hnone record hrecord (beq_iff_eq.mpr ?_)
      rw [Span.line_of_record? hfound]
    · exact List.filter_eq_nil_iff.mp hnone error herror (beq_iff_eq.mpr heq)
  · rw [hresult]
    cases spans.findSome? Span.expectation? with
    | none => exact ⟨rfl, rfl, rfl⟩
    | some found => exact ⟨rfl, rfl, rfl⟩
  · have hkept : (spans.filter fun span =>
          !(extract source template viewsRoot).2.any (·.line == some span.line)) =
        spans.filter fun span => (Span.error? template
          ((spans.findSome? Span.expectation?).map Prod.fst) span).isNone := by
      refine List.filter_congr fun span hspan => ?_
      rw [herrors, any_filterMap_of_mem hincreasing Span.line_of_error? hspan, Option.not_isSome]
    rw [hkept, addDirectives_sound hincreasing, addDirectives_spans hincreasing, hresult]

end PugContracts.Contract
