import PugContracts.Proofs.Path.Characters
import PugContracts.Proofs.Program.Origins
import PugContracts.Proofs.Program.Scanned

/-!
# Generated programs are balanced

The text of a template is arbitrary, and a good part of it stands in the generated program. What is
written in the host language stands there as it is, and is assumed to be closed and free of comments
by itself (`Embeds`); nothing is assumed of literal text and of the names of elements and mixins,
which are written as the content of template literals and as identifiers.

Each kind of node closes what it opens: the braces of its blocks (`lays_kindSteps`) and the
indentation inside them (`level_kindSteps`). Both are carried through the tree by induction.

## Main results

* `plain?_escapeTemplateLiteral`: no text ends the template literal that it is written in.
* `spans_mixinParameters`: cutting parameters at commas and completing them keeps them closed.
* `generate_balanced`: the indentation is back at zero for the closing brace, and the scanner finds
  the source of the program balanced.
-/

namespace PugContracts

namespace Template

/-- The texts of the host language that a construct embeds. -/
def NodeKind.hostTexts : NodeKind → List String
  | .element _ attributes spreads => attributes.map (·.value) ++ spreads
  | .code value _ _ => [value]
  | .each item key collection => item :: collection :: key.toList
  | .loop test | .conditional test _ => [test]
  | .mixin _ args | .mixinCall _ args => args.toList
  | .text _ | .inherits _ | .inclusion _ _ | .region _ _ | .comment _ _ | .filter _ | .doctype _ =>
    []

end Template

namespace Program

open Template
open Scan (Spans Whole Fixed Closed SpanAll endState plain? isInert)

variable {j k l : Int} {origin otherwise : Origin} {steps content : List Step} {text : List Char}

/-! ### Texts -/

theorem spans_trimmed {value : String} (h : Spans k value.toList) :
    Spans k (trimmed value).toList := by
  rw [trimmed, String.toList_ofList]
  exact h.trim

theorem spans_trimEnd {value : String} (h : Spans k value.toList) :
    Spans k (String.ofList (Text.trimEnd value.toList)).toList := by
  rw [String.toList_ofList]
  exact h.trimEnd

theorem spans_arguments {args : Option String} (h : ∀ text ∈ args.toList, Spans 0 text.toList) :
    Spans 0 (args.getD "").toList := by
  cases args with
  | none => exact Scan.spans_nil
  | some args => exact h args List.mem_cons_self

theorem spans_bareExpression {value : String} (h : Spans k value.toList) :
    Spans k (bareExpression value).toList := by
  rw [bareExpression, String.toList_ofList]
  refine (h.trim.dropTrailing fun c hc => ?_).trimEnd
  rw [eq_of_beq hc]
  decide

theorem spans_mention {expression : String} (h : Spans 0 expression.toList) :
    Spans 0 (mention expression).toList := by
  have hopen : Fixed 1 "void (".toList := Scan.fixed_of_plain? rfl
  have hclose : Fixed (-1) ");".toList := Scan.fixed_of_plain? rfl
  rw [mention, String.toList_append, String.toList_append]
  exact ((hopen.whole.append h).append_fixed hclose).spans

/-- **No text ends the template literal that it is written in.** -/
theorem plain?_escapeTemplateLiteral (depth : Int) (text : List Char) :
    plain? ⟨.quoted '\x60', depth⟩ (escapeTemplateLiteral text) =
      some ⟨.quoted '\x60', depth⟩ := by
  have hescaped : ∀ (c : Char) (rest : List Char),
      plain? ⟨.quoted '\x60', depth⟩ ('\\' :: c :: rest) =
        plain? ⟨.quoted '\x60', depth⟩ rest := fun _ _ => rfl
  have hother : ∀ (c : Char) (rest : List Char), c ≠ '\\' → c ≠ '\x60' →
      plain? ⟨.quoted '\x60', depth⟩ (c :: rest) =
        plain? ⟨.quoted '\x60', depth⟩ rest := fun c rest hbackslash hmark => by
    rw [plain?, Scan.advance_quoted, if_neg hbackslash, if_neg hmark]
    rfl
  -- A character written as an escape of its code unit, such as `\u2028`.
  have hunit : ∀ (digits rest : List Char), (∀ c ∈ digits, c ≠ '\\' ∧ c ≠ '\x60') →
      plain? ⟨.quoted '\x60', depth⟩ ('\\' :: 'u' :: (digits ++ rest)) =
        plain? ⟨.quoted '\x60', depth⟩ rest := fun digits rest hdigits => by
    rw [hescaped]
    induction digits with
    | nil => rfl
    | cons c digits ih =>
      obtain ⟨⟨hbackslash, hmark⟩, hdigits⟩ := List.forall_mem_cons.mp hdigits
      rw [List.cons_append, hother c _ hbackslash hmark, ih hdigits]
  induction text using escapeTemplateLiteral.induct with
  | case1 => rfl
  | case2 rest ih =>
    rw [escapeTemplateLiteral, hescaped, hother '{' _ (by decide) (by decide), ih]
  | case3 c rest hsubstitution ih =>
    rw [escapeTemplateLiteral.eq_3 _ _ hsubstitution]
    split_ifs with hbackslash hmark hreturn hline hparagraph
    · exact (hescaped '\\' _).trans ih
    · exact (hescaped '\x60' _).trans ih
    · exact (hescaped 'r' _).trans ih
    · exact (hunit ['2', '0', '2', '8'] _ (by simp)).trans ih
    · exact (hunit ['2', '0', '2', '9'] _ (by simp)).trans ih
    · exact (hother c _ hbackslash hmark).trans ih

theorem spans_literal (value : String) :
    Spans 0 ("void `".toList ++ escapeTemplateLiteral value.toList ++ "`;".toList) := by
  intro depth
  have hopen : plain? ⟨.code, depth⟩ "void `".toList = some ⟨.quoted '\x60', depth⟩ := rfl
  have hclose : plain? ⟨.quoted '\x60', depth⟩ "`;".toList = some ⟨.code, depth⟩ := rfl
  rw [Int.add_zero, List.append_assoc, Scan.plain?_append fun h => absurd h (by decide), hopen,
    Option.bind_some, Scan.plain?_append fun _ => by decide, plain?_escapeTemplateLiteral,
    Option.bind_some, hclose]

theorem isInert_of_isWord {c : Char} (h : (c.isAlphanum || c == '_' || c == '$') = true) :
    isInert c = true :=
  Scan.isInert_of (p := fun c => c.isAlphanum || c == '_' || c == '$') rfl h

/-- The name of the function of a mixin has no characters with a meaning for the scanner. -/
theorem isInert_of_mem_mixinFunction (name : String) :
    ∀ c ∈ (mixinFunction name).toList, isInert c = true := by
  have hprefix : ∀ c ∈ "mixin_".toList, isInert c = true :=
    List.all_eq_true.mp rfl
  intro c hc
  rw [mixinFunction, String.toList_append, List.mem_append] at hc
  rcases hc with hc | hc
  · exact hprefix c hc
  · rw [String.toList_ofList] at hc
    obtain ⟨d, -, rfl⟩ := List.mem_map.mp hc
    split
    · next hword => exact isInert_of_isWord hword
    · decide

theorem isInert_of_mem_identifier {name : String} (h : Contract.isIdentifier name = true) :
    ∀ c ∈ name.toList, isInert c = true := by
  rw [Contract.isIdentifier] at h
  intro c hc
  cases hname : name.toList with
  | nil => simp [hname] at hc
  | cons first rest =>
    simp only [hname, Bool.and_eq_true, List.all_eq_true] at h hc
    refine isInert_of_isWord ?_
    rw [Char.isAlphanum]
    rcases List.mem_cons.mp hc with rfl | hc
    · have := h.1
      revert this
      cases c.isAlpha <;> cases c.isDigit <;> simp
    · have := h.2 c hc
      revert this
      cases c.isAlpha <;> cases c.isDigit <;> simp

/-! ### Parameters -/

/-- Completing a parameter adds a fixed text to its end, and leaves blanks out at most. -/
theorem spans_mixinParameter {parameter : List Char} (h : Spans k parameter) :
    Spans k (mixinParameter parameter) := by
  have hdots : ∀ c ∈ "...".toList, isInert c = true := List.all_eq_true.mp rfl
  have hstart : Fixed 0 "...".toList := Scan.fixed_of_plain? rfl
  have hrest : Fixed 0 ": any[]".toList := Scan.fixed_of_plain? rfl
  have hany : Fixed 0 "?: any".toList := Scan.fixed_of_plain? rfl
  rw [mixinParameter]
  split
  · next rest hafter =>
    split
    · exact h
    · obtain rfl := Text.afterPrefix?_eq_some_iff.mp hafter
      have htrimmed := hstart.whole.append (h.of_inert_append hdots).trim
      simpa using (htrimmed.append_fixed hrest).spans
  · split
    · exact h
    · simpa using (h.append_fixed hany).spans

/-- **Parameters stay closed when they are completed one by one.** -/
theorem spans_mixinParameters {args : String} (h : Spans k args.toList) :
    Spans k (mixinParameters args).toList := by
  have hcomma : Fixed 0 ", ".toList := Scan.fixed_of_plain? rfl
  have hlast : Spans 0 "..._rest: any[]".toList :=
    (Scan.fixed_of_plain? rfl : Fixed 0 _).spans
  have hcut : Scan.isInert ',' = true := by decide
  have hgiven := ((h.pieces hcut).map fun _ hpiece => hpiece.trim).filter
  have hall := hgiven.map fun _ hparameter => spans_mixinParameter hparameter
  rw [mixinParameters, String.toList_intercalate, List.map_append, List.map_map]
  refine SpanAll.intercalate ?_ hcomma
  rw [← Int.add_zero k]
  refine SpanAll.append ?_ ?_
  · simpa [Function.comp_def] using hall
  · split
    · exact .nil
    · exact Scan.spanAll_of_forall (by simpa using hlast)

/-! ### Steps -/

theorem lays_pushing {text : String} (h : Spans k text.toList) (origin : Origin) :
    Lays k [pushing origin text] :=
  lays_push h origin

theorem Lays.deeper (h : Lays k steps) : Lays k (deeper steps) := by
  have hsteps := (lays_indent.append h).append lays_dedent
  rwa [Int.zero_add, Int.add_zero] at hsteps

theorem lays_closing (origin : Origin) : Lays (-1) [pushing origin "\x7d"] :=
  lays_pushing (Scan.fixed_of_plain? rfl : Fixed (-1) _).spans origin

/-- A block closes the brace that its head opens. -/
theorem Lays.blockSteps {head : String} (hhead : Spans 1 head.toList) (h : Lays 0 content)
    (origin : Origin) : Lays 0 (blockSteps origin head content) :=
  ((lays_pushing hhead origin).append h.deeper).append (lays_closing origin)

theorem lays_map_pushing {α : Type} {items : List α} (text : α → String)
    (h : ∀ item ∈ items, Spans 0 (text item).toList) (origin : Origin) :
    Lays 0 (items.map fun item => pushing origin (text item)) := by
  induction items with
  | nil => exact lays_nil
  | cons item rest ih =>
    obtain ⟨hitem, hrest⟩ := List.forall_mem_cons.mp h
    exact (lays_pushing hitem origin).append (ih hrest)

/-- The steps lead back to the indentation that they start at. -/
def Level (steps : List Step) : Prop :=
  ∀ depth, steps.foldl Step.depthAfter depth = depth

@[simp] theorem level_nil : Level [] := fun _ => rfl

theorem Level.append {more : List Step} (h : Level steps) (hmore : Level more) :
    Level (steps ++ more) := fun depth => by
  rw [List.foldl_append, h, hmore]

@[simp] theorem level_pushing_cons {text : String} :
    Level (pushing origin text :: steps) ↔ Level steps := Iff.rfl

theorem Level.deeper (h : Level steps) : Level (deeper steps) := fun depth => by
  rw [Program.deeper, List.foldl_append]
  show Step.depthAfter (steps.foldl Step.depthAfter (depth + 1)) .dedent = depth
  rw [h]
  rfl

theorem Level.blockSteps (h : Level content) (origin : Origin) (head : String) :
    Level (blockSteps origin head content) :=
  Level.append (level_pushing_cons.mpr h.deeper) (level_pushing_cons.mpr level_nil)

theorem level_map_pushing {α : Type} (items : List α) (text : α → String) (origin : Origin) :
    Level (items.map fun item => pushing origin (text item)) := by
  induction items with
  | nil => exact level_nil
  | cons item rest ih => exact level_pushing_cons.mpr ih

/-! ### Nodes -/

/-- **The steps for a node lead back to the indentation that they start at**, if those for what is
nested in it do. -/
theorem level_kindSteps (kind : NodeKind) (isLeaf branches : Bool) {children alternate : List Step}
    (hchildren : Level children) (halternate : Level alternate) :
    Level (kindSteps origin otherwise kind isLeaf branches children alternate) := by
  cases kind with
  | element name attributes spreads =>
    refine ((level_map_pushing _ _ _).append (level_map_pushing _ _ _)).append ?_
    split
    · exact level_nil
    · exact hchildren
  | code value buffered escaped =>
    cases buffered with
    | true => exact level_pushing_cons.mpr hchildren
    | false =>
      rw [kindSteps]
      split
      · exact level_pushing_cons.mpr hchildren
      · exact hchildren.blockSteps _ _
  | each item key collection =>
    refine (hchildren.blockSteps _ _).append ?_
    split
    · exact halternate.blockSteps _ _
    · exact level_nil
  | conditional test negated =>
    refine (level_pushing_cons.mpr (hchildren.deeper.append ?_)).append
      (level_pushing_cons.mpr level_nil)
    split
    · exact level_pushing_cons.mpr halternate.deeper
    · exact level_nil
  | loop test => exact hchildren.blockSteps _ _
  | mixin name args => exact (level_pushing_cons.mpr hchildren).blockSteps _ _
  | mixinCall name args => exact level_pushing_cons.mpr hchildren
  | region name mode => exact hchildren
  | _ => exact fun _ => rfl

theorem level_nodesSteps (fallback : Path) (nodes : List Node) :
    Level (nodesSteps fallback nodes) := by
  induction nodes using forest_induction with
  | nil => exact level_nil
  | cons kind line file children alternate rest hchildren halternate hrest =>
    rw [nodesSteps, nodeSteps]
    exact (level_kindSteps kind _ _ hchildren halternate).append hrest

/-- A head with one text in it. -/
theorem spans_head {opening text closing : String} (hopening : Fixed j opening.toList)
    (h : Spans 0 text.toList) (hclosing : Fixed k closing.toList) :
    Spans (j + k) (opening ++ text ++ closing).toList := by
  rw [String.toList_append, String.toList_append, ← Int.add_zero j]
  exact ((hopening.whole.append h).append_fixed hclosing).spans

/-- The head of a loop without a key opens one brace. -/
theorem spans_eachHead {item collection : String} (hitem : Spans 0 item.toList)
    (hcollection : Spans 0 collection.toList) :
    Spans 1 ("for (const " ++ item ++ " of " ++ collection ++ ") \x7b").toList := by
  have hfor : Fixed 1 "for (const ".toList := Scan.fixed_of_plain? rfl
  have hof : Fixed 0 " of ".toList := Scan.fixed_of_plain? rfl
  have hclose : Fixed 0 ") \x7b".toList := Scan.fixed_of_plain? rfl
  simp only [String.toList_append]
  have hheader := ((hfor.whole.append hitem).append_fixed hof).append hcollection
  exact (hheader.append_fixed hclose).spans

/-- The head of a loop with a key opens one brace. -/
theorem spans_entriesHead {item key collection : String} (hitem : Spans 0 item.toList)
    (hkey : Spans 0 key.toList) (hcollection : Spans 0 collection.toList) :
    Spans 1 ("for (const [" ++ key ++ ", " ++ item ++ "] of Object.entries(" ++ collection ++
      ")) \x7b").toList := by
  have hfor : Fixed 2 "for (const [".toList := Scan.fixed_of_plain? rfl
  have hcomma : Fixed 0 ", ".toList := Scan.fixed_of_plain? rfl
  have hof : Fixed 0 "] of Object.entries(".toList := Scan.fixed_of_plain? rfl
  have hclose : Fixed (-1) ")) \x7b".toList := Scan.fixed_of_plain? rfl
  simp only [String.toList_append]
  have hnames := ((hfor.whole.append hkey).append_fixed hcomma).append hitem
  exact (((hnames.append_fixed hof).append hcollection).append_fixed hclose).spans

/-- The head of a conditional opens one brace. -/
theorem spans_conditionalHead {test : String} (htest : Spans 0 test.toList) (negated : Bool) :
    Spans 1
      (if negated then "if (!(" ++ test ++ ")) \x7b" else "if (" ++ test ++ ") \x7b").toList := by
  cases negated with
  | true =>
    have hopen : Fixed 2 "if (!(".toList := Scan.fixed_of_plain? rfl
    have hclose : Fixed (-1) ")) \x7b".toList := Scan.fixed_of_plain? rfl
    exact spans_head hopen htest hclose
  | false =>
    have hopen : Fixed 1 "if (".toList := Scan.fixed_of_plain? rfl
    have hclose : Fixed 0 ") \x7b".toList := Scan.fixed_of_plain? rfl
    exact spans_head hopen htest hclose

/-- The head of the function of a mixin opens one brace. -/
theorem spans_mixinHead (name : String) {args : String} (hargs : Spans 0 args.toList) :
    Spans 1
      ("function " ++ mixinFunction name ++ "(" ++ mixinParameters args ++ ") \x7b").toList := by
  have hfunction : Fixed 0 "function ".toList := Scan.fixed_of_plain? rfl
  have hopen : Fixed 1 "(".toList := Scan.fixed_of_plain? rfl
  have hclose : Fixed 0 ") \x7b".toList := Scan.fixed_of_plain? rfl
  have hname := Scan.spans_inert (isInert_of_mem_mixinFunction name)
  simp only [String.toList_append]
  have hhead := ((hfunction.whole.append hname).append_fixed hopen).append
    (spans_mixinParameters hargs)
  exact (hhead.append_fixed hclose).spans

/-- The call of the function of a mixin is closed. -/
theorem spans_mixinCall (name : String) {args : String} (hargs : Spans 0 args.toList) :
    Spans 0 (mixinFunction name ++ "(" ++ trimmed args ++ ");").toList := by
  have hopen : Fixed 1 "(".toList := Scan.fixed_of_plain? rfl
  have hclose : Fixed (-1) ");".toList := Scan.fixed_of_plain? rfl
  have hname := Scan.spans_inert (isInert_of_mem_mixinFunction name)
  simp only [String.toList_append]
  exact (((hname.append_fixed hopen).append (spans_trimmed hargs)).append_fixed hclose).spans

/-- A remark on a line of its own. -/
theorem lays_remark {text : String} {rest : List Char} (htext : text.toList = '/' :: '/' :: rest)
    (hrest : ∀ c ∈ rest, isLineEnd c = false) (origin : Origin) : Lays 0 [pushing origin text] := by
  rw [pushing, htext]
  exact lays_comment hrest origin

theorem forall_not_isLineEnd {cs : List Char} (h : cs.any isLineEnd = false) :
    ∀ c ∈ cs, isLineEnd c = false :=
  fun c hc => Bool.eq_false_iff.mpr (List.any_eq_false.mp h c hc)

/-- What stands for a construct that is skipped. -/
theorem lays_skipped (kind : NodeKind) (origin : Origin) :
    Lays 0 [pushing origin ("// pugcheck: " ++ kind.label ++ " skipped")] := by
  have hlabel : ∀ c ∈ kind.label.toList, isLineEnd c = false := by
    refine forall_not_isLineEnd ?_
    cases kind <;> rw [NodeKind.label] <;> decide +kernel
  have hbefore : ∀ c ∈ " pugcheck: ".toList, isLineEnd c = false :=
    forall_not_isLineEnd rfl
  have hafter : ∀ c ∈ " skipped".toList, isLineEnd c = false :=
    forall_not_isLineEnd rfl
  have hremark : ("// pugcheck: " ++ kind.label ++ " skipped").toList =
      '/' :: '/' :: (" pugcheck: ".toList ++ kind.label.toList ++ " skipped".toList) := by
    rw [String.toList_append, String.toList_append]
    rfl
  exact lays_remark hremark
    (List.forall_mem_append.mpr ⟨List.forall_mem_append.mpr ⟨hbefore, hlabel⟩, hafter⟩) origin

/-- **The steps for a node close what they open**, whatever its texts and names are, if what it
embeds and what is nested in it is closed. -/
theorem lays_kindSteps {kind : NodeKind} (hhost : ∀ text ∈ kind.hostTexts, Spans 0 text.toList)
    (isLeaf branches : Bool) {children alternate : List Step} (hchildren : Lays 0 children)
    (halternate : Lays 0 alternate) :
    Lays 0 (kindSteps origin otherwise kind isLeaf branches children alternate) := by
  have hbrace : Fixed 1 "\x7b".toList := Scan.fixed_of_plain? rfl
  cases kind with
  | element name attributes spreads =>
    simp only [NodeKind.hostTexts, List.forall_mem_append, List.forall_mem_map] at hhost
    have hattributes := lays_map_pushing (fun a : Attribute => mention (trimmed a.value))
      (fun a ha => spans_mention (spans_trimmed (hhost.1 a ha))) origin
    have hspreads := lays_map_pushing (fun expression => mention (trimmed expression))
      (fun e he => spans_mention (spans_trimmed (hhost.2 e he))) origin
    refine Lays.append (k := 0) (hattributes.append hspreads) ?_
    split
    · exact lays_nil
    · exact hchildren
  | text value => exact lays_push (spans_literal value) origin
  | code value buffered escaped =>
    have hvalue := hhost value List.mem_cons_self
    cases buffered with
    | true =>
      exact (lays_pushing (spans_mention (spans_bareExpression hvalue)) origin).append hchildren
    | false =>
      have hstatement := spans_trimEnd hvalue
      rw [kindSteps]
      split
      · exact (lays_pushing hstatement origin).append hchildren
      · refine hchildren.blockSteps ?_ origin
        have hopen : Fixed 1 " \x7b".toList := Scan.fixed_of_plain? rfl
        rw [String.toList_append]
        exact (hstatement.append_fixed hopen).spans
  | each item key collection =>
    have hitem := hhost item List.mem_cons_self
    have hcollection := hhost collection (List.mem_cons_of_mem _ List.mem_cons_self)
    refine Lays.append (j := 0) (k := 0) (hchildren.blockSteps ?_ origin) ?_
    · cases key with
      | none => exact spans_eachHead hitem hcollection
      | some key =>
        have hkey := hhost key (by simp [NodeKind.hostTexts])
        exact spans_entriesHead hitem hkey hcollection
    · split
      · exact halternate.blockSteps hbrace.spans otherwise
      · exact lays_nil
  | loop test =>
    have hopen : Fixed 1 "while (".toList := Scan.fixed_of_plain? rfl
    have hclose : Fixed 0 ") \x7b".toList := Scan.fixed_of_plain? rfl
    exact hchildren.blockSteps (spans_head hopen (hhost test List.mem_cons_self) hclose) origin
  | conditional test negated =>
    have htest := hhost test List.mem_cons_self
    have helse : Fixed 0 "\x7d else \x7b".toList := Scan.fixed_of_plain? rfl
    have hbranches : Lays 0 (if branches then
        pushing otherwise "\x7d else \x7b" :: deeper alternate else []) := by
      split
      · exact (lays_pushing helse.spans otherwise).append halternate.deeper
      · exact lays_nil
    exact (((lays_pushing (spans_conditionalHead htest negated) origin).append
      hchildren.deeper).append hbranches).append (lays_closing origin)
  | region name mode => exact hchildren
  | mixin name args =>
    have hlocals : Fixed 0 mixinLocals.toList := Scan.fixed_of_plain? rfl
    exact ((lays_pushing hlocals.spans origin).append hchildren).blockSteps
      (spans_mixinHead name (spans_arguments hhost)) origin
  | mixinCall name args =>
    exact (lays_pushing (spans_mixinCall name (spans_arguments hhost)) origin).append hchildren
  | comment value buffered => exact lays_nil
  | filter | doctype | inherits | inclusion => exact lays_skipped _ origin

/-- **The steps for a tree close what they open.** -/
theorem lays_nodesSteps (fallback : Path) {nodes : List Node}
    (h : ∀ node ∈ walkAll nodes, ∀ text ∈ node.kind.hostTexts, Closed text.toList) :
    Lays 0 (nodesSteps fallback nodes) := by
  induction nodes using forest_induction with
  | nil => exact lays_nil
  | cons kind line file children alternate rest hchildren halternate hrest =>
    simp only [walkAll, Node.walk, List.cons_append, List.forall_mem_cons,
      List.forall_mem_append] at h
    obtain ⟨hkind, ⟨hinside, hotherwise⟩, hafter⟩ := h
    rw [nodesSteps, nodeSteps]
    exact Lays.append (j := 0) (lays_kindSteps (fun text htext => (hkind text htext).spans) _ _
      (hchildren hinside) (halternate hotherwise)) (hrest hafter)

/-! ### Programs -/

/-- A character that ends no string literal in double quotes and no line, and has no meaning in
them. -/
def IsQuotable (c : Char) : Prop :=
  c ≠ '"' ∧ c ≠ '\\' ∧ isLineEnd c = false

/-- **What is assumed of the texts that a program is made from.** Texts of the host language are
closed and free of comments, shared members are identifiers, and paths and modules can be written in
double quotes. Nothing is assumed of text in the template's own language. -/
structure Embeds (tree : List Node) (contract : Contract) (shared : Option SharedLocals) :
    Prop where
  /-- Expressions and statements in the template. -/
  hostTexts : ∀ node ∈ walkAll tree, ∀ text ∈ node.kind.hostTexts, Closed text.toList
  /-- The expected shape. -/
  rawExpects : Closed contract.rawExpects.toList
  /-- The clauses of imports. -/
  clause : ∀ record ∈ contract.imports, Closed record.clause.toList
  /-- The name of the shared type. -/
  typeName : ∀ locals ∈ shared, Closed locals.typeName.toList
  /-- The members of the shared type. -/
  fields : ∀ locals ∈ shared, ∀ name ∈ locals.fields, Contract.isIdentifier name = true
  /-- The path of the template. -/
  template : contract.template.Consists IsQuotable
  /-- The modules that are imported. -/
  source : ∀ record ∈ contract.imports, ∀ c ∈ record.source.toList, IsQuotable c
  /-- The templates that the imports are read from. -/
  file : ∀ record ∈ contract.imports, record.file.Consists IsQuotable
  /-- The declaration file. -/
  importPath : ∀ locals ∈ shared, locals.importPath.Consists IsQuotable

/-- Quotable characters stay in a string literal. -/
theorem plain?_quotable {cs : List Char} (h : ∀ c ∈ cs, IsQuotable c) (depth : Int) :
    plain? ⟨.quoted '"', depth⟩ cs = some ⟨.quoted '"', depth⟩ := by
  induction cs with
  | nil => rfl
  | cons c rest ih =>
    obtain ⟨⟨hquote, hbackslash, -⟩, hrest⟩ := List.forall_mem_cons.mp h
    rw [plain?, Scan.advance_quoted, if_neg hbackslash, if_neg hquote]
    exact ih hrest

/-- An import statement is closed, if its clause is and its module can be quoted. -/
theorem spans_import {clause module : String} (hclause : Spans 0 clause.toList)
    (hmodule : ∀ c ∈ module.toList, IsQuotable c) :
    Spans 0 (clause ++ " from \"" ++ module ++ "\";").toList := by
  intro depth
  have hopen : plain? ⟨.code, depth⟩ " from \"".toList = some ⟨.quoted '"', depth⟩ := rfl
  have hclose : plain? ⟨.quoted '"', depth⟩ "\";".toList = some ⟨.code, depth⟩ := rfl
  have hfrom : Scan.Apart clause.toList (" from \"".toList ++ (module.toList ++ "\";".toList)) :=
    fun _ => by simp
  simp only [String.toList_append, List.append_assoc]
  rw [Scan.plain?_append hfrom, hclause, Int.add_zero, Option.bind_some,
    Scan.plain?_append fun h => absurd h (by decide), hopen, Option.bind_some,
    Scan.plain?_append fun _ => by decide, plain?_quotable hmodule, Option.bind_some, hclose]

theorem isQuotable_slash : IsQuotable '/' := by
  refine ⟨?_, ?_, ?_⟩ <;> decide

theorem isQuotable_dot : IsQuotable '.' := by
  refine ⟨?_, ?_, ?_⟩ <;> decide

/-- A path stays quotable when its backslashes are written as slashes. -/
theorem isQuotable_slashed {cs : List Char} (h : ∀ c ∈ cs, IsQuotable c) :
    ∀ c ∈ cs.map fun c => if c = '\\' then '/' else c, IsQuotable c := by
  rintro _ hc
  obtain ⟨c, hmem, rfl⟩ := List.mem_map.mp hc
  split
  · exact isQuotable_slash
  · exact h c hmem

theorem spans_absoluteStatement {record : Contract.Import} (hclause : Spans 0 record.clause.toList)
    (hsource : ∀ c ∈ record.source.toList, IsQuotable c) (hfile : record.file.Consists IsQuotable) :
    Spans 0 record.absoluteStatement.toList := by
  refine spans_import hclause ?_
  split
  · rw [Contract.Import.slashed, String.toList_ofList]
    exact isQuotable_slashed <| ((hfile.parent isQuotable_slash).join isQuotable_slash
      (q := ⟨record.source⟩) hsource).normalize isQuotable_slash isQuotable_dot
  · exact hsource

theorem isQuotable_moduleName {shared : SharedLocals}
    (h : shared.importPath.Consists IsQuotable) : ∀ c ∈ shared.moduleName.toList, IsQuotable c := by
  have hpath := isQuotable_slashed h
  have hstem : ∀ {extension stem : List Char} {cs : List Char}, (∀ c ∈ cs, IsQuotable c) →
      Text.beforeSuffix? extension cs = some stem → ∀ c ∈ stem, IsQuotable c := by
    intro extension stem cs hcs hbefore c hc
    obtain ⟨after, hafter, rfl⟩ := Option.map_eq_some_iff.mp hbefore
    have hcut := Text.afterPrefix?_eq_some_iff.mp hafter
    refine hcs c (List.mem_reverse.mp ?_)
    rw [hcut]
    exact List.mem_append_right _ (List.mem_reverse.mp hc)
  rw [SharedLocals.moduleName, String.toList_ofList]
  generalize shared.importPath.text.toList.map (fun c => if c = '\\' then '/' else c) = path
    at hpath ⊢
  beta_reduce
  cases hlong : Text.beforeSuffix? ".d.ts".toList path with
  | some stem => exact hstem hpath hlong
  | none =>
    cases hshort : Text.beforeSuffix? ".ts".toList path with
    | some stem => exact hstem hpath hshort
    | none => exact hpath

theorem spans_importStatement {shared : SharedLocals} (htype : Spans 0 shared.typeName.toList)
    (hpath : shared.importPath.Consists IsQuotable) : Spans 0 shared.importStatement.toList := by
  have hopen : Fixed 1 "import type \x7b ".toList := Scan.fixed_of_plain? rfl
  have hclose : Fixed (-1) " \x7d".toList := Scan.fixed_of_plain? rfl
  have hstatement : shared.importStatement =
      "import type \x7b " ++ shared.typeName ++ " \x7d from \"" ++ shared.moduleName ++ "\";" := rfl
  have hfrom : " \x7d from \"" = " \x7d" ++ " from \"" := rfl
  rw [hstatement, hfrom, ← String.append_assoc]
  exact spans_import (spans_head hopen htype hclose) (isQuotable_moduleName hpath)

/-! ### The head of the function -/

theorem mem_addNames {known names : List String} {name : String} (h : name ∈ addNames known names) :
    name ∈ known ∨ name ∈ names := by
  induction names generalizing known with
  | nil => exact Or.inl h
  | cons first rest ih =>
    rcases ih h with hknown | hrest
    · dsimp only at hknown
      split at hknown
      · exact Or.inl hknown
      · rcases List.mem_append.mp hknown with hknown | hfirst
        · exact Or.inl hknown
        · exact Or.inr (List.mem_singleton.mp hfirst ▸ List.mem_cons_self)
    · exact Or.inr (List.mem_cons_of_mem first hrest)

variable {tree : List Node} {contract : Contract} {shared : Option SharedLocals}

/-- The variables of a template are identifiers, if the members of the shared type are. -/
theorem isIdentifier_of_mem_localNames
    (hfields : ∀ locals ∈ shared, ∀ name ∈ locals.fields, Contract.isIdentifier name = true)
    {name : String} (h : name ∈ localNames contract shared) :
    Contract.isIdentifier name = true := by
  rcases mem_addNames h with h | h
  · obtain ⟨field, hfield, rfl⟩ :=
      List.mem_map.mp ((mem_addNames h).resolve_left List.not_mem_nil)
    exact (List.mem_filter.mp hfield).2
  · cases shared with
    | none => cases h
    | some locals => exact hfields locals rfl name h

/-- What comes before the function is closed. -/
theorem lays_preamble (h : Embeds tree contract shared) :
    Lays 0 ((preamble contract shared).map (pushing .contract)) := by
  have hgenerated : ∀ c ∈ " pugcheck: generated from ".toList, isLineEnd c = false :=
    forall_not_isLineEnd rfl
  have hremark : Lays 0
      [pushing .contract ("// pugcheck: generated from " ++ contract.template.text)] := by
    have hremark : ("// pugcheck: generated from " ++ contract.template.text).toList =
        '/' :: '/' :: (" pugcheck: generated from ".toList ++ contract.template.text.toList) := by
      rw [String.toList_append]
      rfl
    exact lays_remark hremark
      (List.forall_mem_append.mpr ⟨hgenerated, fun c hc => (h.template c hc).2.2⟩) _
  have himports : ∀ statement ∈ contract.imports.map (·.absoluteStatement),
      Spans 0 statement.toList := by
    intro statement hstatement
    obtain ⟨record, hrecord, rfl⟩ := List.mem_map.mp hstatement
    exact spans_absoluteStatement (h.clause record hrecord).spans (h.source record hrecord)
      (h.file record hrecord)
  have hshared : ∀ statement ∈ (shared.map (·.importStatement)).toList,
      Spans 0 statement.toList := by
    intro statement hstatement
    obtain ⟨locals, hlocals, rfl⟩ := Option.map_eq_some_iff.mp (Option.mem_toList.mp hstatement)
    exact spans_importStatement (h.typeName locals hlocals).spans (h.importPath locals hlocals)
  exact hremark.append (lays_map_pushing id
    (List.forall_mem_append.mpr ⟨himports, hshared⟩) .contract)

/-- The head of the function opens one brace. -/
theorem lays_signatureSteps (h : Embeds tree contract shared) :
    Lays 1 (signatureSteps contract shared) := by
  have hrender : Fixed 1 "export function render(locals: ".toList :=
    Scan.fixed_of_plain? rfl
  have hand : Fixed 0 " & ".toList := Scan.fixed_of_plain? rfl
  have hclose : Fixed 0 ") \x7b".toList := Scan.fixed_of_plain? rfl
  have hconst : Fixed 1 "const \x7b ".toList := Scan.fixed_of_plain? rfl
  have hcomma : Fixed 0 ", ".toList := Scan.fixed_of_plain? rfl
  have hlocals : Fixed (-1) " \x7d = locals;".toList := Scan.fixed_of_plain? rfl
  have htype : Spans 0 (localsType contract shared).toList := by
    cases shared with
    | none => exact h.rawExpects.spans
    | some locals =>
      simp only [localsType, String.toList_append]
      exact (h.rawExpects.spans.append_fixed hand).append (h.typeName locals rfl).spans
  have hnames : Spans 0 (", ".intercalate (localNames contract shared)).toList := by
    rw [String.toList_intercalate]
    refine SpanAll.intercalate (Scan.spanAll_of_forall fun text htext => ?_) hcomma
    obtain ⟨name, hname, rfl⟩ := List.mem_map.mp htext
    exact Scan.spans_inert
      (isInert_of_mem_identifier (isIdentifier_of_mem_localNames h.fields hname))
  exact ((lays_pushing (spans_head hrender htype hclose) _).append lays_indent).append
    (lays_pushing (spans_head hconst hnames hlocals) _)

/-! ### Main results -/

/-- **Every program is balanced.** Whatever the tree, the contract and the shared locals are, the
indentation is back at zero for the closing brace of the function, which is the last line. If the
texts of the host language are closed by themselves, the shared members are identifiers and paths
and modules can be quoted, then the scanner, which knows strings and comments, finds the source
closed at its end: at depth zero, and neither in a string literal nor in a comment. -/
theorem generate_balanced :
    (∀ (tree : List Node) (contract : Contract) (shared : Option SharedLocals),
      ∃ before,
        programSteps tree contract shared = before ++ [pushing (signatureOrigin contract) "\x7d"] ∧
          before.foldl Step.depthAfter 0 = 0) ∧
    ∀ (tree : List Node) (contract : Contract) (shared : Option SharedLocals),
      Embeds tree contract shared →
        Scan.isBalanced true (generate tree contract shared).source.toList = true := by
  refine ⟨fun tree contract shared => ?_, fun tree contract shared h => ?_⟩
  · let opening :=
      (preamble contract shared).map (pushing .contract) ++ signatureSteps contract shared
    have hpreamble : Level ((preamble contract shared).map (pushing .contract)) :=
      level_map_pushing _ id .contract
    have hopening : opening.foldl Step.depthAfter 0 = 1 := by
      rw [List.foldl_append, hpreamble]
      rfl
    refine ⟨opening ++ nodesSteps contract.template tree ++ [.dedent], ?_, ?_⟩
    · simp [opening, programSteps, signatureSteps, signatureOrigin]
    · rw [List.foldl_append, List.foldl_append, hopening, level_nodesSteps]
      rfl
  · have hbody := lays_nodesSteps contract.template h.hostTexts
    have hclosing := lays_dedent.append (lays_closing (signatureOrigin contract))
    have hprogram :=
      (((lays_preamble h).append (lays_signatureSteps h)).append hbody).append hclosing
    have hend : endState true .start (generate tree contract shared).source.toList = .start :=
      hprogram 0 0
    rw [Scan.isBalanced, hend]
    rfl

instance : DecidablePred IsQuotable := fun _ => inferInstanceAs (Decidable (_ ∧ _ ∧ _))

theorem forall_isQuotable {cs : List Char} (h : cs.all (decide <| IsQuotable ·) = true) :
    ∀ c ∈ cs, IsQuotable c :=
  fun c hc => of_decide_eq_true (List.all_eq_true.mp h c hc)

/-- Text and names that look like code do not disturb a program. -/
theorem balanced_of_unbalanced_text :
    let tree : List Node :=
      [⟨.mixin "card (x\x7b" (some "title, [a, b] = [1, 2], ...rest"), 1, none,
        [⟨.element "`$\x7b" [⟨"title", "\x7b a: [\"]\"] \x7d", true⟩] ["extra"], 2, none,
          [.leaf (.text "say `$\x7b( \\ /* // '") 3], []⟩], []⟩,
        ⟨.each "item" (some "i") "items", 4, none, [.leaf (.code "if (item)" false false) 5],
          [.leaf (.filter "markdown") 6]⟩]
    let contract : Contract :=
      { Contract.ofTemplate ⟨"/views/page.pug"⟩ with
        rawExpects := "\x7b items: string[] \x7d"
        imports :=
          [⟨"", "import \x7b Item \x7d", ["Item"], "./item", false, ⟨"/views/page.pug"⟩, 1⟩] }
    let shared : Option SharedLocals := some ⟨⟨"/types/locals.d.ts"⟩, "Locals", ["user"]⟩
    Embeds tree contract shared ∧
      Scan.isBalanced true (generate tree contract shared).source.toList = true := by
  intro tree contract shared
  have hshared : ∀ locals ∈ shared, locals = ⟨⟨"/types/locals.d.ts"⟩, "Locals", ["user"]⟩ :=
    fun _ hlocals => (Option.some.inj hlocals).symm
  have hembeds : Embeds tree contract shared := by
    constructor
    case hostTexts =>
      refine fun node hnode text htext => Scan.closed_iff.mpr ?_
      revert text; revert node
      decide +kernel
    case rawExpects => exact Scan.closed_iff.mpr (by decide +kernel)
    case clause =>
      refine fun record hrecord => Scan.closed_iff.mpr ?_
      revert record
      decide +kernel
    case typeName =>
      refine fun locals hlocals => Scan.closed_iff.mpr ?_
      rw [hshared locals hlocals]
      decide +kernel
    case fields =>
      intro locals hlocals
      rw [hshared locals hlocals]
      decide +kernel
    case template =>
      have htemplate : contract.template.text.toList.all (decide <| IsQuotable ·) = true := by
        decide +kernel
      exact forall_isQuotable htemplate
    case source =>
      have hsource : ∀ record ∈ contract.imports,
          record.source.toList.all (decide <| IsQuotable ·) = true := by decide +kernel
      exact fun record hrecord => forall_isQuotable (hsource record hrecord)
    case file =>
      have hfile : ∀ record ∈ contract.imports,
          record.file.text.toList.all (decide <| IsQuotable ·) = true := by decide +kernel
      exact fun record hrecord => forall_isQuotable (hfile record hrecord)
    case importPath =>
      have hpath : "/types/locals.d.ts".toList.all (decide <| IsQuotable ·) = true := by
        decide +kernel
      intro locals hlocals
      rw [hshared locals hlocals]
      exact forall_isQuotable hpath
  exact ⟨hembeds, generate_balanced.2 tree contract shared hembeds⟩

end Program

end PugContracts
