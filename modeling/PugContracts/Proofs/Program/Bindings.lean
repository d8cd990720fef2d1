import PugContracts.Proofs.Program.Balance
import PugContracts.Proofs.Program.Emission

/-!
# The variables of a program

The members of the shape and of the shared locals are taken out of the parameter of the function by
one statement, `const { ... } = locals;`. It stands on a line of its own and lists the members of
the shape and then those shared members that are not among them, each once. All of them are
identifiers. But an identifier can be a reserved word, or the parameter `locals` itself, and then no
variable can be named by it; nothing leaves these out. So the statement is a legal one if and only
if no member is such a word.

A mixin becomes a function whose name is made from that of the mixin by masking all characters that
an identifier cannot hold. So the names of functions are always legal, but mixins whose names differ
in masked characters only become functions of the same name.

## Main results

* `addNames_eq` — the names that are listed
* `mixinFunction_eq_iff` — when two mixins become functions of the same name
* `generate_binds` — the variables and the functions of a program
-/

namespace PugContracts

/-! ### Loaded shared locals -/

/-- The members of a type that is loaded are identifiers. -/
theorem SharedLocals.isIdentifier_of_load {d : Disk} {path : Path} {typeName : String}
    {locals : SharedLocals} (h : load d path typeName = .ok locals) :
    ∀ name ∈ locals.fields, Contract.isIdentifier name = true := by
  rw [load] at h
  split at h
  · cases h
  · split at h
    · cases h
    · next fields hfields =>
      cases h
      simp only [fieldsOf?, Option.bind_eq_bind, Option.bind_eq_some_iff, Option.pure_def,
        Option.some.injEq, Prod.exists] at hfields
      obtain ⟨body, -, inner, rest, -, hkept⟩ := hfields
      intro name hname
      dsimp only at hname
      rw [← hkept] at hname
      obtain ⟨field, hfield, rfl⟩ := List.mem_map.mp hname
      exact (List.mem_filter.mp hfield).2

namespace Program

open Template

variable {known names : List String} {name : String} {contract : Contract}
  {shared : Option SharedLocals}

/-! ### Legal names -/

/-- The reserved words of modules. -/
def reservedWords : List String :=
  ["await", "break", "case", "catch", "class", "const", "continue", "debugger", "default", "delete",
    "do", "else", "enum", "export", "extends", "false", "finally", "for", "function", "if",
    "implements", "import", "in", "instanceof", "interface", "let", "new", "null", "package",
    "private", "protected", "public", "return", "static", "super", "switch", "this", "throw",
    "true", "try", "typeof", "var", "void", "while", "with", "yield"]

/-- The name consists of letters, digits, `_` and `$`, and does not start with a digit. -/
def IsIdentifierName (name : String) : Prop :=
  ∃ first rest, name.toList = first :: rest ∧ (first.isAlpha = true ∨ first = '_' ∨ first = '$') ∧
    ∀ c ∈ rest, c.isAlphanum = true ∨ c = '_' ∨ c = '$'

/-- The words that are identifiers by their characters, but name no variable of the function. -/
def IsTaken (name : String) : Prop :=
  name ∈ reservedWords ∨ name = "locals"

instance : DecidablePred IsTaken := fun _ => inferInstanceAs (Decidable (_ ∨ _))

/-- A name for a variable at the start of the function: an identifier that is neither reserved nor
the parameter of the function. -/
def IsBindingName (name : String) : Prop :=
  IsIdentifierName name ∧ ¬ IsTaken name

theorem isIdentifierName_of_isIdentifier (h : Contract.isIdentifier name = true) :
    IsIdentifierName name := by
  rw [Contract.isIdentifier] at h
  cases hname : name.toList with
  | nil => simp [hname] at h
  | cons first rest =>
    simp only [hname, Bool.and_eq_true, List.all_eq_true, Bool.or_eq_true, beq_iff_eq] at h
    refine ⟨first, rest, hname, by simpa [or_assoc] using h.1, fun c hc => ?_⟩
    rw [Char.isAlphanum, Bool.or_eq_true]
    rcases h.2 c hc with ((halpha | hunderscore) | hdollar) | hdigit
    · exact Or.inl (Or.inl halpha)
    · exact Or.inr (Or.inl hunderscore)
    · exact Or.inr (Or.inr hdollar)
    · exact Or.inl (Or.inr hdigit)

theorem IsIdentifierName.not_isLineEnd (h : IsIdentifierName name) :
    ∀ c ∈ name.toList, isLineEnd c = false := by
  obtain ⟨first, rest, htext, hfirst, hrest⟩ := h
  have hword : ∀ c : Char, c.isAlphanum = true ∨ c = '_' ∨ c = '$' → isLineEnd c = false := by
    intro c hc
    refine Bool.eq_false_iff.mpr fun hend => ?_
    simp only [isLineEnd, Bool.or_eq_true, beq_iff_eq] at hend
    rcases hend with ((rfl | rfl) | rfl) | rfl <;> exact absurd hc (by decide)
  rw [htext]
  refine List.forall_mem_cons.mpr ⟨hword first ?_, fun c hc => hword c (hrest c hc)⟩
  rw [Char.isAlphanum, Bool.or_eq_true]
  exact hfirst.imp_left Or.inl

/-! ### The names that are listed -/

/-- **The names that are added** are those that are not known, each once. -/
theorem addNames_eq (known names : List String) :
    addNames known names = known ++ (names.filter (!known.contains ·)).eraseDups := by
  induction names generalizing known with
  | nil => simp [addNames]
  | cons name rest ih =>
    rw [addNames, List.foldl_cons, ← addNames, ih]
    by_cases hname : known.contains name = true
    · rw [if_pos hname, List.filter_cons_of_neg (by simpa using hname)]
    · rw [if_neg hname, List.filter_cons_of_pos (by simpa using hname), List.eraseDups_cons,
        List.append_assoc, List.singleton_append, List.filter_filter]
      have hsame : ∀ other, (!(known ++ [name]).contains other) =
          ((!other == name) && !known.contains other) := fun other => by
        rw [Bool.eq_iff_iff]
        simp [and_comm]
      simp only [hsame]

theorem nodup_addNames (h : known.Nodup) : (addNames known names).Nodup := by
  induction names generalizing known with
  | nil => exact h
  | cons name rest ih =>
    rw [addNames, List.foldl_cons, ← addNames]
    refine ih ?_
    split
    · exact h
    · next hname =>
      rw [← List.concat_eq_append]
      exact h.concat (by simpa using hname)

/-- The members of the shape that can be written in a pattern as they are. -/
def ownNames (contract : Contract) : List String :=
  (contract.shape.fields.filter (·.isIdentifier)).map (·.name)

/-- The members of the shared locals. -/
def sharedNames (shared : Option SharedLocals) : List String :=
  (shared.map SharedLocals.fields).getD []

theorem localNames_eq (contract : Contract) (shared : Option SharedLocals) :
    localNames contract shared = (ownNames contract).eraseDups ++
      ((sharedNames shared).filter (· ∉ ownNames contract)).eraseDups := by
  have hown : addNames [] (ownNames contract) = (ownNames contract).eraseDups := by
    rw [addNames_eq]
    simp
  show addNames (addNames [] (ownNames contract)) (sharedNames shared) = _
  rw [hown, addNames_eq]
  simp

theorem mem_localNames_iff :
    name ∈ localNames contract shared ↔ name ∈ ownNames contract ++ sharedNames shared := by
  rw [localNames_eq]
  by_cases hown : name ∈ ownNames contract <;> simp [hown]

/-- The step for the signature of the function. -/
def signatureStep (contract : Contract) (shared : Option SharedLocals) : Step :=
  pushing (signatureOrigin contract)
    ("export function render(locals: " ++ localsType contract shared ++ ") \x7b")

/-- The names stand on a line of their own, at the start of the function. -/
theorem lines_generate (tree : List Node)
    (hnames : ∀ name ∈ localNames contract shared, Contract.isIdentifier name = true) :
    (generate tree contract shared).lines =
      layout 0 ((preamble contract shared).map (pushing .contract) ++
          [signatureStep contract shared]) ++
        ⟨"  ".toList ++ ("const \x7b " ++ ", ".intercalate (localNames contract shared) ++
            " \x7d = locals;").toList, signatureOrigin contract⟩ ::
        (layout 1 (nodesSteps contract.template tree) ++
          [⟨['\x7d'], signatureOrigin contract⟩]) := by
  generalize hconst : "const \x7b " ++ ", ".intercalate (localNames contract shared) ++
    " \x7d = locals;" = const
  have hone : ∀ c ∈ const.toList, isLineEnd c = false := by
    rw [← hconst, String.toList_append, String.toList_append]
    refine List.forall_mem_append.mpr ⟨List.forall_mem_append.mpr
      ⟨forall_not_isLineEnd rfl, ?_⟩, forall_not_isLineEnd rfl⟩
    refine Text.forall_mem_intercalate (forall_not_isLineEnd rfl) fun name hname => ?_
    exact (isIdentifierName_of_isIdentifier (hnames name hname)).not_isLineEnd
  have hline : (pushing (signatureOrigin contract) const).lines 1 =
      [⟨"  ".toList ++ const.toList, signatureOrigin contract⟩] := by
    rw [pushing, Step.lines, splitLines_eq_singleton hone]
    simp [indented, indentation, ← hconst]
  generalize hopening : (preamble contract shared).map (pushing .contract) ++
    [signatureStep contract shared] = opening
  have hdepth : opening.foldl Step.depthAfter 0 = 0 := by
    have hpreamble := level_map_pushing (preamble contract shared) id .contract 0
    rw [← hopening, List.foldl_append]
    exact congrArg (List.foldl Step.depthAfter · [signatureStep contract shared]) hpreamble
  have hsteps : programSteps tree contract shared =
      opening ++ (.indent :: pushing (signatureOrigin contract) const ::
        (nodesSteps contract.template tree ++
          [.dedent, pushing (signatureOrigin contract) "\x7d"])) := by
    simp [programSteps, signatureOrigin, signatureStep, ← hopening, ← hconst]
  have hindent : ∀ rest, layout 0 (.indent :: pushing (signatureOrigin contract) const :: rest) =
      (pushing (signatureOrigin contract) const).lines 1 ++ layout 1 rest := fun _ => rfl
  have hclosing : layout 1 [.dedent, pushing (signatureOrigin contract) "\x7d"] =
      [⟨['\x7d'], signatureOrigin contract⟩] := rfl
  have hbody := layout_append 1 (nodesSteps contract.template tree)
    [.dedent, pushing (signatureOrigin contract) "\x7d"]
  rw [level_nodesSteps, hclosing] at hbody
  rw [generate, hsteps, layout_append, hdepth, hindent, hline, hbody]
  rfl

/-! ### Mixins -/

/-- A character that does not tell mixins apart: `_`, and what an identifier cannot hold. -/
def IsMasked (c : Char) : Prop :=
  c = '_' ∨ (c.isAlphanum = false ∧ c ≠ '$')

instance : DecidablePred IsMasked := fun _ => inferInstanceAs (Decidable (_ ∨ _))

/-- A character of a mixin's name as it is written in the name of the function. -/
def masked (c : Char) : Char :=
  if IsMasked c then '_' else c

theorem toList_mixinFunction (name : String) :
    (mixinFunction name).toList = "mixin_".toList ++ name.toList.map masked := by
  have hmasked (c : Char) :
      (if c.isAlphanum || c == '_' || c == '$' then c else '_') = masked c := by
    rw [masked]
    by_cases hc : IsMasked c
    · rw [if_pos hc]
      rcases hc with rfl | ⟨hword, hdollar⟩
      · rfl
      · by_cases hunderscore : c = '_' <;> simp [hword, hdollar, hunderscore]
    · rw [if_neg hc, if_pos]
      obtain ⟨-, hdollar⟩ := not_or.mp hc
      cases hword : c.isAlphanum with
      | true => rfl
      | false => simp [not_not.mp fun hne => hdollar ⟨hword, hne⟩]
  simp only [mixinFunction, String.toList_append, String.toList_ofList, hmasked]

theorem masked_eq_iff {c d : Char} : masked c = masked d ↔ c = d ∨ (IsMasked c ∧ IsMasked d) := by
  have hunderscore : IsMasked '_' := Or.inl rfl
  rw [masked, masked]
  by_cases hc : IsMasked c <;> by_cases hd : IsMasked d
  · simp [hc, hd]
  · rw [if_pos hc, if_neg hd]
    refine iff_of_false (fun heq => hd (heq ▸ hunderscore)) ?_
    rintro (rfl | ⟨-, hd'⟩)
    · exact hd hc
    · exact hd hd'
  · rw [if_neg hc, if_pos hd]
    refine iff_of_false (fun heq => hc (heq ▸ hunderscore)) ?_
    rintro (rfl | ⟨hc', -⟩)
    · exact hc hd
    · exact hc hc'
  · simp [hc, hd]

/-- **Two mixins become functions of the same name** if and only if their names are equally long and
differ in masked characters only. -/
theorem mixinFunction_eq_iff {a b : String} : mixinFunction a = mixinFunction b ↔
    List.Forall₂ (fun c d => c = d ∨ (IsMasked c ∧ IsMasked d)) a.toList b.toList := by
  rw [← String.toList_inj, toList_mixinFunction, toList_mixinFunction, List.append_cancel_left_eq,
    ← List.forall₂_eq_eq_eq, List.forall₂_map_left_iff, List.forall₂_map_right_iff]
  simp only [masked_eq_iff]

/-- The function of a mixin has a legal name, whatever the name of the mixin is. -/
theorem isBindingName_mixinFunction (name : String) : IsBindingName (mixinFunction name) := by
  have htext := toList_mixinFunction name
  refine ⟨⟨'m', "ixin_".toList ++ name.toList.map masked, htext, Or.inl (by decide), ?_⟩, ?_⟩
  · intro c hc
    rcases List.mem_append.mp hc with hc | hc
    · have hfixed : ∀ c ∈ "ixin_".toList, c.isAlphanum = true ∨ c = '_' ∨ c = '$' := by simp
      exact hfixed c hc
    · obtain ⟨original, -, rfl⟩ := List.mem_map.mp hc
      rw [masked]
      split
      · exact Or.inr (Or.inl rfl)
      · next hmasked =>
        obtain ⟨-, hdollar⟩ := not_or.mp hmasked
        cases hword : original.isAlphanum with
        | true => exact Or.inl rfl
        | false => exact Or.inr (Or.inr (not_not.mp fun hne => hdollar ⟨hword, hne⟩))
  · intro htaken
    have hstart : "mixin_".toList <+: (mixinFunction name).toList := by
      rw [htext]
      exact List.prefix_append _ _
    have hnone : ∀ word ∈ "locals" :: reservedWords, ¬ "mixin_".toList <+: word.toList := by decide
    have hword : mixinFunction name ∈ "locals" :: reservedWords := by
      rcases htaken with hreserved | hlocals
      · exact List.mem_cons_of_mem _ hreserved
      · exact List.mem_cons.mpr (Or.inl hlocals)
    exact hnone (mixinFunction name) hword hstart

/-! ### Main result -/

/-- What is written for a mixin: the head of its function. -/
def mixinHead (name : String) (args : Option String) : String :=
  "function " ++ mixinFunction name ++ "(" ++ mixinParameters (args.getD "") ++ ") \x7b"

/-- **The variables and the functions of a program.** The statement at the start of the function
lists the members of the shape and then the shared members that are not among them, each once, and
all of them are identifiers. They are those that can name variables if and only if no member is a
reserved word or `locals`. The functions of mixins have legal names, and two of them have the same
name if and only if the names of the mixins differ in masked characters only. -/
theorem generate_binds (tree : List Node) (contract : Contract) (shared : Option SharedLocals)
    (hshared : ∀ locals ∈ shared, ∃ d path typeName,
      SharedLocals.load d path typeName = .ok locals) :
    let program := generate tree contract shared
    let own := ownNames contract
    let others := sharedNames shared
    let names := own.eraseDups ++ (others.filter (· ∉ own)).eraseDups
    program.lines =
      layout 0 ((preamble contract shared).map (pushing .contract) ++
          [signatureStep contract shared]) ++
        ⟨"  ".toList ++ ("const \x7b " ++ ", ".intercalate names ++ " \x7d = locals;").toList,
          signatureOrigin contract⟩ ::
        (layout 1 (nodesSteps contract.template tree) ++ [⟨['\x7d'], signatureOrigin contract⟩]) ∧
    names.Nodup ∧
    (∀ name ∈ names, IsIdentifierName name) ∧
    ((∀ name ∈ names, IsBindingName name) ↔ ∀ name ∈ own ++ others, ¬ IsTaken name) ∧
    (names.filter (¬ IsTaken ·) = names ↔ ∀ name ∈ own ++ others, ¬ IsTaken name) ∧
    (∀ node above name args, Stands tree above node → node.kind = .mixin name args →
      (∀ outer ∈ above, emitsContent outer.kind = true ∧
        (outer.kind.branches = true ∨ outer.alternate = [])) →
      program.Shows (mixinHead name args).toList (.ofNode node contract.template)) ∧
    (∀ name, IsBindingName (mixinFunction name)) ∧
    ∀ a b, mixinFunction a = mixinFunction b ↔
      List.Forall₂ (fun c d => c = d ∨ (IsMasked c ∧ IsMasked d)) a.toList b.toList := by
  intro program own others names
  have hnames : localNames contract shared = names := localNames_eq contract shared
  have hidentifier : ∀ name ∈ localNames contract shared, Contract.isIdentifier name = true :=
    fun name => isIdentifier_of_mem_localNames fun locals hlocals => by
      obtain ⟨d, path, typeName, hload⟩ := hshared locals hlocals
      exact SharedLocals.isIdentifier_of_load hload
  have hmem : ∀ name, name ∈ names ↔ name ∈ own ++ others := fun name =>
    hnames ▸ mem_localNames_iff
  have hlegal : ∀ name ∈ names, IsIdentifierName name := fun name hname =>
    isIdentifierName_of_isIdentifier (hidentifier name (hnames ▸ hname))
  refine ⟨?_, ?_, hlegal, ?_, ?_, ?_, isBindingName_mixinFunction, fun a b => mixinFunction_eq_iff⟩
  · rw [← hnames]
    exact lines_generate tree hidentifier
  · rw [← hnames]
    exact nodup_addNames (nodup_addNames List.nodup_nil)
  · refine forall_congr' fun name => ?_
    rw [← hmem]
    exact forall_congr' fun hname => and_iff_right (hlegal name hname)
  · rw [List.filter_eq_self]
    refine forall_congr' fun name => ?_
    rw [← hmem, decide_eq_true_iff]
  · intro node above name args hstands hkind habove
    have hpushed : pushing (.ofNode node contract.template) (mixinHead name args) ∈
        nodeSteps contract.template node := by
      obtain ⟨kind, line, file, children, alternate⟩ := node
      obtain rfl : kind = .mixin name args := hkind
      exact List.mem_cons_self
    refine shows_of_mem_steps rfl ?_
    rw [programSteps]
    refine List.mem_append_left _ (List.mem_append_right _ (mem_nodesSteps_of_stands hstands
      (fun outer houter => (habove outer houter).1) (fun outer houter => (habove outer houter).2)
      hpushed))

/-- A declaration of shared locals. -/
def boundDisk : Disk :=
  ⟨[(⟨"/v"⟩, .directory),
    (⟨"/v/s.d.ts"⟩, .file ⟨.text "type S = \x7b user: U; title: T \x7d", 7, none⟩)], 9, none⟩

/-- A contract with a member that is a reserved word. -/
def boundContract : Contract :=
  { Contract.ofTemplate ⟨"/v/p.pug"⟩ with shape := .ofText "\x7b title: T; class: C \x7d".toList }

/-- The member is listed, and so no variable can be named by what is listed. -/
theorem generate_binds_class :
    SharedLocals.load boundDisk ⟨"/v/s.d.ts"⟩ "S" =
        .ok ⟨⟨"/v/s.d.ts"⟩, "S", ["user", "title"]⟩ ∧
      ⟨"  const \x7b title, class, user \x7d = locals;".toList, ⟨"/v/p.pug"⟩, 1⟩ ∈
        (generate [] boundContract (some ⟨⟨"/v/s.d.ts"⟩, "S", ["user", "title"]⟩)).lines ∧
      (¬ ∀ name ∈ ["title", "class", "user"], IsBindingName name) ∧
      mixinFunction "nav-item" = mixinFunction "nav_item" := by
  have hread : boundDisk.readText ⟨"/v/s.d.ts"⟩ = .ok "type S = \x7b user: U; title: T \x7d" := rfl
  have hfields : SharedLocals.fieldsOf? "type S = \x7b user: U; title: T \x7d" "S" =
      some ["user", "title"] := by decide +kernel
  have hload : SharedLocals.load boundDisk ⟨"/v/s.d.ts"⟩ "S" =
      .ok ⟨⟨"/v/s.d.ts"⟩, "S", ["user", "title"]⟩ := by
    simp only [SharedLocals.load, hread, hfields]
  obtain ⟨hlines, -, -, htaken, -, -, -, hmixin⟩ :=
    generate_binds [] boundContract (some ⟨⟨"/v/s.d.ts"⟩, "S", ["user", "title"]⟩)
      fun locals hlocals => by cases hlocals; exact ⟨_, _, _, hload⟩
  have hown : ownNames boundContract = ["title", "class"] := by decide +kernel
  have hothers : sharedNames (some ⟨⟨"/v/s.d.ts"⟩, "S", ["user", "title"]⟩) =
      ["user", "title"] := rfl
  have hnames : ["title", "class"].eraseDups ++
      (["user", "title"].filter (· ∉ ["title", "class"])).eraseDups =
        ["title", "class", "user"] := by decide +kernel
  rw [hown, hothers, hnames] at hlines htaken
  refine ⟨hload, ?_, fun hall => ?_, (hmixin "nav-item" "nav_item").mpr (by decide +kernel)⟩
  · rw [hlines]
    exact List.mem_append_right _ List.mem_cons_self
  · exact htaken.mp hall "class" (by decide) (Or.inl (by decide))

end Program

end PugContracts
