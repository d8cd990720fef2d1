import PugContracts.Proofs.Check.Fresh
import PugContracts.Proofs.Contract.Lines
import PugContracts.Proofs.Program.Layout
import PugContracts.Proofs.Resolution.Located

/-!
# Where the lines of a program come from

The map of a program is made of four parts (`lineMap_generate`): what comes before the function is
tagged as made from the contract; the head of the function and its closing brace belong to the line
of the expectation; what is between them belongs to nodes of the tree. Indentation plays no part in
this, so the map of steps is that of each step by itself (`origin_layout`).

Each of these places exists. The expectation is on a line of the template, since it was read there,
and a node of the tree is on a line of a file that was read, whatever regions and includes it has
been moved through on its way. The same is true of the errors that are found before types are
checked.

## Main results

* `from_nodesSteps`: a line that is made from a tree has the origin of one of its nodes.
* `locations_exist`: the entries of a map and the errors of a template name lines that exist.
-/

namespace PugContracts

open Template

namespace Program

variable {origin otherwise : Origin} {before after steps : List Step}

/-! ### The map of steps -/

/-- The entries that a step adds to the map. -/
def Step.origins : Step → List Origin
  | push text origin => List.replicate (splitLines text).length origin
  | indent | dedent => []

/-- The map of steps. -/
def originsOf (steps : List Step) : List Origin :=
  steps.flatMap Step.origins

/-- Indentation does not change the map. -/
theorem origin_layout (depth : Nat) (steps : List Step) :
    (layout depth steps).map Line.origin = originsOf steps := by
  induction steps generalizing depth with
  | nil => rfl
  | cons step rest ih =>
    rw [layout, List.map_append, ih, originsOf, originsOf, List.flatMap_cons]
    congr 1
    cases step with
    | push text origin =>
      simp [Step.lines, Step.origins, Function.comp_def, List.map_const']
    | indent | dedent => rfl

/-- All entries of the map of steps have a property. -/
def From (P : Origin → Prop) (steps : List Step) : Prop :=
  ∀ origin ∈ originsOf steps, P origin

variable {P Q : Origin → Prop}

theorem From.mono (h : From P steps) (himp : ∀ origin, P origin → Q origin) : From Q steps :=
  fun origin horigin => himp origin (h origin horigin)

@[simp] theorem from_nil : From P [] := by
  simp [From, originsOf]

@[simp] theorem from_append : From P (before ++ after) ↔ From P before ∧ From P after := by
  simp only [From, originsOf, List.flatMap_append, List.forall_mem_append]

@[simp] theorem from_push {text : List Char} :
    From P (.push text origin :: steps) ↔ P origin ∧ From P steps := by
  simp [From, originsOf, Step.origins, or_imp, forall_and, splitLines_ne_nil]

@[simp] theorem from_pushing {text : String} :
    From P (pushing origin text :: steps) ↔ P origin ∧ From P steps :=
  from_push

@[simp] theorem from_indent : From P (.indent :: steps) ↔ From P steps := Iff.rfl

@[simp] theorem from_dedent : From P (.dedent :: steps) ↔ From P steps := Iff.rfl

@[simp] theorem from_deeper : From P (deeper steps) ↔ From P steps := by
  simp [deeper]

@[simp] theorem from_blockSteps {head : String} :
    From P (blockSteps origin head steps) ↔ P origin ∧ From P steps := by
  rw [blockSteps, from_append, from_pushing, from_deeper, from_pushing]
  exact ⟨And.left, fun h => ⟨h, h.1, from_nil⟩⟩

theorem from_map_pushing {α : Type} (items : List α) (text : α → String) (h : P origin) :
    From P (items.map fun item => pushing origin (text item)) := by
  induction items with
  | nil => exact from_nil
  | cons item rest ih => exact from_pushing.mpr ⟨h, ih⟩

/-! ### Nodes -/

/-- What is made from a node has its origin, that of its alternate if it has one, or comes from what
is nested in it. -/
theorem from_kindSteps (kind : NodeKind) (isLeaf : Bool) {branches : Bool}
    {children alternate : List Step} (horigin : P origin)
    (hotherwise : branches = true → P otherwise) (hchildren : From P children)
    (halternate : From P alternate) :
    From P (kindSteps origin otherwise kind isLeaf branches children alternate) := by
  cases kind with
  | element name attributes spreads =>
    rw [kindSteps, from_append, from_append]
    refine ⟨⟨from_map_pushing _ _ horigin, from_map_pushing _ _ horigin⟩, ?_⟩
    split
    · exact from_nil
    · exact hchildren
  | code value buffered escaped =>
    cases buffered with
    | true => simp [kindSteps, horigin, hchildren]
    | false =>
      rw [kindSteps]
      split <;> simp [horigin, hchildren]
  | each item key collection =>
    cases branches with
    | false => simp [kindSteps, horigin, hchildren]
    | true => simp [kindSteps, horigin, hchildren, hotherwise rfl, halternate]
  | conditional test negated =>
    cases branches with
    | false => simp [kindSteps, horigin, hchildren]
    | true => simp [kindSteps, horigin, hchildren, hotherwise rfl, halternate]
  | _ => simp [kindSteps, horigin, hchildren]

/-- **What is made from a tree has the origin of one of its nodes.** -/
theorem from_nodesSteps (fallback : Path) (nodes : List Node) :
    From (fun origin => ∃ node ∈ walkAll nodes, origin = .ofNode node fallback)
      (nodesSteps fallback nodes) := by
  induction nodes using forest_induction with
  | nil => exact from_nil
  | cons kind line file children alternate rest hchildren halternate hrest =>
    simp only [walkAll, Node.walk, List.mem_append, List.mem_cons]
    rw [nodesSteps, nodeSteps, from_append]
    refine ⟨from_kindSteps kind _ ⟨_, Or.inl (Or.inl rfl), rfl⟩ (fun hbranches => ?_)
      (hchildren.mono ?_) (halternate.mono ?_), hrest.mono ?_⟩
    · cases alternate with
      | nil => simp at hbranches
      | cons first others =>
        exact ⟨first, Or.inl (Or.inr (Or.inr (mem_walkAll_of_mem List.mem_cons_self))), rfl⟩
    · rintro _ ⟨node, hnode, rfl⟩
      exact ⟨node, Or.inl (Or.inr (Or.inl hnode)), rfl⟩
    · rintro _ ⟨node, hnode, rfl⟩
      exact ⟨node, Or.inl (Or.inr (Or.inr hnode)), rfl⟩
    · rintro _ ⟨node, hnode, rfl⟩
      exact ⟨node, Or.inr hnode, rfl⟩

/-! ### The map of a program -/

/-- The place of the expectation of a contract, or the first line of the template. -/
def signatureOrigin (contract : Contract) : Origin :=
  ⟨contract.template, contract.expectsLine.getD 1⟩

/-- The steps for the head of the function: its signature and the names that are taken out of its
parameter. -/
def signatureSteps (contract : Contract) (shared : Option SharedLocals) : List Step :=
  [pushing (signatureOrigin contract)
    ("export function render(locals: " ++ localsType contract shared ++ ") \x7b"), .indent,
    pushing (signatureOrigin contract)
      ("const \x7b " ++ ", ".intercalate (localNames contract shared) ++ " \x7d = locals;")]

/-- **The parts of the map of a program.** -/
theorem lineMap_generate (tree : List Node) (contract : Contract) (shared : Option SharedLocals) :
    (generate tree contract shared).lineMap =
      originsOf ((preamble contract shared).map (pushing .contract)) ++
        originsOf (signatureSteps contract shared) ++
        originsOf (nodesSteps contract.template tree) ++ [signatureOrigin contract] := by
  have hclosing : originsOf [.dedent, pushing (signatureOrigin contract) "\x7d"] =
      [signatureOrigin contract] := rfl
  rw [lineMap, generate, origin_layout, ← hclosing]
  simp only [originsOf, ← List.flatMap_append]
  rfl

/-- The head of the function belongs to the line of the expectation. -/
theorem from_signatureSteps (contract : Contract) (shared : Option SharedLocals) :
    From (· = signatureOrigin contract) (signatureSteps contract shared) := by
  simp [signatureSteps]

end Program

/-! ### Places -/

namespace Resolution

/-- The files that a resolution has read. -/
def readFiles (d : Disk) (graph : DependencyGraph) (viewsRoot path : Path) (source : String) :
    List Path :=
  path.normalize :: (exec (resolveRoot d viewsRoot.normalize path.normalize (some source))
    ⟨graph, [], []⟩).2.known

variable {d : Disk} {graph : DependencyGraph} {viewsRoot path : Path} {source : String}

/-- The lines of the root are those of the given text. -/
theorem points_root {line : Nat} (hline : HasLine source line) :
    Points viewsRoot (textOf? d path (some source)) path path line :=
  ⟨.refl, source, by simp [textOf?], hline⟩

/-- The origin of a node of a resolved tree is a line of a file that was read. -/
theorem place_of_node {tree : List Node}
    (htree : (ofTemplate d graph viewsRoot path (some source)).1.tree = some tree) {node : Node}
    (hnode : node ∈ walkAll tree) (fallback : Path) :
    let origin := Program.Origin.ofNode node fallback
    origin.file ∈ readFiles d graph viewsRoot path source ∧
      Points viewsRoot.normalize (textOf? d path.normalize (some source)) path.normalize
        origin.file origin.line := by
  have hplaced := placed_of_tree htree node hnode
  rw [ofTemplate_eq, conclude_tree_eq_some_iff] at htree
  obtain ⟨hfinished, hfaithful⟩ :=
    finished_of_ok viewsRoot.normalize_normalize path.normalize_normalize htree
  obtain ⟨-, file, -, hfile, hreached, -⟩ := hfaithful node hnode
  rw [hfile] at hplaced
  simp only [Program.Origin.ofNode, hfile, Option.getD_some]
  exact ⟨List.mem_cons.mpr (hfinished.reached_iff.mp hreached), hplaced.points⟩

end Resolution

/-- Each error that is found before a template is resolved is on a line of the template, and so is
the expectation of its contract. -/
theorem Contract.points_of_extract (d : Disk) (before : DependencyGraph) (viewsRoot root : Path)
    (source : String) :
    let extracted := Contract.extract source root viewsRoot
    let points :=
      Resolution.Points viewsRoot.normalize (Resolution.textOf? d root (some source)) root
    (∀ error ∈ extracted.2 ++ (Checker.recordImports d before root extracted.1.imports).2,
      ∀ line ∈ error.line, points error.file line) ∧
    extracted.1.template = root ∧ points root (extracted.1.expectsLine.getD 1) := by
  intro extracted points
  obtain ⟨hlocated, htemplate, hfaults⟩ := Contract.located_extract source root viewsRoot
  refine ⟨fun error herror line hline => ?_, htemplate, Resolution.points_root ?_⟩
  · rcases List.mem_append.mp herror with herror | herror
    · obtain ⟨hfile, known, hknown, hhas⟩ := hfaults error herror
      rw [hknown] at hline
      obtain rfl := Option.some.inj hline
      rw [hfile]
      exact Resolution.points_root hhas
    · obtain ⟨record, hrecord, -, -, rfl⟩ := Checker.mem_errors_recordImports_iff.mp herror
      obtain ⟨hfile, hhas⟩ := hlocated.imports record hrecord
      obtain rfl := Option.some.inj hline
      show points record.file record.line
      rw [hfile.trans htemplate]
      exact Resolution.points_root hhas
  · cases hexpects : extracted.1.expectsLine with
    | none => exact hasLine_one source
    | some line => exact hlocated.expects line hexpects

/-! ### Main results -/

namespace Program

/-- **Every location exists.** A template is extracted and resolved. Each error that this comes to,
the missing modules included, names no line or one that exists in its file. If there is a tree, each
entry in the map of its program is the tag of the contract or a line of a file that the resolution
has read. More closely, the map starts with tags, goes on with the line of the expectation for the
head of the function, and then is the map of what is made from the tree, which has only origins of
nodes, up to the closing brace. -/
theorem locations_exist (d : Disk) (before graph : DependencyGraph) (viewsRoot path : Path)
    (source : String) (shared : Option SharedLocals) :
    let root := path.normalize
    let points :=
      Resolution.Points viewsRoot.normalize (Resolution.textOf? d root (some source)) root
    let extracted := Contract.extract source root viewsRoot
    let missing := (Checker.recordImports d before root extracted.1.imports).2
    let resolution := (Resolution.ofTemplate d graph viewsRoot path (some source)).1
    (∀ error ∈ extracted.2 ++ missing ++ resolution.errors, ∀ line ∈ error.line,
      points error.file line) ∧
    ∀ tree, resolution.tree = some tree →
      let entries := (generate tree extracted.1 shared).lineMap
      (∀ origin ∈ entries, origin = .contract ∨
        origin.file ∈ Resolution.readFiles d graph viewsRoot path source ∧
          points origin.file origin.line) ∧
      ∃ tags head body closing, entries = tags ++ head ++ body ++ [closing] ∧
        (∀ origin ∈ tags, origin = .contract) ∧
        head = originsOf (signatureSteps extracted.1 shared) ∧ (∀ origin ∈ head, origin = closing) ∧
        body = originsOf (nodesSteps root tree) ∧
        ∀ origin ∈ body, ∃ node ∈ walkAll tree, origin = .ofNode node root := by
  intro root points extracted missing resolution
  obtain ⟨herrors, htemplate, hexpects⟩ := Contract.points_of_extract d before viewsRoot root source
  refine ⟨fun error herror line hline => ?_, fun tree htree => ?_⟩
  · rcases List.mem_append.mp herror with herror | herror
    · exact herrors error herror line hline
    · exact Resolution.points_of_mem_errors herror line hline
  intro entries
  have htags : From (· = .contract) ((preamble extracted.1 shared).map (pushing .contract)) :=
    from_map_pushing _ id rfl
  have hhead := from_signatureSteps extracted.1 shared
  have hbody := from_nodesSteps extracted.1.template tree
  have hentries := lineMap_generate tree extracted.1 shared
  have hsignature : (signatureOrigin extracted.1).file ∈
        Resolution.readFiles d graph viewsRoot path source ∧
      points (signatureOrigin extracted.1).file (signatureOrigin extracted.1).line := by
    rw [signatureOrigin, htemplate]
    exact ⟨List.mem_cons_self, hexpects⟩
  refine ⟨fun origin horigin => ?_,
    ⟨_, _, _, _, hentries, htags, rfl, hhead, by rw [htemplate], htemplate ▸ hbody⟩⟩
  simp only [entries, hentries, List.mem_append, List.mem_singleton] at horigin
  rcases horigin with ((horigin | horigin) | horigin) | rfl
  · exact Or.inl (htags origin horigin)
  · exact Or.inr (hhead origin horigin ▸ hsignature)
  · obtain ⟨node, hnode, rfl⟩ := hbody origin horigin
    exact Or.inr (Resolution.place_of_node htree hnode _)
  · exact Or.inr hsignature

end Program

end PugContracts
