import PugContracts.Proofs.Resolution.Whole
import PugContracts.Proofs.Template.Numbering

/-!
# Errors of a resolution and the lines they name

A resolution may end with a tree or stop with a structural error, and in both cases it has collected
errors on the way. Each of them, wherever it was found, names a line that exists in the text of its
file, and a chain of directives leads to that file from the root (`Points`). A structural error is
moreover about a reference of which the edge is in the graph: edges are recorded before targets are
looked at, so the edge to a missing file is there too (`Stopped`).

The trees in the memo are spliced into later ones, so it is part of the invariant that their nodes
were read from files of this kind (`Good`).

## Main results

* `placed_of_tree`: the nodes of a tree are on lines that exist.
* `points_of_mem_errors`: every error with a line names one that exists.
* `stopped_of_error`: the reference on which a resolution stops is in the graph.
-/

namespace PugContracts.Resolution

open Template Contract Relation

section

variable (viewsRoot : Path) (text? : Path → Option String) (root : Path)

/-- A chain of directives leads from the root to a file. -/
def Opened (file : Path) : Prop :=
  ReflTransGen (fun referrer target => ∃ text reference, text? referrer = some text ∧
    reference.referrer = referrer ∧ Cites viewsRoot text reference target) root file

/-- A line exists in the text of a file to which a chain of directives leads. -/
def Points (file : Path) (line : Nat) : Prop :=
  Opened viewsRoot text? root file ∧ ∃ text, text? file = some text ∧ HasLine text line

/-- A node was read from the text of its file, to which a chain of directives leads. -/
def Placed (kind : NodeKind) (line : Nat) (origin : Option Path) : Prop :=
  ∃ file text, origin = some file ∧ file.normalize = file ∧ Opened viewsRoot text? root file ∧
    text? file = some text ∧
      ∃ node ∈ walkAll (parse text).nodes, node.kind = kind ∧ node.line = line

/-- What has been collected so far is in order: errors name lines that exist, and the trees that are
kept are made of nodes that were read. -/
structure Good (s : State) : Prop where
  /-- The errors name lines that exist. -/
  errors : ∀ error ∈ s.errors, ∀ line ∈ error.line, Points viewsRoot text? root error.file line
  /-- The trees that are kept are made of nodes that were read. -/
  resolved : ∀ entry ∈ s.resolved, Everywhere (Placed viewsRoot text? root) entry.2

/-- What is known of a structural error about a reference: the line of the reference exists, and
unless the error is a cycle its edge is in the graph. -/
def Stopped (g : DependencyGraph) : ResolveError → Prop
  | .missingFile referrer line? _ _ path =>
    ∃ line, line? = some line ∧ Points viewsRoot text? root referrer line ∧ g.Edge referrer path
  | .cycle referrer line _ _ => Points viewsRoot text? root referrer line
  | .missingOrigin .. => False
  | .unreadable path reference? _ =>
    ∃ referrer line, reference? = some (referrer, line) ∧
      Points viewsRoot text? root referrer line ∧ g.Edge referrer path

/-- A step keeps what was collected in order, and ends with a value as stated or stops with an error
that is known about. -/
structure Locates {α : Type} (post : α → Prop) (x : Resolve α) : Prop where
  /-- What is collected stays in order. -/
  good : ∀ s, Good viewsRoot text? root s → Good viewsRoot text? root (exec x s).2
  /-- The value is as stated. -/
  value : ∀ s, Good viewsRoot text? root s → ∀ a, (exec x s).1 = .ok a → post a
  /-- The error is known about. -/
  stop : ∀ s, Good viewsRoot text? root s → ∀ error, (exec x s).1 = .error error →
    Stopped viewsRoot text? root (exec x s).2.graph error

/-- Recording the edge of a reference and following it locates what it comes to. -/
def LocatesFollow (follow : Follow) : Prop :=
  ∀ reference path text, text? reference.referrer = some text →
    Opened viewsRoot text? root reference.referrer →
    reference.referrer.normalize = reference.referrer → Cites viewsRoot text reference path →
    Locates viewsRoot text? root (Everywhere (Placed viewsRoot text? root))
      (do depend reference.referrer path; follow reference path)

end

variable {α β : Type} {d : Disk} {viewsRoot : Path} {text? : Path → Option String}
  {root file current : Path} {follow : Follow} {s : State}

theorem Placed.points {kind : NodeKind} {line : Nat} {origin : Path}
    (h : Placed viewsRoot text? root kind line (some origin)) :
    Points viewsRoot text? root origin line := by
  obtain ⟨file, text, horigin, -, hopened, htext, node, hnode, -, rfl⟩ := h
  obtain rfl := Option.some.inj horigin
  exact ⟨hopened, text, htext, hasLine_of_mem_nodes hnode⟩

/-! ### Steps -/

theorem locates_pure {post : α → Prop} {a : α} (h : post a) :
    Locates viewsRoot text? root post (pure a) := by
  refine ⟨fun _ => id, ?_, ?_⟩
  · rintro _ _ _ ⟨⟩
    exact h
  · rintro _ _ _ ⟨⟩

theorem locates_report {errors : List TemplateError}
    (h : ∀ error ∈ errors, ∀ line ∈ error.line, Points viewsRoot text? root error.file line) :
    Locates viewsRoot text? root (fun _ => True) (report errors) := by
  refine ⟨fun s hgood => ⟨List.forall_mem_append.mpr ⟨hgood.errors, h⟩, hgood.resolved⟩,
    fun _ _ _ _ => trivial, ?_⟩
  rintro _ _ _ ⟨⟩

theorem Locates.bind {mid : α → Prop} {post : β → Prop} {x : Resolve α} {f : α → Resolve β}
    (hx : Locates viewsRoot text? root mid x)
    (hf : ∀ a, mid a → Locates viewsRoot text? root post (f a)) :
    Locates viewsRoot text? root post (x >>= f) := by
  refine ⟨fun s hgood => ?_, fun s hgood b h => ?_, fun s hgood error h => ?_⟩
  · cases hresult : (exec x s).1 with
    | error error =>
      rw [exec_bind_of_error hresult]
      exact hx.good s hgood
    | ok a =>
      rw [exec_bind_of_ok hresult]
      exact (hf a (hx.value s hgood a hresult)).good _ (hx.good s hgood)
  · obtain ⟨a, hfirst, hnext⟩ := exec_bind_eq_ok_iff.mp h
    exact (hf a (hx.value s hgood a hfirst)).value _ (hx.good s hgood) b hnext
  · cases hresult : (exec x s).1 with
    | error first =>
      rw [exec_bind_of_error hresult] at h ⊢
      cases h
      exact hx.stop s hgood _ hresult
    | ok a =>
      rw [exec_bind_of_ok hresult] at h ⊢
      exact (hf a (hx.value s hgood a hresult)).stop _ (hx.good s hgood) error h

theorem Good.depend (h : Good viewsRoot text? root s) (referrer target : Path) :
    Good viewsRoot text? root { s with graph := s.graph.add referrer target } :=
  ⟨h.errors, h.resolved⟩

/-! ### Rewriting trees -/

theorem locates_resolveInclude (hfollow : LocatesFollow viewsRoot text? root follow) {line : Nat}
    {target : String} {filter : Option String}
    (hplaced : Placed viewsRoot text? root (.inclusion target filter) line (some file)) :
    Locates viewsRoot text? root (Everywhere (Placed viewsRoot text? root))
      (resolveInclude d viewsRoot follow file line target filter) := by
  have hpoints := hplaced.points
  obtain ⟨origin, text, horigin, hnormal, hopened, htext, node, hnode, hkind, hline⟩ := hplaced
  obtain rfl := Option.some.inj horigin
  simp only [resolveInclude]
  by_cases hraw : (filter.isSome || !isTemplatePath (resolveTarget target file viewsRoot)) = true
  · simp only [hraw, if_true]
    by_cases hfile : d.isFile (resolveTarget target file viewsRoot) = true
    · simp only [hfile, if_true]
      refine ⟨fun s hgood => hgood.depend _ _, ?_, ?_⟩
      · rintro s hgood _ ⟨⟩
        exact everywhere_nil
      · rintro s hgood _ ⟨⟩
    · simp only [hfile]
      refine ⟨fun s hgood => hgood.depend _ _, ?_, ?_⟩
      · rintro s hgood _ ⟨⟩
      · rintro s hgood _ ⟨⟩
        refine ⟨line, rfl, hpoints, DependencyGraph.edge_add.mpr (Or.inl ?_)⟩
        rw [hnormal, normalize_resolveTarget]
  · obtain ⟨rfl, -⟩ :
        filter = none ∧ isTemplatePath (resolveTarget target file viewsRoot) = true := by
      simpa using hraw
    simp only [hraw]
    exact hfollow ⟨.inclusion, file, line, target⟩ _ text htext hopened hnormal
      ⟨rfl, node, hnode, hline, Or.inr ⟨rfl, hkind⟩⟩

theorem locates_rewriteAll (hfollow : LocatesFollow viewsRoot text? root follow) {nodes : List Node}
    (hnodes : Everywhere (Placed viewsRoot text? root) nodes) :
    Locates viewsRoot text? root (Everywhere (Placed viewsRoot text? root))
      (rewriteAll d viewsRoot follow current nodes) := by
  induction nodes using forest_induction with
  | nil =>
    simp only [rewriteAll]
    exact locates_pure everywhere_nil
  | cons kind line origin children alternate rest hchildren halternate hrest =>
    rw [everywhere_cons] at hnodes
    obtain ⟨hplaced, hinner, hother, hafter⟩ := hnodes
    have hnode : Locates viewsRoot text? root (Everywhere (Placed viewsRoot text? root))
        (rewriteNode d viewsRoot follow current ⟨kind, line, origin, children, alternate⟩) := by
      obtain ⟨written, -, rfl, -⟩ := id hplaced
      cases kind using NodeKind.directiveCases with
      | inherits target =>
        simp only [rewriteNode]
        refine (locates_report ?_).bind fun _ _ => locates_pure everywhere_nil
        intro error herror line hline
        rw [List.mem_singleton.mp herror] at hline ⊢
        obtain rfl := Option.some.inj hline
        exact hplaced.points
      | inclusion target filter =>
        simp only [rewriteNode]
        exact locates_resolveInclude hfollow hplaced
      | plain kind hplain =>
        simp only [RunLogic.rewriteNode_of_not_isDirective hplain]
        exact (halternate hother).bind fun _ halt => (hchildren hinner).bind fun _ hin =>
          locates_pure (everywhere_cons.mpr ⟨hplaced, hin, halt, everywhere_nil⟩)
    simp only [rewriteAll]
    exact hnode.bind fun _ hfirst => (hrest hafter).bind fun _ hmore =>
      locates_pure (everywhere_append.mpr ⟨hfirst, hmore⟩)

/-! ### Resolving texts -/

/-- Resolving the text of a file to which a chain of directives leads. -/
theorem locates_resolveText (hfollow : LocatesFollow viewsRoot text? root follow)
    (hfile : file.normalize = file) (hopened : Opened viewsRoot text? root file) {text : String}
    (htext : text? file = some text) :
    Locates viewsRoot text? root (Everywhere (Placed viewsRoot text? root))
      (resolveText d viewsRoot follow file text) := by
  have hpoints : ∀ {line}, HasLine text line → Points viewsRoot text? root file line :=
    fun hline => ⟨hopened, text, htext, hline⟩
  have hown : Everywhere (fun kind line _ => Placed viewsRoot text? root kind line (some file))
      (parse text).nodes := fun node hnode =>
    ⟨file, text, rfl, hfile, hopened, htext, node, hnode, rfl, rfl⟩
  simp only [resolveText]
  refine (locates_report ?_).bind fun _ _ => ?_
  · intro error herror line hline
    obtain ⟨fault, hfault, rfl⟩ := List.mem_map.mp herror
    obtain rfl := Option.some.inj hline
    exact hpoints (hasLine_of_mem_errors hfault)
  split
  · exact locates_rewriteAll hfollow (everywhere_stampAll.mpr hown)
  · next line target more hparents =>
    refine (locates_report ?_).bind fun _ _ => ?_
    · intro error herror other hother
      obtain ⟨repeated, hrepeated, rfl⟩ := List.mem_map.mp herror
      obtain rfl := Option.some.inj hother
      obtain ⟨directive, hdirective, rfl⟩ := List.mem_map.mp hrepeated
      have hmem : directive ∈ parentDirectives (parse text).nodes := by
        rw [← parentDirectives_stampAll file, hparents]
        exact List.mem_cons_of_mem _ hdirective
      obtain ⟨node, hnode, heq⟩ := List.mem_filterMap.mp hmem
      split at heq
      · rw [← Option.some.inj heq]
        exact hpoints (hasLine_of_mem_nodes (mem_walkAll_of_mem hnode))
      · simp at heq
    · have hparts := ChildParts.everywhere_ofNodes (P := Placed viewsRoot text? root) hown
      have hinherit : Locates viewsRoot text? root (Everywhere (Placed viewsRoot text? root))
          (inherit viewsRoot follow file (stampAll file (parse text).nodes) line target) := by
        simp only [inherit, ← bind_assoc]
        refine (hfollow ⟨.parent, file, line, target⟩ _ text htext hopened hfile
          (cites_parent hparents)).bind fun parent hparent => locates_pure ?_
        exact everywhere_append.mpr ⟨hparts.loose, everywhere_mergeAll hparts hparent⟩
      exact hinherit.bind fun _ hmerged => locates_rewriteAll hfollow hmerged

/-- A tree that is kept is taken; without one, what is done runs with the edge recorded. -/
theorem locates_lookup {reference : Reference} {path : Path} {body : Resolve (List Node)}
    (hbody : ∀ s, Good viewsRoot text? root s →
      s.graph.Edge reference.referrer.normalize path.normalize →
      Good viewsRoot text? root (exec body s).2 ∧
        (∀ a, (exec body s).1 = .ok a → Everywhere (Placed viewsRoot text? root) a) ∧
        ∀ error, (exec body s).1 = .error error →
          Stopped viewsRoot text? root (exec body s).2.graph error) :
    Locates viewsRoot text? root (Everywhere (Placed viewsRoot text? root)) (do
      depend reference.referrer path
      match (← get).resolved.lookup path with
      | some nodes => return nodes
      | none => body) := by
  have hrun : ∀ s, exec (do
      depend reference.referrer path
      match (← get).resolved.lookup path with
      | some nodes => return nodes
      | none => body) s =
      match s.resolved.lookup path with
      | some nodes => (.ok nodes, { s with graph := s.graph.add reference.referrer path })
      | none => exec body { s with graph := s.graph.add reference.referrer path } := by
    intro s
    rw [exec_bind_of_ok rfl, exec_bind_of_ok rfl]
    simp only [exec_depend, exec_get]
    cases s.resolved.lookup path <;> rfl
  have hadded : ∀ s : State,
      (s.graph.add reference.referrer path).Edge reference.referrer.normalize path.normalize :=
    fun s => DependencyGraph.edge_add.mpr (Or.inl rfl)
  refine ⟨fun s hgood => ?_, fun s hgood a h => ?_, fun s hgood error h => ?_⟩
  · rw [hrun]
    split
    · exact hgood.depend _ _
    · exact (hbody _ (hgood.depend _ _) (hadded s)).1
  · rw [hrun] at h
    split at h
    · next nodes hlookup =>
      obtain rfl := Except.ok.inj h
      obtain ⟨before, after, hsplit, -⟩ := List.lookup_eq_some_iff.mp hlookup
      exact hgood.resolved (path, nodes) (by rw [hsplit]; simp)
    · exact (hbody _ (hgood.depend _ _) (hadded s)).2.1 a h
  · rw [hrun] at h ⊢
    split at h
    · cases h
    · exact (hbody _ (hgood.depend _ _) (hadded s)).2.2 error h

/-- **Following references**, while files are being resolved that include the root. -/
theorem locates_resolveReference (d : Disk) (viewsRoot : Path) (active : List Path)
    (htexts : ∀ file, file ∉ active → ∀ text, d.readText file = .ok text → text? file = some text) :
    LocatesFollow viewsRoot text? root (resolveReference d viewsRoot active) := by
  intro reference path text htext hopened hreferrer hcites
  have hpath : path.normalize = path := by
    rw [← hcites.1]
    exact normalize_resolveTarget _ _ _
  have hpoints : Points viewsRoot text? root reference.referrer reference.line := by
    obtain ⟨-, node, hnode, hline, -⟩ := hcites
    exact ⟨hopened, text, htext, hline ▸ hasLine_of_mem_nodes hnode⟩
  by_cases hmem : path ∈ active
  · rw [resolveReference_of_mem hpath hmem]
    refine ⟨fun s hgood => hgood.depend _ _, ?_, ?_⟩
    · rintro s hgood _ ⟨⟩
    · rintro s hgood _ ⟨⟩
      exact hpoints
  · rw [resolveReference_of_notMem hpath hmem]
    refine locates_lookup fun s hgood hedge => ?_
    rw [hreferrer, hpath] at hedge
    cases hread : d.readText path with
    | error reason =>
      refine ⟨hgood, ?_, ?_⟩
      · rintro _ ⟨⟩
      · rintro _ ⟨⟩
        cases reason with
        | notFound => exact ⟨_, rfl, hpoints, hedge⟩
        | _ => exact ⟨_, _, rfl, hpoints, hedge⟩
    | ok found =>
      have hless : (unopened d (path :: active)).length < (unopened d active).length :=
        length_unopened_lt hpath hmem hread
      have hbody := locates_resolveText (d := d)
        (locates_resolveReference d viewsRoot (path :: active) fun file hfile =>
          htexts file fun h => hfile (List.mem_cons_of_mem _ h))
        hpath (hopened.tail ⟨text, reference, htext, rfl, hcites⟩) (htexts path hmem found hread)
      have hkeeps : ∀ nodes, Everywhere (Placed viewsRoot text? root) nodes →
          Locates viewsRoot text? root (Everywhere (Placed viewsRoot text? root))
            (do remember path nodes; return nodes) := by
        intro nodes hnodes
        refine ⟨fun s hgood =>
          ⟨hgood.errors, List.forall_mem_cons.mpr ⟨hnodes, hgood.resolved⟩⟩, ?_, ?_⟩
        · rintro _ _ _ ⟨⟩
          exact hnodes
        · rintro _ _ _ ⟨⟩
      have hwhole := hbody.bind hkeeps
      exact ⟨hwhole.good s hgood, hwhole.value s hgood, hwhole.stop s hgood⟩
termination_by (unopened d active).length
decreasing_by assumption

/-! ### Main results -/

/-- Resolving a root whose text is given. -/
theorem locates_resolveRoot (d : Disk) (viewsRoot : Path) {path : Path}
    (hpath : path.normalize = path) (source : String) :
    Locates viewsRoot (textOf? d path (some source)) path
      (Everywhere (Placed viewsRoot (textOf? d path (some source)) path))
      (resolveRoot d viewsRoot path (some source)) := by
  have htext : textOf? d path (some source) path = some source := by simp [textOf?]
  rw [resolveRoot_of_text htext]
  refine locates_resolveText (locates_resolveReference d viewsRoot [path] ?_) hpath .refl htext
  intro file hfile text hread
  rw [textOf?, if_neg (by simpa using hfile), hread]
  rfl

theorem good_start (g : DependencyGraph) : Good viewsRoot text? root ⟨g, [], []⟩ :=
  ⟨by simp, by simp⟩

/-- **The reference on which a resolution stops** is on a line that exists, and unless it closes a
cycle its edge is in the graph. -/
theorem stopped_of_error {path : Path} (hpath : path.normalize = path) {source : String}
    {g : DependencyGraph} {error : ResolveError}
    (h : (exec (resolveRoot d viewsRoot path (some source)) ⟨g, [], []⟩).1 = .error error) :
    Stopped viewsRoot (textOf? d path (some source)) path
      (exec (resolveRoot d viewsRoot path (some source)) ⟨g, [], []⟩).2.graph error :=
  (locates_resolveRoot d viewsRoot hpath source).stop _ (good_start g) error h

/-- **The nodes of a tree are on lines that exist**, in files to which chains of directives lead
from the root. -/
theorem placed_of_tree {d : Disk} {g : DependencyGraph} {viewsRoot path : Path} {source : String}
    {tree : List Node} (h : (ofTemplate d g viewsRoot path (some source)).1.tree = some tree) :
    Everywhere (Placed viewsRoot.normalize (textOf? d path.normalize (some source)) path.normalize)
      tree :=
  (locates_resolveRoot d viewsRoot.normalize path.normalize_normalize source).value _ (good_start g)
    tree (conclude_tree_eq_some_iff.mp h)

/-- **Every error with a line names one that exists**, in a file to which a chain of directives
leads from the root. -/
theorem points_of_mem_errors {d : Disk} {g : DependencyGraph} {viewsRoot path : Path}
    {source : String} {error : TemplateError}
    (herror : error ∈ (ofTemplate d g viewsRoot path (some source)).1.errors) :
    ∀ line ∈ error.line, Points viewsRoot.normalize (textOf? d path.normalize (some source))
      path.normalize error.file line := by
  have hgood := (locates_resolveRoot d viewsRoot.normalize path.normalize_normalize source).good _
    (good_start g)
  intro line hline
  rw [ofTemplate_eq, conclude] at herror
  split at herror
  · exact hgood.errors error herror line hline
  · next stop hstop =>
    rcases List.mem_append.mp herror with herror | herror
    · exact hgood.errors error herror line hline
    have hstopped := stopped_of_error path.normalize_normalize hstop
    rw [List.mem_singleton.mp herror] at hline ⊢
    cases stop with
    | missingFile referrer line? kind target missing =>
      obtain ⟨known, rfl, hpoints, -⟩ := hstopped
      rwa [← Option.some.inj hline]
    | cycle referrer known kind chain =>
      rwa [← Option.some.inj hline]
    | missingOrigin => exact hstopped.elim
    | unreadable file reference? reason =>
      obtain ⟨referrer, known, rfl, hpoints, -⟩ := hstopped
      rwa [← Option.some.inj hline]

end PugContracts.Resolution
