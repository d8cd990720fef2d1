import PugContracts.Proofs.Graph.Edges
import PugContracts.Proofs.Resolution.Follows
import PugContracts.Proofs.Resolution.Merge

/-!
# Reasoning about runs

A `RunLogic` is a way to speak of what happens when a step of a resolution is run from a state: a
statement that holds of the basic steps and is kept when steps are put one after the other. Beside
the step it may speak of a family of other steps, which is how two resolvers are compared.

Resolving a text is made of basic steps and of following references, so a statement of this kind
about the resolution of a text needs a proof only for the references that the text follows
(`RunLogic.resolveStamped`). The traversal of trees and the merging with the parent are dealt with
here, once.

## Implementation notes

A statement says how the state it is made at and the final state are related, so what is true of the
final state of one step can be used when the next one runs. A fact that is to be used later on has
to survive every step; `State.Extends` lists what each step leaves as it is.
-/

namespace PugContracts.Resolution

open Template Contract

/-! ### Running -/

/-- Run a step from a state. -/
def exec {α : Type} (x : Resolve α) (s : State) : Except ResolveError α × State :=
  x.run.run s

section

variable {α β : Type}

@[simp] theorem exec_pure (a : α) (s : State) : exec (pure a) s = (.ok a, s) := rfl

@[simp] theorem exec_throw (error : ResolveError) (s : State) :
    exec (throw error : Resolve α) s = (.error error, s) := rfl

@[simp] theorem exec_report (errors : List TemplateError) (s : State) :
    exec (report errors) s = (.ok (), { s with errors := s.errors ++ errors }) := rfl

@[simp] theorem exec_depend (file dependency : Path) (s : State) :
    exec (depend file dependency) s =
      (.ok (), { s with graph := s.graph.add file dependency }) := rfl

@[simp] theorem exec_remember (file : Path) (nodes : List Node) (s : State) :
    exec (remember file nodes) s =
      (.ok (), { s with resolved := (file, nodes) :: s.resolved }) := rfl

@[simp] theorem exec_get (s : State) : exec get s = (.ok s, s) := rfl

theorem exec_bind (x : Resolve α) (f : α → Resolve β) (s : State) :
    exec (x >>= f) s =
      match exec x s with
      | (.ok a, s') => exec (f a) s'
      | (.error error, s') => (.error error, s') := by
  simp only [exec, ExceptT.run, StateT.run, bind, ExceptT.bind, ExceptT.mk, StateT.bind]
  cases x s with
  | mk result s' => cases result <;> rfl

theorem exec_bind_of_ok {x : Resolve α} {f : α → Resolve β} {s : State} {a : α}
    (h : (exec x s).1 = .ok a) : exec (x >>= f) s = exec (f a) (exec x s).2 := by
  rw [exec_bind]
  cases hrun : exec x s with
  | mk result s' =>
    rw [hrun] at h
    cases h
    rfl

theorem exec_bind_of_error {x : Resolve α} {f : α → Resolve β} {s : State} {error : ResolveError}
    (h : (exec x s).1 = .error error) : exec (x >>= f) s = (.error error, (exec x s).2) := by
  rw [exec_bind]
  cases hrun : exec x s with
  | mk result s' =>
    rw [hrun] at h
    cases h
    rfl

theorem exec_bind_eq_ok_iff {x : Resolve α} {f : α → Resolve β} {s : State} {b : β} :
    (exec (x >>= f) s).1 = .ok b ↔
      ∃ a, (exec x s).1 = .ok a ∧ (exec (f a) (exec x s).2).1 = .ok b := by
  cases hresult : (exec x s).1 with
  | error error => simp [exec_bind_of_error hresult]
  | ok a => simp [exec_bind_of_ok hresult]

/-- Steps that take no edge away take none away one after the other. -/
theorem edge_exec_bind {x : Resolve α} {f : α → Resolve β} {s : State} {p q : Path}
    (hx : (exec x s).2.graph.Edge p q)
    (hf : ∀ a, (exec x s).1 = .ok a → ∀ s', s'.graph.Edge p q →
      (exec (f a) s').2.graph.Edge p q) : (exec (x >>= f) s).2.graph.Edge p q := by
  cases hresult : (exec x s).1 with
  | error error => rwa [exec_bind_of_error hresult]
  | ok a =>
    rw [exec_bind_of_ok hresult]
    exact hf a hresult _ hx

end

/-! ### What every step leaves -/

/-- A later state of a resolution: trees and edges have only been added, and the errors that have
been added are about syntax and about the shape of directives. -/
structure State.Extends (s s' : State) : Prop where
  /-- The trees that were there are kept. -/
  resolved : s.resolved <:+ s'.resolved
  /-- The edges that were there are kept. -/
  edges : s.graph.edges <+: s'.graph.edges
  /-- The new errors do not stop a resolution. -/
  errors : ∀ error ∈ s'.errors, error ∈ s.errors ∨ error.kind = .syntaxFault ∨
    error.kind = .directiveShape

namespace State.Extends

variable {s s' s'' : State}

theorem refl (s : State) : s.Extends s :=
  ⟨List.suffix_refl _, List.prefix_refl _, fun _ => Or.inl⟩

theorem trans (h : s.Extends s') (h' : s'.Extends s'') : s.Extends s'' := by
  refine ⟨h.resolved.trans h'.resolved, h.edges.trans h'.edges, fun error herror => ?_⟩
  rcases h'.errors error herror with hold | hnew
  · exact h.errors error hold
  · exact Or.inr hnew

theorem edge (h : s.Extends s') {p q : Path} (hedge : s.graph.Edge p q) : s'.graph.Edge p q :=
  h.edges.subset hedge

theorem report (s : State) {errors : List TemplateError}
    (hkind : ∀ error ∈ errors, error.kind = .syntaxFault ∨ error.kind = .directiveShape) :
    s.Extends { s with errors := s.errors ++ errors } := by
  refine ⟨List.suffix_refl _, List.prefix_refl _, fun error herror => ?_⟩
  exact (List.mem_append.mp herror).imp_right (hkind error)

theorem depend (s : State) (file dependency : Path) :
    s.Extends { s with graph := s.graph.add file dependency } :=
  ⟨List.suffix_refl _, s.graph.edges_prefix_add file dependency, fun _ => Or.inl⟩

theorem remember (s : State) (file : Path) (nodes : List Node) :
    s.Extends { s with resolved := (file, nodes) :: s.resolved } :=
  ⟨List.suffix_cons _ _, List.prefix_refl _, fun _ => Or.inl⟩

end State.Extends

/-! ### The two halves of resolving a text -/

/-- Resolve a template whose text has been read and whose nodes have been stamped. -/
def resolveStamped (d : Disk) (viewsRoot : Path) (follow : Follow) (file : Path)
    (nodes : List Node) : Resolve (List Node) :=
  match parentDirectives nodes with
  | [] => rewriteAll d viewsRoot follow file nodes
  | (line, target) :: more => do
    report (repeatedParents file line (more.map Prod.fst))
    let merged ← inherit viewsRoot follow file nodes line target
    rewriteAll d viewsRoot follow file merged

/-- A state in which the syntax errors of a text have been reported. -/
def State.reading (s : State) (file : Path) (text : String) : State :=
  { s with errors := s.errors ++ syntaxErrors file (parse text) }

theorem resolveText_eq (d : Disk) (viewsRoot : Path) (follow : Follow) (file : Path)
    (text : String) :
    resolveText d viewsRoot follow file text = (do
      report (syntaxErrors file (parse text))
      resolveStamped d viewsRoot follow file (stampAll file (parse text).nodes)) := rfl

theorem exec_resolveText (d : Disk) (viewsRoot : Path) (follow : Follow) (file : Path)
    (text : String) (s : State) :
    exec (resolveText d viewsRoot follow file text) s =
      exec (resolveStamped d viewsRoot follow file (stampAll file (parse text).nodes))
        (s.reading file text) := by
  rw [resolveText_eq]
  exact exec_bind_of_ok rfl

/-! ### Statements about runs -/

/-- A way to speak of running a step from a state, next to a family of other steps. `holds s post x
y` is the statement; `post` says what value and what state `x` ends with. -/
structure RunLogic (ι : Type) where
  /-- The statement about a step and a family. -/
  holds : {α : Type} → State → (α → State → Prop) → Resolve α → (ι → Resolve α) → Prop
  /-- It holds of a step that gives a value and does nothing. -/
  holds_pure : ∀ {α : Type} {s : State} {post : α → State → Prop} {a : α}, post a s →
    holds s post (pure a) fun _ => pure a
  /-- It is kept when steps are put one after the other. -/
  holds_bind : ∀ {α β : Type} {s : State} {mid : α → State → Prop} {post : β → State → Prop}
    {x : Resolve α} {y : ι → Resolve α} {f : α → Resolve β} {g : ι → α → Resolve β},
    holds s mid x y →
    (∀ a s', s.Extends s' → mid a s' → holds s' post (f a) fun i => g i a) →
    holds s post (x >>= f) fun i => y i >>= g i
  /-- It holds of reporting directives of a wrong shape. -/
  holds_report : ∀ {s : State} {errors : List TemplateError},
    (∀ error ∈ errors, error.kind = .directiveShape) →
    holds s (fun _ _ => True) (report errors) fun _ => report errors
  /-- It holds of recording an edge. -/
  holds_depend : ∀ {s : State} {file dependency : Path},
    holds s (fun _ _ => True) (depend file dependency) fun _ => depend file dependency
  /-- It holds of stopping since a file is missing. -/
  holds_missing : ∀ {α : Type} {s : State} {post : α → State → Prop} {referrer path : Path}
    {line : Option Nat} {kind : ReferenceKind} {target : String},
    holds s post (throw (.missingFile referrer line kind target path)) fun _ =>
      throw (.missingFile referrer line kind target path)

namespace RunLogic

variable {ι : Type} (L : RunLogic ι)

theorem mono {α : Type} {s : State} {mid post : α → State → Prop} {x : Resolve α}
    {y : ι → Resolve α} (h : L.holds s mid x y)
    (himp : ∀ a s', s.Extends s' → mid a s' → post a s') : L.holds s post x y := by
  have hbind := L.holds_bind h fun a s' hs hmid => L.holds_pure (himp a s' hs hmid)
  simpa only [bind_pure] using hbind

/-- The statement holds of recording the edge of a reference and following it: the tree is the one
known for the path, `Q` holds everywhere in it, and `K` holds of the path from then on. -/
def Call (tree : Path → Option (List Node)) (Q : NodeKind → Nat → Option Path → Prop)
    (K : Path → State → Prop) (follow : Follow) (others : ι → Follow) (s : State)
    (reference : Reference) (path : Path) : Prop :=
  L.holds s (fun nodes s' => tree path = some nodes ∧ Everywhere Q nodes ∧ K path s')
    (do depend reference.referrer path; follow reference path)
    fun i => do depend reference.referrer path; others i reference path

/-- `K` holds of the target of every include in a forest that is not hidden. -/
def Covers (viewsRoot : Path) (K : Path → State → Prop) (nodes : List Node) (s : State) : Prop :=
  ∀ node ∈ liveAll nodes, ∀ reference path, Includes viewsRoot node reference path → K path s

variable {L} {d : Disk} {viewsRoot : Path} {tree : Path → Option (List Node)}
  {Q : NodeKind → Nat → Option Path → Prop} {K : Path → State → Prop} {follow : Follow}
  {others : ι → Follow} {current file : Path} {s : State}

/-! ### Rewriting trees -/

theorem resolveInclude {line : Nat} {target : String} {filter : Option String}
    (hcall : filter = none → isTemplatePath (resolveTarget target file viewsRoot) = true →
      L.Call tree Q K follow others s ⟨.inclusion, file, line, target⟩
        (resolveTarget target file viewsRoot)) :
    L.holds s
      (fun out s' => Everywhere Q out ∧ (filter = none →
        isTemplatePath (resolveTarget target file viewsRoot) = true →
        K (resolveTarget target file viewsRoot) s'))
      (Resolution.resolveInclude d viewsRoot follow file line target filter)
      fun i => Resolution.resolveInclude d viewsRoot (others i) file line target filter := by
  simp only [Resolution.resolveInclude]
  by_cases hraw : (filter.isSome || !isTemplatePath (resolveTarget target file viewsRoot)) = true
  · have hnot :
        ¬ (filter = none ∧ isTemplatePath (resolveTarget target file viewsRoot) = true) := by
      rintro ⟨rfl, htemplate⟩
      simp [htemplate] at hraw
    simp only [hraw, if_true]
    refine L.holds_bind L.holds_depend fun _ s' _ _ => ?_
    by_cases hfile : d.isFile (resolveTarget target file viewsRoot) = true
    · simp only [hfile, if_true]
      exact L.holds_pure ⟨everywhere_nil, fun hfilter htemplate => absurd ⟨hfilter, htemplate⟩ hnot⟩
    · simp only [hfile]
      exact L.holds_missing
  · have hboth : filter = none ∧ isTemplatePath (resolveTarget target file viewsRoot) = true := by
      simpa using hraw
    simp only [hraw]
    exact L.mono (hcall hboth.1 hboth.2) fun _ _ _ ⟨_, heverywhere, hK⟩ =>
      ⟨heverywhere, fun _ _ => hK⟩

theorem rewriteNode_of_not_isDirective {kind : NodeKind} {line : Nat}
    {children alternate : List Node} (h : kind.isDirective = false) :
    Resolution.rewriteNode d viewsRoot follow current ⟨kind, line, some file, children, alternate⟩ =
      (do
        let alternate ← Resolution.rewriteAll d viewsRoot follow current alternate
        let children ← Resolution.rewriteAll d viewsRoot follow current children
        return [⟨kind, line, some file, children, alternate⟩]) := by
  cases kind <;> first | rfl | exact absurd h (by simp [NodeKind.isDirective])

theorem rewriteNode {kind : NodeKind} {line : Nat} {children alternate : List Node}
    (hK : ∀ path s s', s.Extends s' → K path s → K path s')
    (hkind : kind.isDirective = false → Q kind line (some file))
    (hcall : ∀ reference path,
      Includes viewsRoot ⟨kind, line, some file, children, alternate⟩ reference path →
      L.Call tree Q K follow others s reference path)
    (hnested : kind.isDirective = false → ∀ nodes, nodes = children ∨ nodes = alternate →
      ∀ s', s.Extends s' →
        L.holds s' (fun out s'' => Everywhere Q out ∧ Covers viewsRoot K nodes s'')
          (Resolution.rewriteAll d viewsRoot follow current nodes)
          fun i => Resolution.rewriteAll d viewsRoot (others i) current nodes) :
    L.holds s
      (fun out s' => Everywhere Q out ∧
        ∀ node ∈ Node.live ⟨kind, line, some file, children, alternate⟩, ∀ reference path,
          Includes viewsRoot node reference path → K path s')
      (Resolution.rewriteNode d viewsRoot follow current
        ⟨kind, line, some file, children, alternate⟩)
      fun i => Resolution.rewriteNode d viewsRoot (others i) current
        ⟨kind, line, some file, children, alternate⟩ := by
  have hlive : kind.isDirective = true → Node.live ⟨kind, line, some file, children, alternate⟩ =
      [⟨kind, line, some file, children, alternate⟩] := fun hdirective => by
    rw [Node.live, if_pos hdirective]
  cases kind using NodeKind.directiveCases with
  | inherits target =>
    rw [hlive rfl]
    simp only [Resolution.rewriteNode]
    refine L.holds_bind (L.holds_report ?_) fun _ s' _ _ => L.holds_pure ⟨everywhere_nil, ?_⟩
    · intro error herror
      rw [List.mem_singleton.mp herror]
      rfl
    · rintro node hnode reference path ⟨hinclusion, -, -⟩
      rw [List.mem_singleton.mp hnode] at hinclusion
      cases hinclusion
  | inclusion target filter =>
    rw [hlive rfl]
    simp only [Resolution.rewriteNode]
    refine L.mono (resolveInclude fun hfilter htemplate => hcall _ _ ?_)
      fun _ s' _ hpost => ⟨hpost.1, ?_⟩
    · rw [hfilter]
      exact .intro rfl rfl htemplate
    · rintro node hnode reference path ⟨hinclusion, horigin, htemplate⟩
      rw [List.mem_singleton.mp hnode] at hinclusion horigin
      cases hinclusion
      cases horigin
      exact hpost.2 rfl htemplate
  | plain kind hplain =>
    simp only [rewriteNode_of_not_isDirective hplain]
    refine L.holds_bind (hnested hplain alternate (Or.inr rfl) s (.refl s))
      fun out₁ s₁ h₁ hfirst => ?_
    obtain ⟨heverywhere₁, hcovers₁⟩ := hfirst
    refine L.holds_bind (hnested hplain children (Or.inl rfl) s₁ h₁)
      fun out₂ s₂ h₂ hsecond => ?_
    obtain ⟨heverywhere₂, hcovers₂⟩ := hsecond
    refine L.holds_pure ⟨?_, ?_⟩
    · rw [everywhere_cons]
      exact ⟨hkind hplain, heverywhere₂, heverywhere₁, everywhere_nil⟩
    · intro node hnode reference path hincludes
      rw [Node.live, if_neg (Bool.eq_false_iff.mp hplain), List.mem_cons, List.mem_append] at hnode
      rcases hnode with rfl | hnode | hnode
      · obtain ⟨hinclusion, -, -⟩ := hincludes
        rw [show kind = .inclusion _ none from hinclusion] at hplain
        simp [NodeKind.isDirective] at hplain
      · exact hcovers₂ node hnode reference path hincludes
      · exact hK path s₁ s₂ h₂ (hcovers₁ node hnode reference path hincludes)

/-- **Rewriting a stamped forest.** The statement holds if it holds of each include that is
followed; afterwards `K` holds of all their targets. -/
theorem rewriteAll {nodes : List Node} (hK : ∀ path s s', s.Extends s' → K path s → K path s')
    (hnodes : Everywhere (fun kind line origin => origin ≠ none ∧
      (kind.isDirective = false → Q kind line origin)) nodes)
    (hcall : ∀ s', s.Extends s' → ∀ node ∈ liveAll nodes, ∀ reference path,
      Includes viewsRoot node reference path → L.Call tree Q K follow others s' reference path) :
    L.holds s (fun out s' => Everywhere Q out ∧ Covers viewsRoot K nodes s')
      (Resolution.rewriteAll d viewsRoot follow current nodes)
      fun i => Resolution.rewriteAll d viewsRoot (others i) current nodes := by
  induction nodes using forest_induction generalizing s with
  | nil =>
    simp only [Resolution.rewriteAll]
    refine L.holds_pure ⟨everywhere_nil, fun node hnode => ?_⟩
    simp [liveAll] at hnode
  | cons kind line origin children alternate rest hchildren halternate hrest =>
    rw [everywhere_cons] at hnodes
    obtain ⟨⟨horigin, hkind⟩, hinner, hother, hafter⟩ := hnodes
    obtain ⟨file, rfl⟩ := Option.ne_none_iff_exists'.mp horigin
    simp only [Resolution.rewriteAll]
    have hself : ∀ reference path,
        Includes viewsRoot ⟨kind, line, some file, children, alternate⟩ reference path →
        L.Call tree Q K follow others s reference path := by
      refine hcall s (.refl s) _ (List.mem_append_left _ ?_)
      rw [Node.live]
      exact List.mem_cons_self
    have hnested : kind.isDirective = false → ∀ nodes, nodes = children ∨ nodes = alternate →
        ∀ node ∈ liveAll nodes,
          node ∈ liveAll (⟨kind, line, some file, children, alternate⟩ :: rest) := by
      intro hplain nodes hor node hnode
      rw [liveAll, Node.live, if_neg (by simp [hplain])]
      rcases hor with rfl | rfl <;> simp [hnode]
    refine L.holds_bind (rewriteNode hK hkind hself ?_)
      fun first s₁ h₁ hfirst => ?_
    · rintro hplain nodes (rfl | rfl) s' hs'
      · exact hchildren hinner fun s'' hs'' node hnode =>
          hcall s'' (hs'.trans hs'') node (hnested hplain _ (Or.inl rfl) node hnode)
      · exact halternate hother fun s'' hs'' node hnode =>
          hcall s'' (hs'.trans hs'') node (hnested hplain _ (Or.inr rfl) node hnode)
    · obtain ⟨heverywhere₁, hcovers₁⟩ := hfirst
      refine L.holds_bind (hrest hafter fun s'' hs'' node hnode =>
          hcall s'' (h₁.trans hs'') node (List.mem_append_right _ hnode))
        fun more s₂ h₂ hsecond => ?_
      obtain ⟨heverywhere₂, hcovers₂⟩ := hsecond
      refine L.holds_pure ⟨?_, ?_⟩
      · exact everywhere_append.mpr ⟨heverywhere₁, heverywhere₂⟩
      · intro node hnode reference path hincludes
        rcases List.mem_append.mp hnode with hnode | hnode
        · exact hK path s₁ s₂ h₂ (hcovers₁ node hnode reference path hincludes)
        · exact hcovers₂ node hnode reference path hincludes

/-! ### Resolving texts -/

section

variable {text : String}

/-- A node of the template itself, stamped with its file, or one that `Q` holds of. -/
private def Own (Q : NodeKind → Nat → Option Path → Prop) (file : Path) (text : String)
    (kind : NodeKind) (line : Nat) (origin : Option Path) : Prop :=
  (origin = some file ∧ ∃ node ∈ walkAll (parse text).nodes, node.kind = kind ∧ node.line = line) ∨
    Q kind line origin

private theorem everywhere_own :
    Everywhere (fun kind line _ => Own Q file text kind line (some file)) (parse text).nodes :=
  fun node hnode => Or.inl ⟨rfl, node, hnode, rfl, rfl⟩

/-- What a merged template includes, it includes itself: the tree of the parent has no directive. -/
private theorem cites_of_includes (hQ : ∀ kind line origin, Q kind line origin →
      kind.isDirective = false ∧ origin ≠ none)
    {nodes : List Node} (hnodes : Everywhere (Own Q file text) nodes) {node : Node}
    (hnode : node ∈ liveAll nodes) {reference : Reference} {path : Path}
    (hincludes : Includes viewsRoot node reference path) :
    reference.referrer = file ∧ Cites viewsRoot text reference path := by
  obtain ⟨hkind, horigin, -⟩ := hincludes
  rcases hnodes node (mem_walkAll_of_mem_liveAll hnode) with
    ⟨hown, written, hmem, hsame, hline⟩ | hq
  · rw [horigin] at hown
    cases hown
    exact ⟨rfl, rfl, written, hmem, hline, Or.inr ⟨rfl, hsame.trans hkind⟩⟩
  · have hplain := (hQ _ _ _ hq).1
    rw [hkind] at hplain
    simp [NodeKind.isDirective] at hplain

/-- Rewriting the nodes that a text comes to. -/
private theorem rewriteAssembled
    (hK : ∀ path s s', s.Extends s' → K path s → K path s')
    (hQ : ∀ kind line origin, Q kind line origin → kind.isDirective = false ∧ origin ≠ none)
    (hown : ∀ node ∈ walkAll (parse text).nodes, node.kind.isDirective = false →
      Q node.kind node.line (some file))
    {nodes : List Node} (hassembled : assembled? viewsRoot tree file text = some nodes)
    (hnodes : Everywhere (Own Q file text) nodes)
    (hcall : ∀ s', s.Extends s' → ∀ reference path,
      Refers viewsRoot tree file text reference path → reference.referrer = file →
      Cites viewsRoot text reference path → L.Call tree Q K follow others s' reference path) :
    L.holds s (fun out s' => Everywhere Q out ∧ Covers viewsRoot K nodes s')
      (Resolution.rewriteAll d viewsRoot follow file nodes)
      fun i => Resolution.rewriteAll d viewsRoot (others i) file nodes := by
  have hincluded : ∀ s', s.Extends s' → ∀ node ∈ liveAll nodes, ∀ reference path,
      Includes viewsRoot node reference path → L.Call tree Q K follow others s' reference path := by
    intro s' hs' node hnode reference path hincludes
    obtain ⟨hreferrer, hcites⟩ := cites_of_includes hQ hnodes hnode hincludes
    exact hcall s' hs' reference path (.inclusion hassembled hnode hincludes) hreferrer hcites
  refine rewriteAll hK (hnodes.mono ?_) hincluded
  rintro kind line origin (⟨rfl, written, hmem, rfl, rfl⟩ | hq)
  · exact ⟨by simp, hown written hmem⟩
  · exact ⟨(hQ _ _ _ hq).2, fun _ => hq⟩

/-- Merging with a parent that has been followed. -/
private theorem inherit {nodes : List Node} {line : Nat} {target : String}
    (hcall : L.Call tree Q K follow others s ⟨.parent, file, line, target⟩
      (resolveTarget target file viewsRoot)) :
    L.holds s
      (fun merged s' => K (resolveTarget target file viewsRoot) s' ∧
        ∃ parent, tree (resolveTarget target file viewsRoot) = some parent ∧ Everywhere Q parent ∧
          merged = (ChildParts.ofNodes nodes file).loose ++
            mergeAll (ChildParts.ofNodes nodes file) parent)
      (Resolution.inherit viewsRoot follow file nodes line target)
      fun i => Resolution.inherit viewsRoot (others i) file nodes line target := by
  simp only [Resolution.inherit, ← bind_assoc]
  exact L.holds_bind hcall fun parent s' _ ⟨htree, heverywhere, hpath⟩ =>
    L.holds_pure ⟨hpath, parent, htree, heverywhere, rfl⟩

/-- **Resolving a text** whose syntax errors have been reported. The statement holds if it holds of
each reference that the text follows. Afterwards `Q` holds everywhere in the tree, and `K` of every
file that the text refers to. -/
theorem resolveStamped (hK : ∀ path s s', s.Extends s' → K path s → K path s')
    (hQ : ∀ kind line origin, Q kind line origin → kind.isDirective = false ∧ origin ≠ none)
    (hown : ∀ node ∈ walkAll (parse text).nodes, node.kind.isDirective = false →
      Q node.kind node.line (some file))
    (hcall : ∀ s', s.Extends s' → ∀ reference path,
      Refers viewsRoot tree file text reference path → reference.referrer = file →
      Cites viewsRoot text reference path → L.Call tree Q K follow others s' reference path) :
    L.holds s
      (fun out s' => Everywhere Q out ∧
        ∀ reference path, Refers viewsRoot tree file text reference path → K path s')
      (Resolution.resolveStamped d viewsRoot follow file (stampAll file (parse text).nodes))
      fun i => Resolution.resolveStamped d viewsRoot (others i) file
        (stampAll file (parse text).nodes) := by
  simp only [Resolution.resolveStamped]
  have hstamped : Everywhere (Own Q file text) (stampAll file (parse text).nodes) :=
    everywhere_stampAll.mpr everywhere_own
  cases hparents : parentDirectives (stampAll file (parse text).nodes) with
  | nil =>
    have hassembled : assembled? viewsRoot tree file text =
        some (stampAll file (parse text).nodes) := by
      simp only [assembled?, hparents]
    refine L.mono (rewriteAssembled hK hQ hown hassembled hstamped hcall)
      fun out s' _ ⟨heverywhere, hcovers⟩ => ⟨heverywhere, fun reference path hrefers => ?_⟩
    cases hrefers with
    | parent first => simp [hparents] at first
    | inclusion hnodes hlive hincludes =>
      rw [hassembled] at hnodes
      cases hnodes
      exact hcovers _ hlive _ _ hincludes
  | cons first more =>
    obtain ⟨line, target⟩ := first
    refine L.holds_bind (L.holds_report ?_) fun _ s₁ h₁ _ => ?_
    · intro error herror
      obtain ⟨_, _, rfl⟩ := List.mem_map.mp herror
      rfl
    have hparent := hcall s₁ h₁ _ _ (.parent hparents) rfl (cites_parent hparents)
    refine L.holds_bind (inherit hparent)
      fun merged s₂ h₂ ⟨hpath, parent, htree, heverywhere, hmerged⟩ => ?_
    have hassembled : assembled? viewsRoot tree file text = some merged := by
      simp only [assembled?, hparents, htree, Option.map_some, hmerged]
    have hnodes : Everywhere (Own Q file text) merged := by
      have hparts := ChildParts.everywhere_ofNodes (P := Own Q file text) everywhere_own
      rw [hmerged, everywhere_append]
      exact ⟨hparts.loose, everywhere_mergeAll hparts (heverywhere.mono fun _ _ _ => Or.inr)⟩
    refine L.mono (rewriteAssembled hK hQ hown hassembled hnodes
      fun s' hs' => hcall s' ((h₁.trans h₂).trans hs'))
      fun out s₃ h₃ ⟨hout, hcovers⟩ => ⟨hout, fun reference path hrefers => ?_⟩
    cases hrefers with
    | parent first =>
      rw [hparents] at first
      cases first
      exact hK _ s₂ s₃ h₃ hpath
    | inclusion hnodes hlive hincludes =>
      rw [hassembled] at hnodes
      cases hnodes
      exact hcovers _ hlive _ _ hincludes

end

end RunLogic

end PugContracts.Resolution
