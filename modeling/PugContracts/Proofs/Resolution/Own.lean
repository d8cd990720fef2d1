import PugContracts.Proofs.Resolution.Compare
import PugContracts.Proofs.Resolution.Whole

/-!
# Edges of a file's own

In the resolution of one template other files are resolved, and their directives are recorded too.
Nothing is recorded of a file there that the file's own resolution would not record (`edge_own`). So
when the edges of a file are cleared and it is resolved again, no other template loses an edge.

This is shown for the resolver without a memo, which records the same edges. While other files are
being resolved, a file may be refused that could be entered otherwise. Such a refusal ends the
resolution, so it makes the edges fewer (`Undercuts`). And what a text of a file refers to is
recorded as an edge of this file (`Attributed`): the tree of its parent has no directive left.
-/

namespace PugContracts.Resolution

open Template Contract Relation

section

variable {α β : Type} {d : Disk} {base : Path → Path → Prop} {viewsRoot : Path}

/-! ### Fewer refusals -/

/-- The second step gives what the first one gives, and records what the first one records, up to
further edges that the first one may start with. -/
structure Undercuts (base : Path → Path → Prop) (x x' : Resolve α) : Prop where
  /-- The second step takes no edge away. -/
  grows : ∀ s p q, s.graph.Edge p q → (exec x' s).2.graph.Edge p q
  /-- The edges of the first one are edges of the second one. -/
  edge : ∀ s s', (∀ p q, s.graph.Edge p q → base p q ∨ s'.graph.Edge p q) →
    ∀ p q, (exec x s).2.graph.Edge p q → base p q ∨ (exec x' s').2.graph.Edge p q
  /-- The value of the first one is the value of the second one. -/
  value : ∀ s s' a, (exec x s).1 = .ok a → (exec x' s').1 = .ok a

theorem undercuts_pure (a : α) : Undercuts base (pure a) (pure a) :=
  ⟨fun _ _ _ => id, fun _ _ hedge => hedge, fun _ _ _ => id⟩

/-- A step that stops at once records nothing. -/
theorem undercuts_throw (error : ResolveError) {x' : Resolve α}
    (hgrows : ∀ s p q, s.graph.Edge p q → (exec x' s).2.graph.Edge p q) :
    Undercuts base (throw error) x' := by
  refine ⟨hgrows, fun s s' hedge p q h => (hedge p q h).imp_right (hgrows s' p q), ?_⟩
  rintro _ _ _ ⟨⟩

theorem undercuts_report (errors : List TemplateError) :
    Undercuts base (report errors) (report errors) :=
  ⟨fun _ _ _ => id, fun _ _ hedge => hedge, fun _ _ _ _ => rfl⟩

theorem undercuts_depend (file dependency : Path) :
    Undercuts base (depend file dependency) (depend file dependency) := by
  refine ⟨fun s p q h => DependencyGraph.edge_add.mpr (Or.inr h), fun s s' hedge p q h => ?_,
    fun _ _ _ _ => rfl⟩
  rw [exec_depend, DependencyGraph.edge_add] at h
  rw [exec_depend, DependencyGraph.edge_add]
  rcases h with heq | h
  · exact Or.inr (Or.inl heq)
  · exact (hedge p q h).imp_right Or.inr

theorem Undercuts.bind {x x' : Resolve α} {f f' : α → Resolve β} (hx : Undercuts base x x')
    (hf : ∀ a, Undercuts base (f a) (f' a)) : Undercuts base (x >>= f) (x' >>= f') := by
  have hgrows : ∀ s p q, (exec x' s).2.graph.Edge p q → (exec (x' >>= f') s).2.graph.Edge p q :=
    fun s p q h => edge_exec_bind h fun a _ s' => (hf a).grows s' p q
  refine ⟨fun s p q h => hgrows s p q (hx.grows s p q h), fun s s' hedge p q h => ?_,
    fun s s' b h => ?_⟩
  · cases hresult : (exec x s).1 with
    | error error =>
      rw [exec_bind_of_error hresult] at h
      exact (hx.edge s s' hedge p q h).imp_right (hgrows s' p q)
    | ok a =>
      rw [exec_bind_of_ok hresult] at h
      rw [exec_bind_of_ok (hx.value s s' a hresult)]
      exact (hf a).edge _ _ (hx.edge s s' hedge) p q h
  · obtain ⟨a, hfirst, hnext⟩ := exec_bind_eq_ok_iff.mp h
    exact exec_bind_eq_ok_iff.mpr ⟨a, hx.value s s' a hfirst, (hf a).value _ _ b hnext⟩

/-- Undercutting, as a comparison of resolvers. -/
def undercut (d : Disk) (base : Path → Path → Prop) : Comparison d d where
  holds x x' := Undercuts base x x'
  holds_pure := undercuts_pure
  holds_throw error := undercuts_throw error fun _ _ _ => id
  holds_report := undercuts_report
  holds_bind := Undercuts.bind
  holds_raw {file path} error _ := by
    refine (undercuts_depend file path).bind fun _ => ?_
    split
    · exact undercuts_pure _
    · exact undercuts_throw error fun _ _ _ => id

/-- **With fewer files on the stack** the plain resolver comes at least as far. -/
theorem undercuts_plainReference (d : Disk) (base : Path → Path → Prop) (viewsRoot : Path)
    {stack stack' : List Path} (hsub : stack' ⊆ stack) :
    (undercut d base).Follows (plainReference d viewsRoot stack)
      (plainReference d viewsRoot stack') := by
  intro reference path hpath
  refine (undercuts_depend _ _).bind fun _ => ?_
  by_cases hmem' : path ∈ stack'
  · rw [plainReference_of_mem hpath (hsub hmem'), plainReference_of_mem hpath hmem']
    exact undercuts_throw _ fun _ _ _ => id
  · rw [plainReference_of_notMem hpath hmem']
    have hbody : ∀ {text}, d.readText path = .ok text → ∀ {inner}, path :: stack' ⊆ inner →
        Undercuts base (resolveText d viewsRoot (plainReference d viewsRoot inner) path text)
          (resolveText d viewsRoot (plainReference d viewsRoot (path :: stack')) path text) := by
      intro text hread inner hinner
      have hless : (unopened d (path :: stack')).length < (unopened d stack').length :=
        length_unopened_lt hpath hmem' hread
      exact Comparison.resolveText (undercuts_plainReference d base viewsRoot hinner) text
    by_cases hmem : path ∈ stack
    · rw [plainReference_of_mem hpath hmem]
      refine undercuts_throw _ fun s p q h => ?_
      cases hread : d.readText path with
      | error reason => exact h
      | ok text => exact (hbody hread (List.Subset.refl _)).grows s p q h
    · rw [plainReference_of_notMem hpath hmem]
      cases hread : d.readText path with
      | error reason => exact undercuts_throw _ fun _ _ _ => id
      | ok text => exact hbody hread (List.cons_subset_cons path hsub)
termination_by (unopened d stack').length
decreasing_by assumption

/-! ### Edges by file -/

/-- A node that is no directive. -/
def Flat (nodes : List Node) : Prop :=
  Everywhere (fun kind _ _ => kind.isDirective = false) nodes

/-- A directive stands in the file, and what it includes is allowed. -/
def InFile (viewsRoot : Path) (allowed : Path → Path → Prop) (file : Path) (nodes : List Node) :
    Prop :=
  Everywhere (fun kind _ origin => kind.isDirective = true → origin = some file ∧
    ∀ target filter, kind = .inclusion target filter →
      allowed file (resolveTarget target file viewsRoot)) nodes

/-- New edges are allowed, and they start at files to which edges lead from the file. Values are as
stated. -/
structure Attributed (allowed : Path → Path → Prop) (file : Path) (post : α → Prop)
    (x : Resolve α) : Prop where
  /-- No edge is taken away. -/
  grows : ∀ s p q, s.graph.Edge p q → (exec x s).2.graph.Edge p q
  /-- Each edge is an old one, or it is allowed and reached from the file. -/
  edge : ∀ s p q, (exec x s).2.graph.Edge p q →
    s.graph.Edge p q ∨ allowed p q ∧ ReflTransGen (exec x s).2.graph.Edge file p
  /-- The value is as stated. -/
  value : ∀ s a, (exec x s).1 = .ok a → post a

variable {allowed : Path → Path → Prop} {file current : Path} {follow : Follow}

theorem attributed_pure {post : α → Prop} {a : α} (h : post a) :
    Attributed allowed file post (pure a) := by
  refine ⟨fun _ _ _ => id, fun _ _ _ => Or.inl, ?_⟩
  rintro _ _ ⟨⟩
  exact h

theorem attributed_throw (error : ResolveError) (post : α → Prop) :
    Attributed allowed file post (throw error) := by
  refine ⟨fun _ _ _ => id, fun _ _ _ => Or.inl, ?_⟩
  rintro _ _ ⟨⟩

theorem attributed_report (errors : List TemplateError) :
    Attributed allowed file (fun _ => True) (report errors) :=
  ⟨fun _ _ _ => id, fun _ _ _ => Or.inl, fun _ _ _ => trivial⟩

theorem attributed_depend (hfile : file.normalize = file) {dependency : Path}
    (hdependency : dependency.normalize = dependency) (h : allowed file dependency) :
    Attributed allowed file (fun _ => True) (depend file dependency) := by
  refine ⟨fun s p q h => DependencyGraph.edge_add.mpr (Or.inr h), fun s p q hedge => ?_,
    fun _ _ _ => trivial⟩
  rcases DependencyGraph.edge_add.mp hedge with heq | hold
  · rw [hfile, hdependency] at heq
    obtain ⟨rfl, rfl⟩ := Prod.mk.inj heq
    exact Or.inr ⟨h, .refl⟩
  · exact Or.inl hold

theorem Attributed.bind {mid : α → Prop} {post : β → Prop} {x : Resolve α} {f : α → Resolve β}
    (hx : Attributed allowed file mid x) (hf : ∀ a, mid a → Attributed allowed file post (f a)) :
    Attributed allowed file post (x >>= f) := by
  refine ⟨fun s p q h => edge_exec_bind (hx.grows s p q h) fun a hresult s' =>
    (hf a (hx.value s a hresult)).grows s' p q, fun s p q h => ?_, fun s b h => ?_⟩
  · cases hresult : (exec x s).1 with
    | error error =>
      rw [exec_bind_of_error hresult] at h ⊢
      exact hx.edge s p q h
    | ok a =>
      have hnext := hf a (hx.value s a hresult)
      rw [exec_bind_of_ok hresult] at h ⊢
      rcases hnext.edge _ p q h with hmid | hnew
      · exact (hx.edge s p q hmid).imp_right fun ⟨hallowed, hreached⟩ =>
          ⟨hallowed, ReflTransGen.mono (hnext.grows _) _ _ hreached⟩
      · exact Or.inr hnew
  · obtain ⟨a, hfirst, hnext⟩ := exec_bind_eq_ok_iff.mp h
    exact (hf a (hx.value s a hfirst)).value _ b hnext

/-- Following an allowed reference of the file right after its edge was recorded attributes edges to
the file. -/
def Attributes (allowed : Path → Path → Prop) (file : Path) (follow : Follow) : Prop :=
  ∀ reference path, reference.referrer = file → path.normalize = path → allowed file path →
    Attributed allowed file Flat (do depend reference.referrer path; follow reference path)

theorem attributed_resolveInclude (hfile : file.normalize = file)
    (hfollow : Attributes allowed file follow) (line : Nat) {target : String}
    (filter : Option String) (h : allowed file (resolveTarget target file viewsRoot)) :
    Attributed allowed file Flat (resolveInclude d viewsRoot follow file line target filter) := by
  simp only [resolveInclude]
  by_cases hraw : (filter.isSome || !isTemplatePath (resolveTarget target file viewsRoot)) = true
  · simp only [hraw, if_true]
    refine (attributed_depend hfile (normalize_resolveTarget _ _ _) h).bind fun _ _ => ?_
    split
    · exact attributed_pure everywhere_nil
    · exact attributed_throw _ _
  · simp only [hraw]
    exact hfollow ⟨.inclusion, file, line, target⟩ _ rfl (normalize_resolveTarget _ _ _) h

/-- Rewriting nodes whose directives stand in the file leaves none of them. -/
theorem attributed_rewriteAll (hfile : file.normalize = file)
    (hfollow : Attributes allowed file follow) {nodes : List Node}
    (hnodes : InFile viewsRoot allowed file nodes) :
    Attributed allowed file Flat (rewriteAll d viewsRoot follow current nodes) := by
  induction nodes using forest_induction with
  | nil =>
    simp only [rewriteAll]
    exact attributed_pure everywhere_nil
  | cons kind line origin children alternate rest hchildren halternate hrest =>
    rw [InFile, everywhere_cons] at hnodes
    obtain ⟨horigin, hinner, hother, hafter⟩ := hnodes
    have hnode : Attributed allowed file Flat
        (rewriteNode d viewsRoot follow current ⟨kind, line, origin, children, alternate⟩) := by
      cases origin with
      | none =>
        simp only [rewriteNode]
        exact attributed_throw _ _
      | some written =>
        cases kind using NodeKind.directiveCases with
        | inherits target =>
          simp only [rewriteNode]
          exact (attributed_report _).bind fun _ _ => attributed_pure everywhere_nil
        | inclusion target filter =>
          obtain ⟨hwritten, htarget⟩ := horigin rfl
          obtain rfl : written = file := Option.some.inj hwritten
          simp only [rewriteNode]
          exact attributed_resolveInclude hfile hfollow line filter (htarget target filter rfl)
        | plain kind hplain =>
          simp only [RunLogic.rewriteNode_of_not_isDirective hplain]
          refine (halternate hother).bind fun _ halt => (hchildren hinner).bind fun _ hin =>
            attributed_pure ?_
          rw [Flat, everywhere_cons]
          exact ⟨hplain, hin, halt, everywhere_nil⟩
    simp only [rewriteAll]
    exact hnode.bind fun _ hfirst => (hrest hafter).bind fun _ hmore =>
      attributed_pure (everywhere_append.mpr ⟨hfirst, hmore⟩)

/-- Resolving the text of a file attributes edges to it, if what the text names is allowed. -/
theorem attributed_resolveText (hfile : file.normalize = file)
    (hfollow : Attributes allowed file follow) {text : String}
    (hnames : ∀ path, Names viewsRoot text file path → allowed file path) :
    Attributed allowed file Flat (resolveText d viewsRoot follow file text) := by
  have hown : Everywhere (fun kind _ _ => kind.isDirective = true → some file = some file ∧
      ∀ target filter, kind = .inclusion target filter →
        allowed file (resolveTarget target file viewsRoot)) (parse text).nodes :=
    fun node hnode _ => ⟨rfl, fun _ _ hkind => hnames _ (.inclusion hnode hkind)⟩
  have hstamped : InFile viewsRoot allowed file (stampAll file (parse text).nodes) :=
    everywhere_stampAll.mpr hown
  simp only [resolveText]
  refine (attributed_report _).bind fun _ _ => ?_
  split
  · exact attributed_rewriteAll hfile hfollow hstamped
  · next line target more hparents =>
    rw [parentDirectives_stampAll] at hparents
    have hinherit : Attributed allowed file (InFile viewsRoot allowed file)
        (inherit viewsRoot follow file (stampAll file (parse text).nodes) line target) := by
      simp only [inherit, ← bind_assoc]
      refine (hfollow ⟨.parent, file, line, target⟩ _ rfl (normalize_resolveTarget _ _ _)
        (hnames _ (.parent hparents))).bind fun parent hparent => attributed_pure ?_
      have hparts := ChildParts.everywhere_ofNodes
        (P := fun kind _ origin => kind.isDirective = true → origin = some file ∧
          ∀ target filter, kind = .inclusion target filter →
            allowed file (resolveTarget target file viewsRoot)) hown
      refine everywhere_append.mpr ⟨hparts.loose, everywhere_mergeAll hparts (hparent.mono ?_)⟩
      intro kind _ _ hplain hdirective
      exact absurd hdirective (by simp [hplain])
    exact (attributed_report _).bind fun _ _ => hinherit.bind fun _ hmerged =>
      attributed_rewriteAll hfile hfollow hmerged

/-- Opening a file attributes edges to the one that refers to it, if what the opened file records
anew is allowed. -/
theorem attributed_open {opened : Path → Path → Prop} {path : Path} {post : α → Prop}
    {x : Resolve α} (hfile : file.normalize = file) (hpath : path.normalize = path)
    (h : allowed file path) (hbody : Attributed opened path post x)
    (hopened : ∀ s p q, (exec x s).2.graph.Edge p q → opened p q →
      s.graph.Edge p q ∨ allowed p q) :
    Attributed allowed file post (do depend file path; x) := by
  have hrun : ∀ s, exec (do depend file path; x) s =
      exec x { s with graph := s.graph.add file path } := fun s => exec_bind_of_ok rfl
  refine ⟨fun s p q hedge => ?_, fun s p q hedge => ?_, fun s nodes hnodes => ?_⟩
  · rw [hrun]
    exact hbody.grows _ p q (DependencyGraph.edge_add.mpr (Or.inr hedge))
  · rw [hrun] at hedge ⊢
    have hfirst := hbody.grows { s with graph := s.graph.add file path } file path
      (DependencyGraph.edge_add.mpr (Or.inl (by rw [hfile, hpath])))
    have hadded : (s.graph.add file path).Edge p q → s.graph.Edge p q ∨ allowed p q ∧
        ReflTransGen (exec x { s with graph := s.graph.add file path }).2.graph.Edge file p := by
      intro hold
      rw [DependencyGraph.edge_add, hfile, hpath] at hold
      rcases hold with heq | hold
      · obtain ⟨rfl, rfl⟩ := Prod.mk.inj heq
        exact Or.inr ⟨h, .refl⟩
      · exact Or.inl hold
    rcases hbody.edge _ p q hedge with hold | ⟨hnew, hreached⟩
    · exact hadded hold
    · rcases hopened _ p q hedge hnew with hold | hallowed
      · exact hadded hold
      · exact Or.inr ⟨hallowed, hreached.head hfirst⟩
  · rw [hrun] at hnodes
    exact hbody.value _ nodes hnodes

/-- **Following a reference without a memo** attributes edges to the file, if opening any file does
that the stack allows to be opened. -/
theorem attributes_of_opening {stack : List Path} (hfile : file.normalize = file)
    (hopening : ∀ path text, path ∉ stack → path.normalize = path → d.readText path = .ok text →
      allowed file path → Attributed allowed file Flat (do
        depend file path
        resolveText d viewsRoot (plainReference d viewsRoot (path :: stack)) path text)) :
    Attributes allowed file (plainReference d viewsRoot stack) := by
  rintro reference path rfl hpath hallowed
  by_cases hmem : path ∈ stack
  · rw [plainReference_of_mem hpath hmem]
    exact (attributed_depend hfile hpath hallowed).bind fun _ _ => attributed_throw _ _
  · rw [plainReference_of_notMem hpath hmem]
    cases hread : d.readText path with
    | error reason =>
      exact (attributed_depend hfile hpath hallowed).bind fun _ _ => attributed_throw _ _
    | ok text => exact hopening path text hmem hpath hread hallowed

/-! ### The edges of a file -/

/-- The edge is recorded by the resolution of its first file. -/
def OwnEdge (d : Disk) (viewsRoot p q : Path) : Prop :=
  (exec (plainRoot d viewsRoot p none) ⟨.empty, [], []⟩).2.graph.Edge p q

/-- **What is recorded when a reference is followed** is recorded by the files' own resolutions. -/
theorem attributes_plainReference (d : Disk) (viewsRoot : Path) (stack : List Path) {file : Path}
    (hfile : file.normalize = file) :
    Attributes (fun p q => p = file ∨ OwnEdge d viewsRoot p q) file
      (plainReference d viewsRoot stack) := by
  refine attributes_of_opening hfile fun path text hmem hpath hread _ => ?_
  have hless : (unopened d (path :: stack)).length < (unopened d stack).length :=
    length_unopened_lt hpath hmem hread
  have hbody : Attributed (fun p q => p = path ∨ OwnEdge d viewsRoot p q) path Flat
      (resolveText d viewsRoot (plainReference d viewsRoot (path :: stack)) path text) :=
    attributed_resolveText hpath (attributes_plainReference d viewsRoot (path :: stack) hpath)
      fun _ _ => Or.inl rfl
  refine attributed_open hfile hpath (Or.inl rfl) hbody ?_
  rintro s p q hedge (rfl | hown)
  · -- The edges of the file that is opened here, without the files on the stack.
    have hundercuts : Undercuts s.graph.Edge
        (resolveText d viewsRoot (plainReference d viewsRoot (p :: stack)) p text)
        (resolveText d viewsRoot (plainReference d viewsRoot [p]) p text) :=
      Comparison.resolveText (undercuts_plainReference d _ viewsRoot
        (List.cons_subset_cons p (List.nil_subset stack))) text
    have htext : textOf? d p none p = some text := by
      rw [textOf?, if_pos rfl, hread]
      rfl
    refine (hundercuts.edge _ ⟨.empty, [], []⟩ (fun _ _ => Or.inl) p q hedge).imp_right
      fun hown => Or.inr ?_
    rwa [← plainRoot_of_text htext] at hown
  · exact Or.inr (Or.inr hown)
termination_by (unopened d stack).length
decreasing_by assumption

end

/-- **A resolution records nothing of a file but what the file's own resolution records**, and only
of files to which its edges lead. -/
theorem edge_own {d : Disk} {viewsRoot path p q : Path}
    (h : (ofTemplate d .empty viewsRoot path none).2.Edge p q) :
    (ofTemplate d .empty viewsRoot p none).2.Edge p q ∧
      ReflTransGen (ofTemplate d .empty viewsRoot path none).2.Edge path.normalize p := by
  have hplain : ∀ file, (ofTemplate d .empty viewsRoot file none).2 =
      (exec (plainRoot d viewsRoot.normalize file.normalize none) ⟨.empty, [], []⟩).2.graph := by
    intro file
    rw [ofTemplate_eq, conclude_graph,
      (exec_plainRoot (treesOf_treeOf viewsRoot.normalize_normalize) file.normalize_normalize .empty
        none).2]
  have hnormal : p.normalize = p := h.left_normal
  rw [hplain] at h
  rw [hplain, hplain, hnormal]
  cases htext : textOf? d path.normalize none path.normalize with
  | none =>
    obtain ⟨error, -, -, hthrow⟩ := exists_throw_of_no_text viewsRoot.normalize htext
    rw [hthrow] at h
    exact absurd h List.not_mem_nil
  | some text =>
    have hbody : Attributed (fun p q => p = path.normalize ∨ OwnEdge d viewsRoot.normalize p q)
        path.normalize Flat (plainRoot d viewsRoot.normalize path.normalize none) := by
      rw [plainRoot_of_text htext]
      exact attributed_resolveText path.normalize_normalize
        (attributes_plainReference d _ _ path.normalize_normalize) fun _ _ => Or.inl rfl
    rcases hbody.edge _ p q h with hold | ⟨rfl | hown, hreached⟩
    · exact absurd hold List.not_mem_nil
    · exact ⟨h, hreached⟩
    · exact ⟨hown, hreached⟩

end PugContracts.Resolution
