import PugContracts.Proofs.Resolution.Own
import PugContracts.Proofs.Resolution.Replay
import PugContracts.Proofs.Template.Exposed

/-!
# What a text names

The edges that a resolution records are named in the texts of the files they start at: by the first
`extends` at the top level of the text, or by an include anywhere in it (`named_of_edge`). It does
not matter where the include has got to: one in an override stands in the tree of another file when
it is followed, and it is still recorded for the file that it was written in.

The other way round, not everything that is named is recorded, even if the resolution ends with a
tree: an include in a region that is replaced is dropped, and so is one in a region that the parent
does not have. But the parent is recorded always (`edge_parent`), and without a parent every include
is, if there is nothing wrong with the text (`edge_inclusion`).
-/

namespace PugContracts.Resolution

open Template Contract

variable {α β : Type} {d : Disk} {g : DependencyGraph} {viewsRoot root path file p q : Path}
  {source : Option String} {text : String}

theorem names_normalize :
    Names viewsRoot.normalize text file path ↔ Names viewsRoot text file path := by
  constructor
  · rintro (hfirst | ⟨hwritten, hkind⟩)
    · rw [resolveTarget_normalize]
      exact .parent hfirst
    · rw [resolveTarget_normalize]
      exact .inclusion hwritten hkind
  · rintro (hfirst | ⟨hwritten, hkind⟩)
    · rw [← resolveTarget_normalize]
      exact .parent hfirst
    · rw [← resolveTarget_normalize]
      exact .inclusion hwritten hkind

/-! ### What is recorded is named -/

/-- The text that the first file is resolved with names the second one. -/
def Named (d : Disk) (viewsRoot root : Path) (source : Option String) (p q : Path) : Prop :=
  ∃ text, textOf? d root source p = some text ∧ Names viewsRoot text p q

/-- **What is recorded when a reference is followed** is named in the text it is recorded for. -/
theorem attributes_named (d : Disk) (viewsRoot : Path) (source : Option String) {root file : Path}
    {stack : List Path} (hroot : root ∈ stack) (hfile : file.normalize = file) :
    Attributes (Named d viewsRoot root source) file (plainReference d viewsRoot stack) := by
  refine attributes_of_opening hfile fun path text hmem hpath hread hnamed => ?_
  have hless : (unopened d (path :: stack)).length < (unopened d stack).length :=
    length_unopened_lt hpath hmem hread
  have htext : textOf? d root source path = some text := by
    rw [textOf?, if_neg (by rintro rfl; exact hmem hroot), hread]
    rfl
  have hbody : Attributed (Named d viewsRoot root source) path Flat
      (resolveText d viewsRoot (plainReference d viewsRoot (path :: stack)) path text) :=
    attributed_resolveText hpath
      (attributes_named d viewsRoot source (List.mem_cons_of_mem path hroot) hpath)
      fun _ hnames => ⟨text, htext, hnames⟩
  exact attributed_open hfile hpath hnamed hbody fun _ _ _ _ => Or.inr
termination_by (unopened d stack).length
decreasing_by assumption

/-- **Every edge that a resolution records is named in the text of its first file.** -/
theorem named_of_edge (h : (ofTemplate d g viewsRoot path source).2.Edge p q) :
    g.Edge p q ∨ ∃ text, textOf? d path.normalize source p = some text ∧
      Names viewsRoot text p q := by
  have hplain := (exec_plainRoot (treesOf_treeOf (d := d) viewsRoot.normalize_normalize)
    path.normalize_normalize g source).2
  rw [ofTemplate_eq, conclude_graph, ← hplain] at h
  cases htext : textOf? d path.normalize source path.normalize with
  | none =>
    obtain ⟨error, -, -, hthrow⟩ := exists_throw_of_no_text viewsRoot.normalize htext
    rw [hthrow] at h
    exact Or.inl h
  | some text =>
    rw [plainRoot_of_text htext] at h
    have hbody : Attributed (Named d viewsRoot.normalize path.normalize source) path.normalize Flat
        (resolveText d viewsRoot.normalize
          (plainReference d viewsRoot.normalize [path.normalize]) path.normalize text) :=
      attributed_resolveText path.normalize_normalize
        (attributes_named d _ source List.mem_cons_self path.normalize_normalize)
        fun _ hnames => ⟨text, htext, hnames⟩
    refine (hbody.edge _ p q h).imp_right ?_
    rintro ⟨⟨text, htext, hnames⟩, -⟩
    exact ⟨text, htext, names_normalize.mp hnames⟩

/-! ### What is recorded by a resolution with a tree -/

/-- The step takes no edge away, and if it ends with a value, the given edges are there. -/
structure Leads (edges : Path → Path → Prop) (x : Resolve α) : Prop where
  /-- No edge is taken away. -/
  grows : ∀ s p q, s.graph.Edge p q → (exec x s).2.graph.Edge p q
  /-- The given edges are there. -/
  edge : ∀ s a, (exec x s).1 = .ok a → ∀ p q, edges p q → (exec x s).2.graph.Edge p q

variable {edges more : Path → Path → Prop} {follow : Follow} {current : Path}

theorem leads_pure (a : α) (hnone : ∀ p q, ¬ edges p q) : Leads edges (pure a) :=
  ⟨fun _ _ _ => id, fun _ _ _ p q h => absurd h (hnone p q)⟩

theorem leads_throw (error : ResolveError) : Leads edges (throw error : Resolve α) := by
  refine ⟨fun _ _ _ => id, ?_⟩
  rintro _ _ ⟨⟩

theorem leads_report (errors : List TemplateError) :
    Leads (fun _ _ => False) (report errors) :=
  ⟨fun _ _ _ => id, fun _ _ _ _ _ => False.elim⟩

theorem leads_depend (hpath : path.normalize = path) :
    Leads (fun p q => p = file.normalize ∧ q = path) (depend file path) := by
  refine ⟨fun s p q h => DependencyGraph.edge_add.mpr (Or.inr h), ?_⟩
  rintro s _ - p q ⟨rfl, rfl⟩
  exact DependencyGraph.edge_add.mpr (Or.inl (by rw [hpath]))

theorem Leads.mono {x : Resolve α} (hx : Leads edges x) (h : ∀ p q, more p q → edges p q) :
    Leads more x :=
  ⟨hx.grows, fun s a hresult p q hmore => hx.edge s a hresult p q (h p q hmore)⟩

theorem Leads.bind {wanted : Path → Path → Prop} {x : Resolve α} {f : α → Resolve β}
    (hx : Leads edges x) (hf : ∀ a, Leads more (f a))
    (hwanted : ∀ p q, wanted p q → edges p q ∨ more p q) : Leads wanted (x >>= f) := by
  refine ⟨fun s p q h => edge_exec_bind (hx.grows s p q h) fun a _ s' => (hf a).grows s' p q,
    fun s b hresult p q h => ?_⟩
  obtain ⟨a, hfirst, hnext⟩ := exec_bind_eq_ok_iff.mp hresult
  rw [exec_bind_of_ok hfirst]
  rcases hwanted p q h with hold | hnew
  · exact (hf a).grows _ p q (hx.edge s a hfirst p q hold)
  · exact (hf a).edge _ b hnext p q hnew

/-- What comes first may give all the edges. -/
theorem Leads.bind_left {x : Resolve α} {f : α → Resolve β} (hx : Leads edges x)
    (hf : ∀ a, Leads (fun _ _ => False) (f a)) : Leads edges (x >>= f) :=
  hx.bind hf fun _ _ => Or.inl

/-- What comes next may give all the edges. -/
theorem Leads.bind_right {x : Resolve α} {f : α → Resolve β} (hx : Leads (fun _ _ => False) x)
    (hf : ∀ a, Leads edges (f a)) : Leads edges (x >>= f) :=
  hx.bind hf fun _ _ => Or.inr

/-- The edges of the includes of a forest that stand in the file and are not hidden. -/
def LiveEdge (viewsRoot file : Path) (nodes : List Node) (p q : Path) : Prop :=
  p = file ∧ ∃ node ∈ liveAll nodes, node.file = some file ∧
    ∃ target filter, node.kind = .inclusion target filter ∧ q = resolveTarget target file viewsRoot

/-- Following a reference after its edge was recorded takes no edge away. -/
def Grows (follow : Follow) : Prop :=
  ∀ reference path, path.normalize = path → ∀ s p q, s.graph.Edge p q →
    (exec (do depend reference.referrer path; follow reference path) s).2.graph.Edge p q

theorem grows_resolveReference (d : Disk) (viewsRoot : Path) (active : List Path) :
    Grows (resolveReference d viewsRoot active) :=
  fun reference path hpath =>
    (replays_resolveReference d d (fun _ _ => False) viewsRoot active reference path hpath).grows

theorem Grows.leads (hfollow : Grows follow) (reference : Reference)
    (hpath : path.normalize = path) :
    Leads (fun p q => p = reference.referrer.normalize ∧ q = path)
      (do depend reference.referrer path; follow reference path) := by
  refine ⟨hfollow reference path hpath, ?_⟩
  rintro s nodes - p q ⟨rfl, rfl⟩
  -- The edge is there when the reference is followed, and recording it again changes nothing.
  have hrun : ∀ s, exec (do depend reference.referrer q; follow reference q) s =
      exec (follow reference q) { s with graph := s.graph.add reference.referrer q } :=
    fun s => exec_bind_of_ok rfl
  have hadded : (s.graph.add reference.referrer q).Edge reference.referrer.normalize q.normalize :=
    DependencyGraph.edge_add.mpr (Or.inl rfl)
  have hagain := hfollow reference q hpath { s with graph := s.graph.add reference.referrer q } _ _
    hadded
  rw [hrun, DependencyGraph.add_eq_self hadded, hpath] at hagain
  rwa [hrun]

theorem liveEdge_cons {node : Node} {rest : List Node} :
    LiveEdge viewsRoot file (node :: rest) p q ↔
      LiveEdge viewsRoot file [node] p q ∨ LiveEdge viewsRoot file rest p q := by
  simp only [LiveEdge, liveAll, List.append_nil, List.mem_append, or_and_right, exists_or,
    and_or_left]

/-- The live edges of a directive are its own. -/
theorem liveEdge_of_isDirective {kind : NodeKind} {line : Nat} {origin : Option Path}
    {children alternate : List Node} (hkind : kind.isDirective = true)
    (h : LiveEdge viewsRoot file [⟨kind, line, origin, children, alternate⟩] p q) :
    p = file ∧ origin = some file ∧ ∃ target filter, kind = .inclusion target filter ∧
      q = resolveTarget target file viewsRoot := by
  obtain ⟨rfl, node, hnode, horigin, htarget⟩ := h
  rw [liveAll, Node.live, if_pos hkind, liveAll, List.append_nil, List.mem_singleton] at hnode
  subst hnode
  exact ⟨rfl, horigin, htarget⟩

/-- The live edges of any other node are those of what is nested in it. -/
theorem liveEdge_of_not_isDirective {kind : NodeKind} {line : Nat} {origin : Option Path}
    {children alternate : List Node} (hkind : kind.isDirective = false)
    (h : LiveEdge viewsRoot file [⟨kind, line, origin, children, alternate⟩] p q) :
    LiveEdge viewsRoot file alternate p q ∨ LiveEdge viewsRoot file children p q := by
  obtain ⟨hp, node, hnode, horigin, htarget⟩ := h
  rw [liveAll, Node.live, if_neg (by simp [hkind]), liveAll, List.append_nil, List.mem_cons,
    List.mem_append] at hnode
  rcases hnode with heq | hnode | hnode
  · obtain ⟨target, filter, hinclusion, -⟩ := htarget
    rw [heq] at hinclusion
    simp only at hinclusion
    rw [hinclusion] at hkind
    simp [NodeKind.isDirective] at hkind
  · exact Or.inr ⟨hp, node, hnode, horigin, htarget⟩
  · exact Or.inl ⟨hp, node, hnode, horigin, htarget⟩

theorem leads_resolveInclude (hfollow : Grows follow) (line : Nat) (target : String)
    (filter : Option String) :
    Leads (fun p q => p = file.normalize ∧ q = resolveTarget target file viewsRoot)
      (resolveInclude d viewsRoot follow file line target filter) := by
  have htarget := normalize_resolveTarget target file viewsRoot
  simp only [resolveInclude]
  by_cases hraw : (filter.isSome || !isTemplatePath (resolveTarget target file viewsRoot)) = true
  · simp only [hraw, if_true]
    refine (leads_depend htarget).bind_left fun _ => ?_
    split
    · exact leads_pure _ fun _ _ => id
    · exact leads_throw _
  · simp only [hraw]
    exact hfollow.leads ⟨.inclusion, file, line, target⟩ htarget

/-- **Rewriting nodes leads along their includes**, those aside that a directive hides. -/
theorem leads_rewriteAll (hfile : file.normalize = file) (hfollow : Grows follow)
    (nodes : List Node) :
    Leads (LiveEdge viewsRoot file nodes) (rewriteAll d viewsRoot follow current nodes) := by
  induction nodes using forest_induction with
  | nil =>
    simp only [rewriteAll]
    refine leads_pure _ ?_
    rintro p q ⟨-, node, hnode, -⟩
    simp [liveAll] at hnode
  | cons kind line origin children alternate rest hchildren halternate hrest =>
    have hnode : Leads (LiveEdge viewsRoot file [⟨kind, line, origin, children, alternate⟩])
        (rewriteNode d viewsRoot follow current ⟨kind, line, origin, children, alternate⟩) := by
      cases origin with
      | none =>
        simp only [rewriteNode]
        exact leads_throw _
      | some written =>
        cases kind using NodeKind.directiveCases with
        | inherits target =>
          simp only [rewriteNode]
          refine (leads_report _).bind_right fun _ => leads_pure _ fun p q h => ?_
          obtain ⟨-, -, _, _, hinclusion, -⟩ := liveEdge_of_isDirective rfl h
          cases hinclusion
        | inclusion target filter =>
          simp only [rewriteNode]
          refine (leads_resolveInclude hfollow line target filter).mono fun p q h => ?_
          obtain ⟨hp, horigin, _, _, hinclusion, hq⟩ := liveEdge_of_isDirective rfl h
          cases hinclusion
          cases horigin
          exact ⟨hp.trans hfile.symm, hq⟩
        | plain kind hplain =>
          simp only [RunLogic.rewriteNode_of_not_isDirective hplain]
          exact halternate.bind (fun _ => hchildren.bind
            (fun _ => leads_pure _ fun _ _ => id) fun _ _ => Or.inl)
            fun _ _ => liveEdge_of_not_isDirective hplain
    simp only [rewriteAll]
    exact hnode.bind (fun _ => hrest.bind (fun _ => leads_pure _ fun _ _ => id) fun _ _ => Or.inl)
      fun _ _ => liveEdge_cons.mp

/-! ### Whole texts -/

theorem mem_liveAll_stampAll {nodes : List Node} {node : Node} (h : node ∈ liveAll nodes) :
    ∃ stamped ∈ liveAll (stampAll file nodes), stamped.file = some file ∧
      stamped.kind = node.kind := by
  induction nodes using forest_induction with
  | nil => simp [liveAll] at h
  | cons kind line origin children alternate rest hchildren halternate hrest =>
    rw [liveAll, Node.live, List.cons_append, List.mem_cons, List.mem_append] at h
    simp only [stampAll, Node.stamp, liveAll, Node.live, List.cons_append, List.mem_cons,
      List.mem_append]
    rcases h with heq | h | h
    · exact ⟨_, Or.inl rfl, rfl, by rw [heq]⟩
    · by_cases hkind : kind.isDirective = true
      · simp [hkind] at h
      · rw [if_neg hkind, List.mem_append] at h
        rw [if_neg hkind]
        simp only [List.mem_append]
        rcases h with h | h
        · obtain ⟨stamped, hstamped, hsame⟩ := hchildren h
          exact ⟨stamped, Or.inr (Or.inl (Or.inl hstamped)), hsame⟩
        · obtain ⟨stamped, hstamped, hsame⟩ := halternate h
          exact ⟨stamped, Or.inr (Or.inl (Or.inr hstamped)), hsame⟩
    · obtain ⟨stamped, hstamped, hsame⟩ := hrest h
      exact ⟨stamped, Or.inr (Or.inr hstamped), hsame⟩

/-- The edges of the first parent of a text, and of its includes if it has no parent. -/
inductive Certain (viewsRoot file : Path) (text : String) : Path → Path → Prop
  | parent {line : Nat} {target : String} {more : List (Nat × String)}
    (first : parentDirectives (parse text).nodes = (line, target) :: more) :
    Certain viewsRoot file text file (resolveTarget target file viewsRoot)
  | inclusion {node : Node} {target : String} {filter : Option String}
    (none : parentDirectives (parse text).nodes = []) (live : node ∈ liveAll (parse text).nodes)
    (kind : node.kind = .inclusion target filter) :
    Certain viewsRoot file text file (resolveTarget target file viewsRoot)

theorem leads_resolveText (hfile : file.normalize = file) (hfollow : Grows follow) (text : String) :
    Leads (Certain viewsRoot file text) (resolveText d viewsRoot follow file text) := by
  simp only [resolveText]
  refine (leads_report _).bind_right fun _ => ?_
  split
  · next hparents =>
    rw [parentDirectives_stampAll] at hparents
    refine (leads_rewriteAll hfile hfollow _).mono fun p q h => ?_
    cases h with
    | parent first => simp [hparents] at first
    | inclusion none live kind =>
      obtain ⟨stamped, hstamped, horigin, hkind⟩ := mem_liveAll_stampAll live
      exact ⟨rfl, stamped, hstamped, horigin, _, _, hkind.trans kind, rfl⟩
  · next line target more hparents =>
    rw [parentDirectives_stampAll] at hparents
    have hinherit : Leads (Certain viewsRoot file text)
        (inherit viewsRoot follow file (stampAll file (parse text).nodes) line target) := by
      simp only [inherit, ← bind_assoc]
      refine (hfollow.leads ⟨.parent, file, line, target⟩ (normalize_resolveTarget _ _ _)).bind
        (fun _ => leads_pure _ fun _ _ => id) fun p q h => Or.inl ?_
      cases h with
      | parent first =>
        rw [hparents] at first
        cases first
        exact ⟨hfile.symm, rfl⟩
      | inclusion none => simp [hparents] at none
    exact (leads_report _).bind_right fun _ => hinherit.bind_left fun _ =>
      (leads_rewriteAll hfile hfollow _).mono fun _ _ => False.elim

/-- A resolution that reports nothing has a tree, and there is nothing wrong with the text of its
root. -/
theorem clean_of_errors_eq_nil
    (htext : textOf? d path.normalize source path.normalize = some text)
    (h : (ofTemplate d g viewsRoot path source).1.errors = []) :
    (ofTemplate d g viewsRoot path source).1.tree.isSome = true ∧ (parse text).errors = [] := by
  rw [ofTemplate_eq, conclude] at h ⊢
  split at h
  · next nodes hnodes =>
    obtain ⟨hfinished, -⟩ := finished_of_ok viewsRoot.normalize_normalize path.normalize_normalize
      hnodes
    obtain ⟨files, hperm, hfaults⟩ := hfinished.sound.faults
    refine ⟨rfl, ?_⟩
    dsimp only at h
    rw [h, eq_comm, show syntaxOf [] = [] from rfl, List.flatMap_eq_nil_iff] at hfaults
    have hroot := hfaults path.normalize (hperm.mem_iff.mpr List.mem_cons_self)
    rw [faultsOf, htext] at hroot
    exact List.map_eq_nil_iff.mp hroot
  · simp at h

/-- **A resolution with a tree records the first parent**, and all includes if there is no parent
and they are not hidden. -/
theorem edge_of_certain (htree : (ofTemplate d g viewsRoot path source).1.tree.isSome = true)
    (htext : textOf? d path.normalize source path.normalize = some text)
    (h : Certain viewsRoot path.normalize text p q) :
    (ofTemplate d g viewsRoot path source).2.Edge p q := by
  obtain ⟨nodes, hnodes⟩ := Option.isSome_iff_exists.mp htree
  rw [ofTemplate_eq, conclude_tree_eq_some_iff] at hnodes
  rw [ofTemplate_eq, conclude_graph]
  rw [resolveRoot_of_text htext] at hnodes ⊢
  refine (leads_resolveText path.normalize_normalize
    (grows_resolveReference d viewsRoot.normalize [path.normalize]) text).edge _ nodes hnodes p q ?_
  cases h with
  | parent first =>
    rw [← resolveTarget_normalize]
    exact .parent first
  | inclusion none live kind =>
    rw [← resolveTarget_normalize]
    exact .inclusion none live kind

end PugContracts.Resolution
