import PugContracts.Proofs.Resolution.Memo

/-!
# Whole resolutions

The root of a resolution is a file that is being resolved from the start and may have a text of its
own. `mirrors_root` says what the run from there comes to. Two things follow for every root: the
resolver ends as the plain one does (`exec_plainRoot`), so the trees of parents may be taken from
either (`plainTree_eq_treeOf`); and if it ends with a tree, the files in the memo are those to which
a chain of directives leads (`reached_iff`), none of them on a cycle of directives.
-/

namespace PugContracts.Resolution

open Template Contract Relation

/-! ### What is returned -/

/-- What is made of the end of a run. -/
def conclude (run : Except ResolveError (List Node) × State) : Resolution × DependencyGraph :=
  match run.1 with
  | .ok tree => (⟨some tree, run.2.errors⟩, run.2.graph)
  | .error error => (⟨none, run.2.errors ++ [error.toTemplateError]⟩, run.2.graph)

theorem ofTemplate_eq (d : Disk) (graph : DependencyGraph) (viewsRoot path : Path)
    (source : Option String) :
    ofTemplate d graph viewsRoot path source =
      conclude (exec (resolveRoot d viewsRoot.normalize path.normalize source) ⟨graph, [], []⟩) :=
  rfl

theorem plainOfTemplate_eq (d : Disk) (graph : DependencyGraph) (viewsRoot path : Path)
    (source : Option String) :
    plainOfTemplate d graph viewsRoot path source =
      conclude (exec (plainRoot d viewsRoot.normalize path.normalize source) ⟨graph, [], []⟩) :=
  rfl

@[simp] theorem conclude_graph (run : Except ResolveError (List Node) × State) :
    (conclude run).2 = run.2.graph := by
  rw [conclude]
  split <;> rfl

theorem conclude_tree_eq_some_iff {run : Except ResolveError (List Node) × State}
    {nodes : List Node} : (conclude run).1.tree = some nodes ↔ run.1 = .ok nodes := by
  rw [conclude]
  split <;> simp_all

theorem conclude_tree_eq_none_iff {run : Except ResolveError (List Node) × State} :
    (conclude run).1.tree = none ↔ ∃ error, run.1 = .error error := by
  rw [conclude]
  split <;> simp_all

/-- The tree that a file resolves to as the root of a resolution. -/
def treeOf (d : Disk) (viewsRoot file : Path) : Option (List Node) :=
  (ofTemplate d .empty viewsRoot file none).1.tree

/-- The tree that a file resolves to without a memo. -/
def plainTree (d : Disk) (viewsRoot file : Path) : Option (List Node) :=
  (plainOfTemplate d .empty viewsRoot file none).1.tree

/-! ### The root -/

section

variable {d : Disk} {viewsRoot path : Path} {source : Option String} {text : String}

/-- The text of a root is the one that is given, or else what is read. -/
theorem textOf?_root_eq_some_iff : textOf? d path source path = some text ↔
    source = some text ∨ source = none ∧ d.readText path = .ok text := by
  rw [textOf?, if_pos rfl]
  cases source with
  | some given => simp
  | none => cases d.readText path <;> simp [Except.toOption]

theorem resolveRoot_of_text (h : textOf? d path source path = some text) :
    resolveRoot d viewsRoot path source =
      resolveText d viewsRoot (resolveReference d viewsRoot [path]) path text := by
  obtain rfl | ⟨rfl, hread⟩ := textOf?_root_eq_some_iff.mp h
  · rfl
  · rw [resolveRoot, hread]

theorem plainRoot_of_text (h : textOf? d path source path = some text) :
    plainRoot d viewsRoot path source =
      resolveText d viewsRoot (plainReference d viewsRoot [path]) path text := by
  obtain rfl | ⟨rfl, hread⟩ := textOf?_root_eq_some_iff.mp h
  · rfl
  · rw [plainRoot, hread]

/-- A root without a text is refused by both resolvers in the same way. -/
theorem exists_throw_of_no_text (viewsRoot : Path) (h : textOf? d path source path = none) :
    ∃ error, (∀ text? g, Explained viewsRoot text? g error) ∧
      resolveRoot d viewsRoot path source = throw error ∧
      plainRoot d viewsRoot path source = throw error := by
  rw [textOf?, if_pos rfl] at h
  cases source with
  | some given => simp at h
  | none =>
    rw [resolveRoot, plainRoot]
    cases hread : d.readText path with
    | ok found => simp [hread, Except.toOption] at h
    | error reason => cases reason <;> refine ⟨_, ?_, rfl, rfl⟩ <;> exact fun _ _ => trivial

end

section

variable {d : Disk} {viewsRoot path : Path} {tree : Path → Option (List Node)}
  {source : Option String} {text : String}

/-- At the start only the root is being resolved. -/
theorem sound_root (hpath : path.normalize = path) (g : DependencyGraph)
    (htext : textOf? d path source path = some text) :
    Sound d viewsRoot tree (textOf? d path source) path [path]
      (State.reading ⟨g, [], []⟩ path text) where
  nodup := List.nodup_singleton path
  normal := by simpa using hpath
  stack := .singleton path
  reached := by
    intro file hfile
    rw [List.mem_singleton.mp hfile]
    exact .refl
  texts := by
    intro file hfile text hread
    rw [textOf?, if_neg (by simpa using hfile), hread]
    rfl
  settled := by
    intro entry hentry
    simp [State.reading] at hentry
  layered := trivial
  faults := by
    refine ⟨[path], by simp [State.known, State.reading], ?_⟩
    simp [State.reading, faultsOf, htext]

/-- **The run from a root with a text.** -/
theorem mirrors_root (htree : TreesOf d viewsRoot tree) (hpath : path.normalize = path)
    (g : DependencyGraph) (htext : textOf? d path source path = some text) :
    Mirrors d viewsRoot tree (textOf? d path source) path [path] ⟨g, [], []⟩
      (fun nodes s' => Everywhere (Faithful viewsRoot tree (textOf? d path source) path) nodes ∧
        ∀ reference target, Refers viewsRoot tree path text reference target → target ∈ s'.known)
      (resolveRoot d viewsRoot path source)
      fun stack => resolveText d viewsRoot (plainReference d viewsRoot stack) path text := by
  rw [resolveRoot_of_text htext]
  exact mirrors_resolveText htree htext (sound_root hpath g htext)

/-- **The resolver ends as the plain one does.** -/
theorem exec_plainRoot (htree : TreesOf d viewsRoot tree) (hpath : path.normalize = path)
    (g : DependencyGraph) (source : Option String) :
    (exec (plainRoot d viewsRoot path source) ⟨g, [], []⟩).1 =
        (exec (resolveRoot d viewsRoot path source) ⟨g, [], []⟩).1 ∧
      (exec (plainRoot d viewsRoot path source) ⟨g, [], []⟩).2.graph =
        (exec (resolveRoot d viewsRoot path source) ⟨g, [], []⟩).2.graph := by
  cases htext : textOf? d path source path with
  | none =>
    obtain ⟨error, -, hresolve, hplain⟩ := exists_throw_of_no_text viewsRoot htext
    rw [hresolve, hplain]
    exact ⟨rfl, rfl⟩
  | some text =>
    rw [plainRoot_of_text htext]
    exact (mirrors_root htree hpath g htext).plain ⟨g, [], []⟩ rfl

end

/-! ### The trees of parents -/

section

variable {d : Disk} {viewsRoot : Path}

theorem treesOf_plainTree (hroot : viewsRoot.normalize = viewsRoot) :
    TreesOf d viewsRoot (plainTree d viewsRoot) := by
  intro path text nodes hpath hread hnodes
  have htext : textOf? d path none path = some text := by
    rw [textOf?, if_pos rfl, hread]
    rfl
  rw [plainTree, plainOfTemplate_eq, conclude_tree_eq_some_iff, hroot, hpath,
    plainRoot_of_text htext]
  exact hnodes

/-- A file resolves to the same tree with a memo and without. -/
theorem plainTree_eq_treeOf (hroot : viewsRoot.normalize = viewsRoot) :
    plainTree d viewsRoot = treeOf d viewsRoot := by
  funext file
  obtain ⟨hsame, -⟩ := exec_plainRoot (d := d) (treesOf_plainTree hroot) file.normalize_normalize
    .empty none
  refine Option.ext fun nodes => ?_
  rw [plainTree, treeOf, plainOfTemplate_eq, ofTemplate_eq, conclude_tree_eq_some_iff,
    conclude_tree_eq_some_iff, hroot, hsame]

theorem treesOf_treeOf (hroot : viewsRoot.normalize = viewsRoot) :
    TreesOf d viewsRoot (treeOf d viewsRoot) := by
  rw [← plainTree_eq_treeOf hroot]
  exact treesOf_plainTree hroot

theorem treeOf_normalize (d : Disk) (viewsRoot : Path) :
    treeOf d viewsRoot.normalize = treeOf d viewsRoot := by
  funext file
  rw [treeOf, treeOf, ofTemplate_eq, ofTemplate_eq, Path.normalize_normalize]

end

/-! ### Files in layers -/

section

variable {next : Path → Path → Prop} {files : List Path} {file target : Path}

theorem Layered.nodup (h : Layered next files) : files.Nodup := by
  induction files with
  | nil => exact List.nodup_nil
  | cons first rest ih => exact List.nodup_cons.mpr ⟨h.1, ih h.2.2⟩

theorem Layered.closed (h : Layered next files) (hfile : file ∈ files) (hnext : next file target) :
    target ∈ files := by
  induction files with
  | nil => simp at hfile
  | cons first rest ih =>
    rcases List.mem_cons.mp hfile with rfl | hfile
    · exact List.mem_cons_of_mem _ (h.2.1 target hnext)
    · exact List.mem_cons_of_mem _ (ih h.2.2 hfile)

theorem Layered.closed_transGen (h : Layered next files) (hfile : file ∈ files)
    (hnext : TransGen next file target) : target ∈ files := by
  induction hnext with
  | single hnext => exact h.closed hfile hnext
  | tail _ hnext ih => exact h.closed ih hnext

/-- A file whose successors are all in layers without it is on no cycle. -/
theorem Layered.not_transGen_of_notMem (h : Layered next files) (hfile : file ∉ files)
    (hnext : ∀ target, next file target → target ∈ files) : ¬ TransGen next file file := by
  intro hcycle
  obtain ⟨second, hfirst, hback⟩ := TransGen.head'_iff.mp hcycle
  have hsecond := hnext second hfirst
  rcases reflTransGen_iff_eq_or_transGen.mp hback with rfl | hback
  · exact hfile hsecond
  · exact hfile (h.closed_transGen hsecond hback)

/-- Files in layers are on no cycle. -/
theorem Layered.not_transGen (h : Layered next files) (hfile : file ∈ files) :
    ¬ TransGen next file file := by
  induction files with
  | nil => simp at hfile
  | cons first rest ih =>
    rcases List.mem_cons.mp hfile with rfl | hfile
    · exact h.2.2.not_transGen_of_notMem h.1 h.2.1
    · exact ih h.2.2 hfile

end

/-! ### What a tree says of the files -/

section

variable {d : Disk} {viewsRoot path : Path} {tree : Path → Option (List Node)}
  {text? : Path → Option String} {s : State} {text : String}

/-- What is known at the end of a resolution with a tree: the invariant, and that everything the
root refers to is in the memo. -/
structure Finished (d : Disk) (viewsRoot : Path) (tree : Path → Option (List Node))
    (text? : Path → Option String) (root : Path) (s : State) : Prop where
  /-- The invariant. -/
  sound : Sound d viewsRoot tree text? root [root] s
  /-- What the root leads to has a tree. -/
  closed : ∀ file, Follows viewsRoot tree text? root file → file ∈ s.known

/-- The files that were read are those that a chain of directives leads to. -/
theorem Finished.reached_iff (h : Finished d viewsRoot tree text? path s) {file : Path} :
    Reached viewsRoot tree text? path file ↔ file = path ∨ file ∈ s.known := by
  constructor
  · intro hreached
    induction hreached with
    | refl => exact Or.inl rfl
    | tail _ hnext ih =>
      rcases ih with rfl | hknown
      · exact Or.inr (h.closed _ hnext)
      · exact Or.inr (h.sound.layered.closed hknown hnext)
  · rintro (rfl | hknown)
    · exact .refl
    · obtain ⟨entry, hentry, rfl⟩ := List.mem_map.mp hknown
      exact (h.sound.settled entry hentry).reached

/-- No chain of directives leads from a file that was read back to itself. -/
theorem Finished.not_transGen (h : Finished d viewsRoot tree text? path s) {file : Path}
    (hreached : Reached viewsRoot tree text? path file) :
    ¬ TransGen (Follows viewsRoot tree text?) file file := by
  rcases h.reached_iff.mp hreached with rfl | hknown
  · exact h.sound.layered.not_transGen_of_notMem (h.sound.notMem_known List.mem_cons_self)
      h.closed
  · exact h.sound.layered.not_transGen hknown

/-- **A resolution with a tree is finished**, and the nodes of the tree are those of the files that
were read. -/
theorem finished_of_ok {source : Option String} {g : DependencyGraph} {nodes : List Node}
    (hroot : viewsRoot.normalize = viewsRoot) (hpath : path.normalize = path)
    (h : (exec (resolveRoot d viewsRoot path source) ⟨g, [], []⟩).1 = .ok nodes) :
    Finished d viewsRoot (treeOf d viewsRoot) (textOf? d path source) path
        (exec (resolveRoot d viewsRoot path source) ⟨g, [], []⟩).2 ∧
      Everywhere (Faithful viewsRoot (treeOf d viewsRoot) (textOf? d path source) path) nodes := by
  cases htext : textOf? d path source path with
  | none =>
    obtain ⟨error, -, hresolve, -⟩ := exists_throw_of_no_text viewsRoot htext
    rw [hresolve] at h
    cases h
  | some text =>
    have hrun := mirrors_root (treesOf_treeOf hroot) hpath g htext
    obtain ⟨hfaithful, hclosed⟩ := hrun.value nodes h
    refine ⟨⟨hrun.sound nodes h, ?_⟩, hfaithful⟩
    rintro file ⟨text', reference, htext', hrefers⟩
    rw [htext] at htext'
    cases htext'
    exact hclosed reference file hrefers

/-- **An error that stops a resolution is justified.** -/
theorem explained_of_error {source : Option String} {g : DependencyGraph} {error : ResolveError}
    (hroot : viewsRoot.normalize = viewsRoot) (hpath : path.normalize = path)
    (h : (exec (resolveRoot d viewsRoot path source) ⟨g, [], []⟩).1 = .error error) :
    Explained viewsRoot (textOf? d path source)
      (exec (resolveRoot d viewsRoot path source) ⟨g, [], []⟩).2.graph error := by
  cases htext : textOf? d path source path with
  | none =>
    obtain ⟨known, hexplained, hresolve, -⟩ := exists_throw_of_no_text viewsRoot htext
    rw [hresolve] at h ⊢
    cases h
    exact hexplained _ _
  | some text =>
    exact (mirrors_root (treesOf_treeOf hroot) hpath g htext).explained error h

/-- A resolution only ever adds to the state that it starts from. -/
theorem extends_root {source : Option String} {g : DependencyGraph}
    (hroot : viewsRoot.normalize = viewsRoot) (hpath : path.normalize = path) :
    State.Extends ⟨g, [], []⟩ (exec (resolveRoot d viewsRoot path source) ⟨g, [], []⟩).2 := by
  cases htext : textOf? d path source path with
  | none =>
    obtain ⟨error, -, hresolve, -⟩ := exists_throw_of_no_text viewsRoot htext
    rw [hresolve]
    exact .refl _
  | some text => exact (mirrors_root (treesOf_treeOf hroot) hpath g htext).later

/-- The errors that do not stop a resolution are about syntax and about the shape of directives. -/
theorem kind_of_mem_errors {source : Option String} {g : DependencyGraph}
    (hroot : viewsRoot.normalize = viewsRoot) (hpath : path.normalize = path) :
    ∀ error ∈ (exec (resolveRoot d viewsRoot path source) ⟨g, [], []⟩).2.errors,
      error.kind = .syntaxFault ∨ error.kind = .directiveShape := by
  intro error herror
  exact ((extends_root hroot hpath).errors error herror).resolve_left (by simp)

/-- Resolving a template takes no edge away. -/
theorem edge_ofTemplate {source : Option String} {g : DependencyGraph} (viewsRoot path : Path)
    {p q : Path} (h : g.Edge p q) : (ofTemplate d g viewsRoot path source).2.Edge p q := by
  rw [ofTemplate_eq, conclude_graph]
  exact (extends_root viewsRoot.normalize_normalize path.normalize_normalize).edge h

end

end PugContracts.Resolution
