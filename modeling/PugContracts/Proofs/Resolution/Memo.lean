import Mathlib.Data.List.Chain
import Mathlib.Data.List.Nodup
import PugContracts.Proofs.Resolution.Plain
import PugContracts.Proofs.Resolution.Run

/-!
# What the memo may hold

A tree that was resolved once is used again under another stack of files that are being resolved.
This is right as the tree does not depend on the stack: whatever the stack is, as long as it holds
none of the files in the memo, the plain resolver comes to the same tree and records no edge that is
not there (`Repeats`). `Sound` says this of the whole memo, together with what is needed to keep it:
the files in the memo are closed under following directives, each before those that lead to it.

The logic `mirror` runs the resolver next to plain resolvers with any stack. Its main statement,
`mirrors_reference`, is an induction on the files that can still be opened; each step is
`RunLogic.resolveText` for the file that is opened.

## Main definitions

* `Repeats` — a step gives a value from every state and adds nothing to a graph that is large enough
* `Sound` — the invariant of the state while files are being resolved
* `CycleReport` — what a cycle error says about the graph and the texts
-/

namespace PugContracts.Resolution

open Template Contract Relation

/-- The files with a tree. -/
def State.known (s : State) : List Path :=
  s.resolved.map Prod.fst

theorem State.Extends.known {s s' : State} (h : s.Extends s') : s.known ⊆ s'.known :=
  List.map_subset _ h.resolved.subset

/-! ### Steps that can be repeated -/

/-- From every state the step gives the value, and it adds no edge to a graph with these edges. -/
def Repeats {α : Type} (x : Resolve α) (a : α) (edges : List (Path × Path)) : Prop :=
  ∀ s, (exec x s).1 = .ok a ∧ (edges ⊆ s.graph.edges → (exec x s).2.graph = s.graph)

section

variable {α β : Type} {x : Resolve α} {f : α → Resolve β} {a : α} {b : β}
  {edges more : List (Path × Path)}

theorem Repeats.mono (h : Repeats x a edges) (hsub : edges ⊆ more) : Repeats x a more :=
  fun s => ⟨(h s).1, fun hmore => (h s).2 (List.Subset.trans hsub hmore)⟩

theorem repeats_pure (a : α) (edges : List (Path × Path)) : Repeats (pure a) a edges :=
  fun _ => ⟨rfl, fun _ => rfl⟩

theorem Repeats.bind (hx : Repeats x a edges) (hf : Repeats (f a) b edges) :
    Repeats (x >>= f) b edges := by
  intro s
  obtain ⟨hok, hgraph⟩ := hx s
  rw [exec_bind_of_ok hok]
  refine ⟨(hf _).1, fun hsub => ?_⟩
  rw [(hf _).2 (by rw [hgraph hsub]; exact hsub), hgraph hsub]

theorem repeats_report (errors : List TemplateError) (edges : List (Path × Path)) :
    Repeats (report errors) () edges :=
  fun _ => ⟨rfl, fun _ => rfl⟩

theorem repeats_depend {file dependency : Path}
    (h : (file.normalize, dependency.normalize) ∈ edges) :
    Repeats (depend file dependency) () edges :=
  fun _ => ⟨rfl, fun hsub => DependencyGraph.add_eq_self (hsub h)⟩

end

/-! ### Syntax errors -/

/-- The errors that are about syntax. -/
def syntaxOf (errors : List TemplateError) : List TemplateError :=
  errors.filter fun error => error.kind == .syntaxFault

/-- The syntax errors of a file with its text. -/
def faultsOf (text? : Path → Option String) (file : Path) : List TemplateError :=
  ((text? file).map fun text => syntaxErrors file (parse text)).getD []

@[simp] theorem syntaxOf_append (errors more : List TemplateError) :
    syntaxOf (errors ++ more) = syntaxOf errors ++ syntaxOf more :=
  List.filter_append ..

@[simp] theorem syntaxOf_syntaxErrors (file : Path) (parsed : ParsedTemplate) :
    syntaxOf (syntaxErrors file parsed) = syntaxErrors file parsed := by
  refine List.filter_eq_self.mpr fun error herror => ?_
  obtain ⟨_, _, rfl⟩ := List.mem_map.mp herror
  rfl

theorem syntaxOf_eq_nil {errors : List TemplateError}
    (h : ∀ error ∈ errors, error.kind = .directiveShape) : syntaxOf errors = [] := by
  refine List.filter_eq_nil_iff.mpr fun error herror => ?_
  rw [h error herror]
  decide

/-! ### The invariant -/

/-- Each file of the list comes before the files that it leads to, and is listed once. -/
def Layered (next : Path → Path → Prop) : List Path → Prop
  | [] => True
  | file :: rest => file ∉ rest ∧ (∀ target, next file target → target ∈ rest) ∧ Layered next rest

section

variable (d : Disk) (viewsRoot : Path) (tree : Path → Option (List Node))
  (text? : Path → Option String) (root : Path)

/-- A node is no directive, and it has the kind and the line of a node in the text of its file,
which a chain of directives leads to. -/
def Faithful (kind : NodeKind) (line : Nat) (origin : Option Path) : Prop :=
  kind.isDirective = false ∧ ∃ file text, origin = some file ∧
    Reached viewsRoot tree text? root file ∧ text? file = some text ∧
    ∃ node ∈ walkAll (parse text).nodes, node.kind = kind ∧ node.line = line

/-- What a cycle error says: the chain is a closed walk in the graph through different files, and
the file before the last has a directive on the line that leads to the last. -/
structure CycleReport (g : DependencyGraph) (file : Path) (line : Nat) (kind : ReferenceKind)
    (chain : List Path) : Prop where
  /-- The chain has a step. -/
  long : 2 ≤ chain.length
  /-- It ends where it starts. -/
  closed : chain.head? = chain.getLast?
  /-- It meets no other file twice. -/
  distinct : chain.dropLast.Nodup
  /-- Each file depends on the next. -/
  edges : chain.IsChain g.Edge
  /-- The last step is reported in the file that takes it. -/
  referrer : chain.dropLast.getLast? = some file
  /-- The text of that file has the directive. -/
  directive : ∃ text target path, text? file = some text ∧ chain.getLast? = some path ∧
    Cites viewsRoot text ⟨kind, file, line, target⟩ path

/-- An error that stops a resolution is justified: no node is ever without a file, and a cycle is
one. -/
def Explained (g : DependencyGraph) : ResolveError → Prop
  | .cycle file line kind chain => CycleReport viewsRoot text? g file line kind chain
  | .missingOrigin .. => False
  | _ => True

/-- What is known of a file with a tree, while the files `active` are being resolved. -/
structure Settled (active : List Path) (s : State) (file : Path) (nodes : List Node) : Prop where
  /-- It is not being resolved. -/
  fresh : file ∉ active
  /-- A chain of directives leads to it. -/
  reached : Reached viewsRoot tree text? root file
  /-- It has this tree. -/
  tree_eq : tree file = some nodes
  /-- The nodes of the tree are those of the files that were read. -/
  faithful : Everywhere (Faithful viewsRoot tree text? root) nodes
  /-- The plain resolver comes to the tree whatever the stack. -/
  repeats : ∀ stack, (∀ known ∈ s.known, known ∉ stack) → ∀ reference,
    Repeats (plainReference d viewsRoot stack reference file) nodes s.graph.edges

/-- The invariant of the state while the files `active` are being resolved, the innermost first. -/
structure Sound (active : List Path) (s : State) : Prop where
  /-- No file is entered twice. -/
  nodup : active.Nodup
  /-- Paths are normal. -/
  normal : ∀ file ∈ active, file.normalize = file
  /-- Each file was entered from the one below it. -/
  stack : active.IsChain fun inner outer => s.graph.Edge outer inner
  /-- Chains of directives lead to these files. -/
  reached : ∀ file ∈ active, Reached viewsRoot tree text? root file
  /-- Any other file has the text that is on the disk. -/
  texts : ∀ file, file ∉ active → ∀ text, d.readText file = .ok text → text? file = some text
  /-- The trees in the memo are right. -/
  settled : ∀ entry ∈ s.resolved, Settled d viewsRoot tree text? root active s entry.1 entry.2
  /-- The files in the memo are closed under following directives. -/
  layered : Layered (Follows viewsRoot tree text?) s.known
  /-- Every file that was entered has reported its syntax errors, once. -/
  faults : ∃ opened : List Path, opened.Perm (active ++ s.known) ∧
    syntaxOf s.errors = opened.flatMap (faultsOf text?)

end

section

variable {d : Disk} {viewsRoot : Path} {tree : Path → Option (List Node)}
  {text? : Path → Option String} {root : Path} {active : List Path} {s s' : State}

/-- The invariant survives new edges, and errors that are not about syntax. -/
theorem Sound.of_resolved_eq (h : Sound d viewsRoot tree text? root active s)
    (hedges : s.graph.edges ⊆ s'.graph.edges) (hsame : s'.resolved = s.resolved)
    (herrors : syntaxOf s'.errors = syntaxOf s.errors) :
    Sound d viewsRoot tree text? root active s' where
  nodup := h.nodup
  normal := h.normal
  stack := h.stack.imp fun _ _ hedge => hedges hedge
  reached := h.reached
  texts := h.texts
  settled entry hentry := by
    have hold := h.settled entry (hsame ▸ hentry)
    exact ⟨hold.fresh, hold.reached, hold.tree_eq, hold.faithful, fun stack hstack reference =>
      (hold.repeats stack (by rwa [State.known, ← hsame]) reference).mono hedges⟩
  layered := by
    rw [State.known, hsame]
    exact h.layered
  faults := by
    rw [State.known, hsame, herrors]
    exact h.faults

/-- The part of the stack from a file inwards. -/
private theorem exists_takeWhile_eq {path : Path} {active : List Path} (h : path ∈ active) :
    ∃ inner outer, active = inner ++ path :: outer ∧ active.takeWhile (· != path) = inner := by
  obtain ⟨inner, outer, rfl, hnot⟩ := List.eq_append_cons_of_mem h
  refine ⟨inner, outer, rfl, ?_⟩
  rw [List.takeWhile_append_of_pos]
  · simp
  · intro file hfile
    simpa using fun heq : file = path => hnot (heq ▸ hfile)

/-- **A reference back to a file that is being resolved closes a cycle.** -/
theorem Sound.cycleReport (h : Sound d viewsRoot tree text? root active s) {reference : Reference}
    {path : Path} {rest : List Path} {text : String} (htop : active = reference.referrer :: rest)
    (htext : text? reference.referrer = some text) (hcites : Cites viewsRoot text reference path)
    (hedge : s.graph.Edge reference.referrer path) (hmem : path ∈ active) :
    Explained viewsRoot text? s.graph (cycleError active reference path) := by
  obtain ⟨inner, outer, hactive, htake⟩ := exists_takeWhile_eq hmem
  rw [cycleError, htake]
  have hsplit : active = (inner ++ [path]) ++ outer := by rw [hactive]; simp
  have hhead : (inner ++ [path]).head? = some reference.referrer := by
    have hfirst := congrArg List.head? (htop.symm.trans hactive)
    cases inner with
    | nil => simpa using hfirst.symm
    | cons file inner => simpa using hfirst.symm
  refine ⟨by simp, ?_, ?_, ?_, ?_, text, reference.target, path, htext, List.getLast?_concat,
    hcites⟩
  · rw [List.getLast?_concat, List.reverse_append]
    rfl
  · rw [List.dropLast_concat, List.nodup_reverse]
    exact (hsplit ▸ h.nodup).of_append_left
  · rw [List.isChain_append]
    refine ⟨List.isChain_reverse.mpr (hsplit ▸ h.stack).left_of_append, .singleton path, ?_⟩
    intro last hlast first hfirst
    rw [List.getLast?_reverse, hhead] at hlast
    cases hlast
    cases hfirst
    exact hedge
  · rw [List.dropLast_concat, List.getLast?_reverse, hhead]

/-- A file without a tree is entered. -/
theorem Sound.enter (h : Sound d viewsRoot tree text? root active s) {path : Path} {text : String}
    (hfresh : path ∉ active) (hnew : path ∉ s.known) (hpath : path.normalize = path)
    (htext : text? path = some text) (hreached : Reached viewsRoot tree text? root path)
    (hedge : ∀ top ∈ active.head?, s.graph.Edge top path) :
    Sound d viewsRoot tree text? root (path :: active) (s.reading path text) where
  nodup := List.nodup_cons.mpr ⟨hfresh, h.nodup⟩
  normal := List.forall_mem_cons.mpr ⟨hpath, h.normal⟩
  stack := List.isChain_cons.mpr ⟨hedge, h.stack⟩
  reached := List.forall_mem_cons.mpr ⟨hreached, h.reached⟩
  texts file hfile := h.texts file fun hmem => hfile (List.mem_cons_of_mem _ hmem)
  settled entry hentry := by
    have hold := h.settled entry hentry
    refine ⟨?_, hold.reached, hold.tree_eq, hold.faithful, hold.repeats⟩
    intro hmem
    rcases List.mem_cons.mp hmem with heq | hmem
    · exact hnew (heq ▸ List.mem_map_of_mem hentry)
    · exact hold.fresh hmem
  layered := h.layered
  faults := by
    obtain ⟨opened, hperm, hfaults⟩ := h.faults
    refine ⟨opened ++ [path], List.perm_append_singleton .. |>.trans (hperm.cons path), ?_⟩
    rw [State.reading, syntaxOf_append, syntaxOf_syntaxErrors, hfaults, List.flatMap_append]
    simp [faultsOf, htext]

theorem Sound.notMem_known (h : Sound d viewsRoot tree text? root active s) {path : Path}
    (hpath : path ∈ active) : path ∉ s.known := by
  intro hmem
  obtain ⟨entry, hentry, rfl⟩ := List.mem_map.mp hmem
  exact (h.settled entry hentry).fresh hpath

/-- A file that was entered is left with a tree. -/
theorem Sound.leave (h : Sound d viewsRoot tree text? root active s) {path : Path}
    {nodes : List Node} {text : String} (hfresh : path ∉ active)
    (h' : Sound d viewsRoot tree text? root (path :: active) s') (hlater : s.Extends s')
    (hread : d.readText path = .ok text) (hpath : path.normalize = path)
    (hreached : Reached viewsRoot tree text? root path) (htree : tree path = some nodes)
    (hfaithful : Everywhere (Faithful viewsRoot tree text? root) nodes)
    (hrepeats : ∀ stack, (∀ known ∈ s'.known, known ∉ stack) →
      Repeats (resolveText d viewsRoot (plainReference d viewsRoot stack) path text) nodes
        s'.graph.edges)
    (hclosed : ∀ reference target, Refers viewsRoot tree path text reference target →
      target ∈ s'.known) :
    Sound d viewsRoot tree text? root active
      { s' with resolved := (path, nodes) :: s'.resolved } where
  nodup := h.nodup
  normal := h.normal
  stack := h.stack.imp fun _ _ => hlater.edge
  reached := h.reached
  texts := h.texts
  settled entry hentry := by
    rcases List.mem_cons.mp hentry with rfl | hentry
    · refine ⟨hfresh, hreached, htree, hfaithful, fun stack hstack reference => ?_⟩
      rw [plainReference_of_notMem hpath (hstack path List.mem_cons_self), hread]
      refine hrepeats (path :: stack) fun known hknown hmem => ?_
      rcases List.mem_cons.mp hmem with rfl | hmem
      · exact h'.notMem_known List.mem_cons_self hknown
      · exact hstack known (List.mem_cons_of_mem _ hknown) hmem
    · have hold := h'.settled entry hentry
      exact ⟨fun hmem => hold.fresh (List.mem_cons_of_mem _ hmem), hold.reached, hold.tree_eq,
        hold.faithful, fun stack hstack => hold.repeats stack fun known hknown =>
          hstack known (List.mem_cons_of_mem _ hknown)⟩
  layered := by
    refine ⟨h'.notMem_known List.mem_cons_self, ?_, h'.layered⟩
    rintro target ⟨text', reference, htext', hrefers⟩
    rw [h.texts path hfresh text hread] at htext'
    cases htext'
    exact hclosed reference target hrefers
  faults := by
    obtain ⟨opened, hperm, hfaults⟩ := h'.faults
    exact ⟨opened, hperm.trans List.perm_middle.symm, hfaults⟩

/-! ### The resolver and the plain resolvers side by side -/

/-- How a step that is run from a state while the files `active` are being resolved compares with
the plain steps, one for each stack. -/
structure Mirrors {α : Type} (d : Disk) (viewsRoot : Path) (tree : Path → Option (List Node))
    (text? : Path → Option String) (root : Path) (active : List Path) (s : State)
    (post : α → State → Prop) (x : Resolve α) (plain : List Path → Resolve α) : Prop where
  /-- The invariant is kept unless the resolution stops. -/
  sound : ∀ a, (exec x s).1 = .ok a → Sound d viewsRoot tree text? root active (exec x s).2
  /-- Nothing is lost. -/
  later : s.Extends (exec x s).2
  /-- The value and the final state are as stated. -/
  value : ∀ a, (exec x s).1 = .ok a → post a (exec x s).2
  /-- A value can be had again with any stack that holds no known file. -/
  repeats : ∀ a, (exec x s).1 = .ok a → ∀ stack, (∀ known ∈ (exec x s).2.known, known ∉ stack) →
    Repeats (plain stack) a (exec x s).2.graph.edges
  /-- An error is justified. -/
  explained : ∀ error, (exec x s).1 = .error error →
    Explained viewsRoot text? (exec x s).2.graph error
  /-- With the same stack and the same graph the plain step ends in the same way. -/
  plain : ∀ t, t.graph = s.graph →
    (exec (plain active) t).1 = (exec x s).1 ∧
      (exec (plain active) t).2.graph = (exec x s).2.graph

section

variable {α β : Type} {post : α → State → Prop} {x : Resolve α} {plain : List Path → Resolve α}

theorem Mirrors.of_ok {a : α} (hx : exec x s = (.ok a, s'))
    (hsound : Sound d viewsRoot tree text? root active s') (hlater : s.Extends s')
    (hpost : post a s')
    (hrepeats : ∀ stack, (∀ known ∈ s'.known, known ∉ stack) →
      Repeats (plain stack) a s'.graph.edges)
    (hplain : ∀ t, t.graph = s.graph →
      (exec (plain active) t).1 = .ok a ∧ (exec (plain active) t).2.graph = s'.graph) :
    Mirrors d viewsRoot tree text? root active s post x plain := by
  constructor <;> rw [hx]
  · exact fun _ _ => hsound
  · exact hlater
  · rintro _ ⟨⟩
    exact hpost
  · rintro _ ⟨⟩
    exact hrepeats
  · rintro _ ⟨⟩
  · exact hplain

theorem Mirrors.of_error {error : ResolveError} (hx : exec x s = (.error error, s'))
    (hlater : s.Extends s') (hexplained : Explained viewsRoot text? s'.graph error)
    (hplain : ∀ t, t.graph = s.graph →
      (exec (plain active) t).1 = .error error ∧ (exec (plain active) t).2.graph = s'.graph) :
    Mirrors d viewsRoot tree text? root active s post x plain := by
  constructor <;> rw [hx]
  · rintro _ ⟨⟩
  · exact hlater
  · rintro _ ⟨⟩
  · rintro _ ⟨⟩
  · rintro _ ⟨⟩
    exact hexplained
  · exact hplain

/-- Only the run from the state matters. -/
theorem Mirrors.congr {x' : Resolve α} (hx : exec x s = exec x' s)
    (h : Mirrors d viewsRoot tree text? root active s post x' plain) :
    Mirrors d viewsRoot tree text? root active s post x plain := by
  constructor <;> rw [hx]
  · exact h.sound
  · exact h.later
  · exact h.value
  · exact h.repeats
  · exact h.explained
  · exact h.plain

theorem Mirrors.bind {mid : α → State → Prop} {post : β → State → Prop} {f : α → Resolve β}
    {plainNext : List Path → α → Resolve β}
    (hx : Mirrors d viewsRoot tree text? root active s mid x plain)
    (hf : ∀ a s', s.Extends s' → mid a s' → Sound d viewsRoot tree text? root active s' →
      Mirrors d viewsRoot tree text? root active s' post (f a) fun stack => plainNext stack a) :
    Mirrors d viewsRoot tree text? root active s post (x >>= f)
      fun stack => plain stack >>= plainNext stack := by
  cases hresult : (exec x s).1 with
  | error error =>
    refine .of_error (exec_bind_of_error hresult) hx.later (hx.explained error hresult)
      fun t ht => ?_
    obtain ⟨hsame, hgraph⟩ := hx.plain t ht
    rw [exec_bind_of_error (hsame.trans hresult)]
    exact ⟨rfl, hgraph⟩
  | ok a =>
    have hnext := hf a _ hx.later (hx.value a hresult) (hx.sound a hresult)
    constructor <;> rw [exec_bind_of_ok hresult]
    · exact hnext.sound
    · exact hx.later.trans hnext.later
    · exact hnext.value
    · intro b hb stack hstack
      have hfirst := hx.repeats a hresult stack fun known hknown =>
        hstack known (hnext.later.known hknown)
      exact (hfirst.mono hnext.later.edges.subset).bind (hnext.repeats b hb stack hstack)
    · exact hnext.explained
    · intro t ht
      obtain ⟨hsame, hgraph⟩ := hx.plain t ht
      rw [exec_bind_of_ok (hsame.trans hresult)]
      exact hnext.plain _ hgraph

/-- Reporting the syntax errors of a text first. -/
theorem Mirrors.resolveText {post : List Node → State → Prop} {follow : Follow}
    {others : List Path → Follow} {file : Path} {text : String}
    (h : Mirrors d viewsRoot tree text? root active (s.reading file text) post
      (resolveStamped d viewsRoot follow file (stampAll file (parse text).nodes))
      fun stack =>
        resolveStamped d viewsRoot (others stack) file (stampAll file (parse text).nodes)) :
    Mirrors d viewsRoot tree text? root active s post
      (Resolution.resolveText d viewsRoot follow file text)
      fun stack => Resolution.resolveText d viewsRoot (others stack) file text := by
  constructor <;> rw [exec_resolveText]
  · exact h.sound
  · refine State.Extends.trans (.report s fun error herror => Or.inl ?_) h.later
    obtain ⟨_, _, rfl⟩ := List.mem_map.mp herror
    rfl
  · exact h.value
  · intro nodes hnodes stack hstack
    rw [resolveText_eq]
    exact (repeats_report _ _).bind (h.repeats nodes hnodes stack hstack)
  · exact h.explained
  · intro t ht
    rw [exec_resolveText]
    exact h.plain _ ht

end

/-- The logic of comparing the resolver with the plain ones while the files `active` are being
resolved. -/
def mirror (d : Disk) (viewsRoot : Path) (tree : Path → Option (List Node))
    (text? : Path → Option String) (root : Path) (active : List Path) : RunLogic (List Path) where
  holds s post x plain := Sound d viewsRoot tree text? root active s →
    Mirrors d viewsRoot tree text? root active s post x plain
  holds_pure hpost hsound :=
    .of_ok rfl hsound (.refl _) hpost (fun _ _ => repeats_pure _ _) fun _ ht => ⟨rfl, ht⟩
  holds_bind hx hf hsound := (hx hsound).bind hf
  holds_report {s errors} hkind hsound :=
    .of_ok (exec_report errors s)
      (hsound.of_resolved_eq (List.Subset.refl _) rfl (by
        rw [syntaxOf_append, syntaxOf_eq_nil hkind, List.append_nil]))
      (.report s fun error herror => Or.inr (hkind error herror)) trivial
      (fun _ _ => repeats_report _ _) fun _ ht => ⟨rfl, ht⟩
  holds_depend {s file dependency} hsound :=
    .of_ok (exec_depend file dependency s)
      (hsound.of_resolved_eq (s.graph.edges_prefix_add file dependency).subset rfl rfl)
      (.depend s file dependency) trivial
      (fun _ _ => repeats_depend (DependencyGraph.edge_add.mpr (Or.inl rfl)))
      fun _ ht => ⟨rfl, by rw [exec_depend, ht]⟩
  holds_missing _ :=
    .of_error rfl (.refl _) trivial fun _ ht => ⟨rfl, ht⟩

/-- Recording the edge of a reference first. -/
private theorem mirror_call_of {reference : Reference} {path : Path} {rest : List Path}
    {post : List Node → State → Prop} (htop : active = reference.referrer :: rest)
    (hpath : path.normalize = path)
    (hreference : ∀ s, Sound d viewsRoot tree text? root active s →
      s.graph.Edge reference.referrer path →
      Mirrors d viewsRoot tree text? root active s post
        (resolveReference d viewsRoot active reference path)
        fun stack => plainReference d viewsRoot stack reference path) :
    (mirror d viewsRoot tree text? root active).holds s post
      (do depend reference.referrer path; resolveReference d viewsRoot active reference path)
      fun stack => (do
        depend reference.referrer path; plainReference d viewsRoot stack reference path) := by
  intro hsound
  have hreferrer : reference.referrer.normalize = reference.referrer :=
    hsound.normal _ (by rw [htop]; exact List.mem_cons_self)
  have hadded : ({ s with graph := s.graph.add reference.referrer path } : State).graph.Edge
      reference.referrer path :=
    DependencyGraph.edge_add.mpr (Or.inl (by rw [hreferrer, hpath]))
  have hdepend : Mirrors d viewsRoot tree text? root active s
      (fun _ s' => s'.graph.Edge reference.referrer path) (depend reference.referrer path)
      fun _ => depend reference.referrer path := by
    refine .of_ok (exec_depend _ _ s)
      (hsound.of_resolved_eq (s.graph.edges_prefix_add _ _).subset rfl rfl) (.depend s _ _) hadded
      (fun _ _ => repeats_depend ?_) fun _ ht => ⟨rfl, by rw [exec_depend, ht]⟩
    rw [hreferrer, hpath]
    exact hadded
  exact hdepend.bind fun _ s' _ hedge hsound' => hreference s' hsound' hedge

/-- What is assumed of the trees: a file that the plain resolver resolves by itself has its tree. -/
def TreesOf (d : Disk) (viewsRoot : Path) (tree : Path → Option (List Node)) : Prop :=
  ∀ path text nodes, path.normalize = path → d.readText path = .ok text →
    (exec (resolveText d viewsRoot (plainReference d viewsRoot [path]) path text)
      ⟨.empty, [], []⟩).1 = .ok nodes → tree path = some nodes

theorem exec_resolveReference (d : Disk) (viewsRoot : Path) (reference : Reference) (s : State)
    {path : Path} (hpath : path.normalize = path) (h : path ∉ active) :
    exec (resolveReference d viewsRoot active reference path) s =
      match s.resolved.lookup path with
      | some nodes => (.ok nodes, s)
      | none =>
        match d.readText path with
        | .error reason => (.error (readError reference path reason), s)
        | .ok text =>
          exec (do
            let nodes ←
              resolveText d viewsRoot (resolveReference d viewsRoot (path :: active)) path text
            remember path nodes
            return nodes) s := by
  rw [resolveReference_of_notMem hpath h, exec_bind, exec_get]
  dsimp only
  cases s.resolved.lookup path with
  | some nodes => rfl
  | none => cases d.readText path <;> rfl

/-- A file that has a tree already. -/
private theorem mirrors_hit {reference : Reference} {path : Path} {nodes : List Node}
    (hsound : Sound d viewsRoot tree text? root active s)
    (hlookup : s.resolved.lookup path = some nodes) {x : Resolve (List Node)}
    (hx : exec x s = (.ok nodes, s)) :
    Mirrors d viewsRoot tree text? root active s
      (fun nodes s' => tree path = some nodes ∧
        Everywhere (Faithful viewsRoot tree text? root) nodes ∧ path ∈ s'.known)
      x fun stack => plainReference d viewsRoot stack reference path := by
  obtain ⟨before, after, hsplit, -⟩ := List.lookup_eq_some_iff.mp hlookup
  have hentry : (path, nodes) ∈ s.resolved := by rw [hsplit]; simp
  have hsettled := hsound.settled _ hentry
  refine .of_ok hx hsound (.refl s)
    ⟨hsettled.tree_eq, hsettled.faithful, List.mem_map_of_mem hentry⟩
    (fun stack hstack => hsettled.repeats stack hstack reference) fun t ht => ?_
  have hagain := hsettled.repeats active
    (fun known hknown hmem => hsound.notMem_known hmem hknown) reference t
  exact ⟨hagain.1, (hagain.2 (by rw [ht]; exact List.Subset.refl _)).trans ht⟩

/-- A file that is resolved now. -/
private theorem mirrors_open {reference : Reference} {path : Path} {text : String}
    (htree : TreesOf d viewsRoot tree) (hsound : Sound d viewsRoot tree text? root active s)
    (hfresh : path ∉ active) (hpath : path.normalize = path)
    (hreached : Reached viewsRoot tree text? root path) (hread : d.readText path = .ok text)
    (hbody : Mirrors d viewsRoot tree text? root (path :: active) s
      (fun nodes s' => Everywhere (Faithful viewsRoot tree text? root) nodes ∧
        ∀ reference target, Refers viewsRoot tree path text reference target → target ∈ s'.known)
      (resolveText d viewsRoot (resolveReference d viewsRoot (path :: active)) path text)
      fun stack => resolveText d viewsRoot (plainReference d viewsRoot stack) path text) :
    Mirrors d viewsRoot tree text? root active s
      (fun nodes s' => tree path = some nodes ∧
        Everywhere (Faithful viewsRoot tree text? root) nodes ∧ path ∈ s'.known)
      (do
        let nodes ←
          resolveText d viewsRoot (resolveReference d viewsRoot (path :: active)) path text
        remember path nodes
        return nodes)
      fun stack => plainReference d viewsRoot stack reference path := by
  have hplain : plainReference d viewsRoot active reference path =
      resolveText d viewsRoot (plainReference d viewsRoot (path :: active)) path text := by
    rw [plainReference_of_notMem hpath hfresh, hread]
  cases hresult : (exec (resolveText d viewsRoot
      (resolveReference d viewsRoot (path :: active)) path text) s).1 with
  | error error =>
    refine .of_error (exec_bind_of_error hresult) hbody.later (hbody.explained error hresult)
      fun t ht => ?_
    rw [hplain, ← hresult]
    exact hbody.plain t ht
  | ok nodes =>
    obtain ⟨hfaithful, hclosed⟩ := hbody.value nodes hresult
    have hinner := hbody.sound nodes hresult
    have htree' : tree path = some nodes := by
      refine htree path text nodes hpath hread (hbody.repeats nodes hresult [path] ?_ _).1
      intro known hknown hmem
      rw [List.mem_singleton.mp hmem] at hknown
      exact hinner.notMem_known List.mem_cons_self hknown
    have hleft := hsound.leave hfresh hinner hbody.later hread hpath hreached htree' hfaithful
      (hbody.repeats nodes hresult) hclosed
    refine .of_ok (exec_bind_of_ok hresult) hleft (hbody.later.trans (.remember _ _ _))
      ⟨htree', hfaithful, List.mem_cons_self⟩
      (fun stack hstack =>
        (hleft.settled (path, nodes) List.mem_cons_self).repeats stack hstack reference)
      fun t ht => ?_
    rw [hplain, ← hresult]
    exact hbody.plain t ht

theorem faithful_isDirective (kind : NodeKind) (line : Nat) (origin : Option Path)
    (h : Faithful viewsRoot tree text? root kind line origin) :
    kind.isDirective = false ∧ origin ≠ none := by
  obtain ⟨hkind, file, text, rfl, -⟩ := h
  exact ⟨hkind, by simp⟩

/-- The nodes of a text that has been reached are faithful, directives aside. -/
theorem faithful_of_mem {file : Path} {text : String} (htext : text? file = some text)
    (hreached : Reached viewsRoot tree text? root file) :
    ∀ node ∈ walkAll (parse text).nodes, node.kind.isDirective = false →
      Faithful viewsRoot tree text? root node.kind node.line (some file) :=
  fun node hnode hkind => ⟨hkind, file, text, rfl, hreached, htext, node, hnode, rfl, rfl⟩

/-- The rest of a file whose syntax errors have been reported, once each of its references is dealt
with. -/
private theorem mirrors_stamped {file : Path} {below : List Path} {text : String}
    (htext : text? file = some text)
    (hsound : Sound d viewsRoot tree text? root (file :: below) s)
    (hcall : ∀ s' reference path, reference.referrer = file →
      Refers viewsRoot tree file text reference path → Cites viewsRoot text reference path →
      Sound d viewsRoot tree text? root (file :: below) s' → s'.graph.Edge file path →
      Mirrors d viewsRoot tree text? root (file :: below) s'
        (fun nodes s' => tree path = some nodes ∧
          Everywhere (Faithful viewsRoot tree text? root) nodes ∧ path ∈ s'.known)
        (resolveReference d viewsRoot (file :: below) reference path)
        fun stack => plainReference d viewsRoot stack reference path) :
    Mirrors d viewsRoot tree text? root (file :: below) s
      (fun nodes s' => Everywhere (Faithful viewsRoot tree text? root) nodes ∧
        ∀ reference target, Refers viewsRoot tree file text reference target → target ∈ s'.known)
      (resolveStamped d viewsRoot (resolveReference d viewsRoot (file :: below)) file
        (stampAll file (parse text).nodes))
      fun stack => resolveStamped d viewsRoot (plainReference d viewsRoot stack) file
        (stampAll file (parse text).nodes) := by
  have hreached := hsound.reached file List.mem_cons_self
  refine RunLogic.resolveStamped (L := mirror d viewsRoot tree text? root (file :: below))
    (K := fun path s => path ∈ s.known) (fun _ _ _ hlater hknown => hlater.known hknown)
    faithful_isDirective (faithful_of_mem htext hreached) ?_ hsound
  intro s' _ reference path hrefers hreferrer hcites
  subst hreferrer
  exact mirror_call_of rfl hrefers.normal fun s'' hsound'' hedge =>
    hcall s'' reference path rfl hrefers hcites hsound'' hedge

/-- **Following a reference.** The resolver with its memo and the plain resolvers agree on every
reference that the innermost file follows. -/
theorem mirrors_reference (htree : TreesOf d viewsRoot tree) {active rest : List Path}
    {reference : Reference} {path : Path} {text : String} {s : State}
    (htop : active = reference.referrer :: rest) (htext : text? reference.referrer = some text)
    (hrefers : Refers viewsRoot tree reference.referrer text reference path)
    (hcites : Cites viewsRoot text reference path)
    (hsound : Sound d viewsRoot tree text? root active s)
    (hedge : s.graph.Edge reference.referrer path) :
    Mirrors d viewsRoot tree text? root active s
      (fun nodes s' => tree path = some nodes ∧
        Everywhere (Faithful viewsRoot tree text? root) nodes ∧ path ∈ s'.known)
      (resolveReference d viewsRoot active reference path)
      fun stack => plainReference d viewsRoot stack reference path := by
  have hpath := hrefers.normal
  by_cases hmem : path ∈ active
  · rw [resolveReference_of_mem hpath hmem]
    refine .of_error rfl (.refl s) (hsound.cycleReport htop htext hcites hedge hmem)
      fun t ht => ?_
    rw [plainReference_of_mem hpath hmem]
    exact ⟨rfl, ht⟩
  · have hreached : Reached viewsRoot tree text? root path :=
      (hsound.reached _ (by rw [htop]; exact List.mem_cons_self)).tail
        ⟨text, reference, htext, hrefers⟩
    have hrun := exec_resolveReference d viewsRoot reference s hpath hmem
    cases hlookup : s.resolved.lookup path with
    | some nodes =>
      simp only [hlookup] at hrun
      exact mirrors_hit hsound hlookup hrun
    | none =>
      cases hread : d.readText path with
      | error reason =>
        simp only [hlookup, hread] at hrun
        refine .of_error hrun (.refl s) ?_ fun t ht => ?_
        · cases reason <;> trivial
        · rw [plainReference_of_notMem hpath hmem, hread]
          exact ⟨rfl, ht⟩
      | ok text' =>
        simp only [hlookup, hread] at hrun
        have hnew : path ∉ s.known := by
          intro hknown
          obtain ⟨⟨_, nodes⟩, hentry, rfl⟩ := List.mem_map.mp hknown
          simpa using List.lookup_eq_none_iff.mp hlookup _ hentry
        have htext' := hsound.texts path hmem text' hread
        have henter := hsound.enter hmem hnew hpath htext' hreached (by
          rw [htop]
          rintro _ ⟨⟩
          exact hedge)
        have hless : (unopened d (path :: active)).length < (unopened d active).length :=
        length_unopened_lt hpath hmem hread
        refine .congr hrun (mirrors_open htree hsound hmem hpath hreached hread (.resolveText ?_))
        refine mirrors_stamped htext' henter
          fun s' next target hreferrer hnext hcites' hsound' => ?_
        subst hreferrer
        exact mirrors_reference htree rfl htext' hnext hcites' hsound'
termination_by (unopened d active).length
decreasing_by assumption

/-- **Resolving a text.** The same for the text of the innermost file. -/
theorem mirrors_resolveText (htree : TreesOf d viewsRoot tree) {file : Path} {below : List Path}
    {text : String} (htext : text? file = some text)
    (hsound : Sound d viewsRoot tree text? root (file :: below) (s.reading file text)) :
    Mirrors d viewsRoot tree text? root (file :: below) s
      (fun nodes s' => Everywhere (Faithful viewsRoot tree text? root) nodes ∧
        ∀ reference target, Refers viewsRoot tree file text reference target → target ∈ s'.known)
      (resolveText d viewsRoot (resolveReference d viewsRoot (file :: below)) file text)
      fun stack => resolveText d viewsRoot (plainReference d viewsRoot stack) file text := by
  refine .resolveText (mirrors_stamped htext hsound
    fun s' next target hreferrer hnext hcites hsound' => ?_)
  subst hreferrer
  exact mirrors_reference htree rfl htext hnext hcites hsound'

end

end PugContracts.Resolution
