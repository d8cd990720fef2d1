import PugContracts.Proofs.Program.Origins
import PugContracts.Proofs.Resolution.Own
import PugContracts.Proofs.Template.Order

/-!
# The order of a program

What is made from a tree follows the tree in document order: the lines of a node are made when it
is visited, before those of what is nested in it. Two things are made out of turn. The brace that
closes a block comes after the content, with the origin of its head; and the head of a branch is
made with the origin of the first node of the branch, just ahead of it. So apart from lines that are
a single closing brace, the map of a program echoes the walk through its tree (`tracks_nodesSteps`).

Document order is the order of the text if no line of the template is stray. If also nothing is
included or inherited, the tree is that of the template, and its map goes down the text.

## Main results

* `tracks_nodesSteps`: the map of what is made from a tree, for any tree.
* `clean_in_order`: the walk and the map of a template without faults.
-/

namespace PugContracts

open Template

namespace Resolution

variable {d : Disk} {viewsRoot file current : Path} {follow : Follow}

/-- Where nothing is to be resolved, nothing is changed. -/
theorem rewriteAll_of_flat {nodes : List Node} (h : Flat nodes) :
    rewriteAll d viewsRoot follow current (stampAll file nodes) = pure (stampAll file nodes) := by
  induction nodes using forest_induction with
  | nil => rfl
  | cons kind line origin children alternate rest hchildren halternate hrest =>
    rw [Flat, everywhere_cons] at h
    obtain ⟨hkind, hinner, hother, hafter⟩ := h
    simp only [stampAll, Node.stamp, rewriteAll, RunLogic.rewriteNode_of_not_isDirective hkind,
      hchildren hinner, halternate hother, hrest hafter, pure_bind]
    rfl

theorem parentDirectives_of_flat {nodes : List Node} (h : Flat nodes) :
    parentDirectives nodes = [] := by
  refine List.filterMap_eq_nil_iff.mpr fun node hnode => ?_
  have hkind := h node (mem_walkAll_of_mem hnode)
  cases hof : node.kind <;> simp [hof, NodeKind.isDirective] at hkind ⊢

/-- **A template in which nothing is included or inherited** is its own tree. -/
theorem tree_of_flat (d : Disk) (graph : DependencyGraph) (viewsRoot path : Path) {source : String}
    (h : Flat (parse source).nodes) :
    (ofTemplate d graph viewsRoot path (some source)).1.tree =
      some (stampAll path.normalize (parse source).nodes) := by
  rw [ofTemplate_eq, conclude_tree_eq_some_iff]
  have hstamped : Flat (stampAll path.normalize (parse source).nodes) := everywhere_stampAll.mpr h
  rw [resolveRoot, exec_resolveText, resolveStamped, parentDirectives_of_flat hstamped]
  dsimp only
  rw [rewriteAll_of_flat h, exec_pure]

end Resolution

namespace Program

variable {origin otherwise : Origin} {steps more children alternate : List Step}
  {origins others inner : List Origin}

/-! ### Lines without closing braces -/

/-- A line with nothing on it but a closing brace. -/
def Line.isClosing (line : Line) : Bool :=
  Text.trim line.text == ['}']

/-- The map of lines, those of a single closing brace left out. -/
def openOrigins (lines : List Line) : List Origin :=
  (lines.filter (!·.isClosing)).map Line.origin

theorem trim_indented (depth : Nat) : Text.trim (indented depth ['}']) = ['}'] := by
  induction depth with
  | zero => rfl
  | succ depth ih =>
    rw [indented, if_neg (by simp)] at ih ⊢
    rw [List.replicate_succ, List.flatten_cons, List.append_assoc]
    exact ih

/-- The map of steps echoes a list of origins, at any indentation and closing braces left out. -/
def Tracks (steps : List Step) (origins : List Origin) : Prop :=
  ∀ depth, Echoes (openOrigins (layout depth steps)) origins

theorem tracks_nil (origins : List Origin) : Tracks [] origins :=
  fun _ => .of_nil origins

theorem Tracks.append (h : Tracks steps origins) (hmore : Tracks more others) :
    Tracks (steps ++ more) (origins ++ others) := fun depth => by
  rw [layout_append, openOrigins, List.filter_append, List.map_append]
  exact (h depth).append (hmore _)

/-- What is pushed has the origin that is given. -/
theorem Tracks.push {text : List Char} (h : Tracks steps (origin :: origins)) :
    Tracks (.push text origin :: steps) (origin :: origins) := fun depth => by
  rw [layout, openOrigins, List.filter_append, List.map_append]
  refine .say_all (fun other hother => ?_) (h depth)
  obtain ⟨line, hline, rfl⟩ := List.mem_map.mp hother
  obtain ⟨piece, -, rfl⟩ := List.mem_map.mp (List.mem_filter.mp hline).1
  rfl

theorem tracks_indent : Tracks [.indent] [] := fun _ => .nil

theorem tracks_dedent : Tracks [.dedent] [] := fun _ => .nil

/-- A closing brace does not count. -/
theorem tracks_closing (origin : Origin) : Tracks [pushing origin "\x7d"] [] := fun depth => by
  have hlayout : layout depth [pushing origin "\x7d"] = [⟨indented depth ['}'], origin⟩] := rfl
  have hclosing : Line.isClosing ⟨indented depth ['}'], origin⟩ = true :=
    beq_iff_eq.mpr (trim_indented depth)
  rw [hlayout, openOrigins, List.filter_cons_of_neg (by simp [hclosing])]
  exact .nil

theorem Tracks.deeper (h : Tracks steps origins) : Tracks (deeper steps) origins := by
  simpa [Program.deeper] using (tracks_indent.append h).append tracks_dedent

theorem Tracks.blockSteps {head : String} (h : Tracks steps (origin :: origins)) :
    Tracks (blockSteps origin head steps) (origin :: origins) := by
  simpa [Program.blockSteps, pushing] using Tracks.append h.deeper.push (tracks_closing origin)

theorem Tracks.pushAll {α : Type} (h : Tracks steps (origin :: origins)) (items : List α)
    (text : α → String) :
    Tracks (items.map (fun item => pushing origin (text item)) ++ steps) (origin :: origins) := by
  induction items with
  | nil => exact h
  | cons item rest ih => exact ih.push

/-! ### Nodes -/

theorem Tracks.skip (h : Tracks steps origins) : Tracks steps (origin :: origins) :=
  fun depth => .skip (h depth)

/-- What is made from a node has the origin of the node and then those of what is nested in it, that
of its alternate last. -/
theorem tracks_kindSteps (kind : NodeKind) (isLeaf : Bool) {branches : Bool}
    (hchildren : Tracks children inner) (halternate : Tracks alternate others)
    (hother : branches = true → others.head? = some otherwise) :
    Tracks (kindSteps origin otherwise kind isLeaf branches children alternate)
      (origin :: (inner ++ others)) := by
  -- most kinds have no alternate: what is made of the content comes first, and no more follows
  have hcontent : ∀ {steps : List Step}, Tracks steps (origin :: inner) →
      Tracks steps (origin :: (inner ++ others)) := fun h => by
    simpa using h.append (tracks_nil others)
  have hnothing : ∀ {steps : List Step}, Tracks steps [origin] →
      Tracks steps (origin :: (inner ++ others)) := fun h => by
    simpa using h.append (tracks_nil (inner ++ others))
  cases kind with
  | element name attributes spreads =>
    rw [kindSteps, List.append_assoc]
    refine hcontent (.pushAll (.pushAll ?_ _ _) _ _)
    split
    · exact tracks_nil _
    · exact hchildren.skip
  | text value => exact hnothing (tracks_nil [origin]).push
  | code value buffered escaped =>
    cases buffered with
    | true => exact hcontent hchildren.skip.push
    | false =>
      rw [kindSteps]
      split
      · exact hcontent hchildren.skip.push
      · exact hcontent hchildren.skip.blockSteps
  | each item key collection =>
    have hloop : ∀ head, Tracks (blockSteps origin head children) (origin :: inner) :=
      fun _ => hchildren.skip.blockSteps
    refine (hloop _).append ?_
    split
    · next hbranches =>
      obtain ⟨others, rfl⟩ := List.head?_eq_some_iff.mp (hother hbranches)
      exact halternate.blockSteps
    · exact tracks_nil others
  | loop test => exact hcontent hchildren.skip.blockSteps
  | conditional test negated =>
    have hbranch : Tracks
        (if branches then pushing otherwise "\x7d else \x7b" :: deeper alternate else [])
        others := by
      split
      · next hbranches =>
        obtain ⟨others, rfl⟩ := List.head?_eq_some_iff.mp (hother hbranches)
        exact halternate.deeper.push
      · exact tracks_nil others
    have hhead : Tracks (deeper children) (origin :: inner) := hchildren.skip.deeper
    simpa [kindSteps, pushing] using (hhead.push.append hbranch).append (tracks_closing origin)
  | region name mode => exact hcontent hchildren.skip
  | mixin name args => exact hcontent hchildren.skip.push.blockSteps
  | mixinCall name args => exact hcontent hchildren.skip.push
  | comment => exact hnothing (tracks_nil [origin])
  | filter | doctype | inherits | inclusion => exact hnothing (tracks_nil [origin]).push

/-- **What is made from a tree follows the tree in document order.** -/
theorem tracks_nodesSteps (fallback : Path) (nodes : List Node) :
    Tracks (nodesSteps fallback nodes)
      ((walkAll nodes).map fun node => .ofNode node fallback) := by
  induction nodes using forest_induction with
  | nil => exact tracks_nil _
  | cons kind line file children alternate rest hchildren halternate hrest =>
    simp only [walkAll, Node.walk, List.map_append, List.map_cons]
    rw [nodesSteps, nodeSteps]
    refine Tracks.append (tracks_kindSteps kind _ hchildren halternate fun hbranches => ?_) hrest
    cases alternate with
    | nil => simp at hbranches
    | cons first others =>
      obtain ⟨kind, line, file, children, alternate⟩ := first
      rfl

/-! ### Programs -/

/-- The steps up to the statement that takes the names out of the parameter of the function. -/
def headSteps (contract : Contract) (shared : Option SharedLocals) : List Step :=
  (preamble contract shared).map (pushing .contract) ++ signatureSteps contract shared

/-- The map between the head of a program and its closing brace follows the tree. -/
theorem exists_body_echoes (tree : List Node) (contract : Contract) (shared : Option SharedLocals) :
    ∃ body closing,
      (generate tree contract shared).lines =
        layout 0 (headSteps contract shared) ++ body ++ [closing] ∧
      closing.isClosing = true ∧
      Echoes (openOrigins body)
        ((walkAll tree).map fun node => .ofNode node contract.template) := by
  have hsteps : programSteps tree contract shared = headSteps contract shared ++
      nodesSteps contract.template tree ++
        [.dedent, pushing (signatureOrigin contract) "\x7d"] := rfl
  rw [generate, hsteps, layout_append, layout_append]
  exact ⟨_, _, rfl, beq_iff_eq.mpr (trim_indented _), tracks_nodesSteps _ _ _⟩

theorem map_ofNode_stampAll (file fallback : Path) (nodes : List Node) :
    ((walkAll (stampAll file nodes)).map fun node => Origin.ofNode node fallback) =
      (linesOf nodes).map (Origin.mk file) := by
  induction nodes using forest_induction with
  | nil => rfl
  | cons kind line origin children alternate rest hchildren halternate hrest =>
    simp only [linesOf, List.map_map] at hchildren halternate hrest ⊢
    simp only [stampAll, Node.stamp, walkAll, Node.walk, List.map_cons, List.map_append, hchildren,
      halternate, hrest]
    rfl

/-- **A template without faults keeps the order of its text.** Going through its nodes in document
order is going down the text, from its first line at the earliest to its last one at the latest. If
nothing is included or inherited, this is true of the program: between the head of the function,
which ends with the names that are taken out of its parameter, and the brace that closes it, the map
goes down the template, apart from lines that are a single closing brace. -/
theorem clean_in_order {source : String} (hclean : (parse source).errors = []) :
    ((walkAll (parse source).nodes).map Node.line).Pairwise (· ≤ ·) ∧
    (∀ node ∈ walkAll (parse source).nodes, HasLine source node.line) ∧
    (Resolution.Flat (parse source).nodes →
      ∀ (d : Disk) (graph : DependencyGraph) (viewsRoot path : Path) (contract : Contract)
        (shared : Option SharedLocals),
      ∃ tree, (Resolution.ofTemplate d graph viewsRoot path (some source)).1.tree = some tree ∧
      ∃ body closing,
        (generate tree contract shared).lines =
          layout 0 (headSteps contract shared) ++ body ++ [closing] ∧
        closing.isClosing = true ∧
        (∀ origin ∈ openOrigins body, origin.file = path.normalize ∧ HasLine source origin.line) ∧
        ((openOrigins body).map Origin.line).Pairwise (· ≤ ·)) := by
  have hstrays : ¬ Strayed (parse source).errors := by
    rintro ⟨error, herror, -⟩
    rw [hclean] at herror
    cases herror
  have hsorted : (linesOf (parse source).nodes).Pairwise (· ≤ ·) :=
    (echoes_parse hstrays).pairwise Nat.le_refl (List.pairwise_le_range' 1)
  refine ⟨hsorted, fun _ => hasLine_of_mem_nodes,
    fun hflat d graph viewsRoot path contract shared =>
      ⟨_, Resolution.tree_of_flat d graph viewsRoot path hflat, ?_⟩⟩
  obtain ⟨body, closing, hlines, hclosing, hechoes⟩ :=
    exists_body_echoes (stampAll path.normalize (parse source).nodes) contract shared
  rw [map_ofNode_stampAll] at hechoes
  refine ⟨body, closing, hlines, hclosing, fun origin horigin => ?_, ?_⟩
  · obtain ⟨line, hline, rfl⟩ := List.mem_map.mp (hechoes.mem horigin)
    exact ⟨rfl, (parse_on_lines source).1 line hline⟩
  · have hmapped : ((linesOf (parse source).nodes).map (Origin.mk path.normalize)).Pairwise
        fun a b => a.line ≤ b.line := List.pairwise_map.mpr hsorted
    exact List.pairwise_map.mpr (hechoes.pairwise (fun _ => Nat.le_refl _) hmapped)

/-- A branch that was attached to the conditional before it. -/
theorem clean_in_order_conditional :
    let source := "if a\n  = a\nelse\n  = b"
    (parse source).errors = [] ∧ Resolution.Flat (parse source).nodes ∧
      (walkAll (parse source).nodes).map Node.line = [1, 2, 4] ∧
      ((walkAll (parse source).nodes).map Node.line).Pairwise (· ≤ ·) ∧
      ∃ tree, (Resolution.ofTemplate (.blank 0) .empty ⟨"/v"⟩ ⟨"/v/p.pug"⟩
        (some source)).1.tree = some tree := by
  have hread : parse "if a\n  = a\nelse\n  = b" =
      ⟨[⟨.conditional "a" false, 1, none, [.leaf (.code "a" true true) 2],
        [.leaf (.code "b" true true) 4]⟩], []⟩ := by cbv
  intro source
  have hparse : parse source = _ := hread
  have hclean : (parse source).errors = [] := by rw [hparse]
  have hflat : Resolution.Flat (parse source).nodes := by
    rw [hparse]
    simp [Resolution.Flat, Node.leaf, NodeKind.isDirective]
  obtain ⟨hordered, -, hprogram⟩ := clean_in_order hclean
  obtain ⟨tree, htree, -⟩ := hprogram hflat (.blank 0) .empty ⟨"/v"⟩ ⟨"/v/p.pug"⟩
    (.ofTemplate ⟨"/v/p.pug"⟩) none
  exact ⟨hclean, hflat, by rw [hparse]; rfl, hordered, tree, htree⟩

end Program

end PugContracts
