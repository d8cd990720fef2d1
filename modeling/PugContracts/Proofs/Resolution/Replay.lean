import PugContracts.Proofs.Resolution.Compare
import PugContracts.Proofs.Resolution.Whole

/-!
# Resolving again

A resolution looks at no file of the disk before an edge to it is recorded. So it can be replayed on
any disk on which the targets of its edges are the same files, whatever else has changed there, and
next to any edges that the graph may hold already: it comes to the same tree and the same errors,
and it records the same edges (`ofTemplate_replay`).

`Replays` says this of single steps. It speaks of two resolvers at once, the one with the first disk
and the one with the second, and is kept when steps are put one after the other.
-/

namespace PugContracts.Resolution

open Template Contract

/-- The second state is the first one with further edges. -/
structure State.Beside (base : Path → Path → Prop) (s s' : State) : Prop where
  /-- The same files have been resolved. -/
  resolved : s'.resolved = s.resolved
  /-- The same errors have been found. -/
  errors : s'.errors = s.errors
  /-- There are no edges but those of the first and the further ones. -/
  edge : ∀ p q, s'.graph.Edge p q ↔ base p q ∨ s.graph.Edge p q

/-- Whatever an edge leads to is the same file on both disks. -/
def Agrees (d d' : Disk) (g : DependencyGraph) : Prop :=
  ∀ p q, g.Edge p q → d'.file q = d.file q

/-- The first step takes no edge away, and the second one does the same next to further edges, if
the disks agree on what the first one records. -/
structure Replays {α : Type} (d d' : Disk) (base : Path → Path → Prop) (x x' : Resolve α) :
    Prop where
  /-- No edge is taken away. -/
  grows : ∀ s p q, s.graph.Edge p q → (exec x s).2.graph.Edge p q
  /-- The second step ends in the same way. -/
  same : ∀ s s', s.Beside base s' → Agrees d d' (exec x s).2.graph →
    (exec x' s').1 = (exec x s).1 ∧ (exec x s).2.Beside base (exec x' s').2

section

variable {α β : Type} {d d' : Disk} {base : Path → Path → Prop} {viewsRoot : Path}
  {file : Path}

/-! ### Basic steps -/

theorem replays_pure (a : α) : Replays d d' base (pure a) (pure a) :=
  ⟨fun _ _ _ => id, fun _ _ hbeside _ => ⟨rfl, hbeside⟩⟩

theorem replays_throw (error : ResolveError) :
    Replays d d' base (throw error : Resolve α) (throw error) :=
  ⟨fun _ _ _ => id, fun _ _ hbeside _ => ⟨rfl, hbeside⟩⟩

theorem replays_report (errors : List TemplateError) :
    Replays d d' base (report errors) (report errors) := by
  refine ⟨fun _ _ _ => id, fun s s' hbeside _ => ⟨rfl, hbeside.resolved, ?_, hbeside.edge⟩⟩
  rw [exec_report, exec_report, hbeside.errors]

theorem replays_remember (file : Path) (nodes : List Node) :
    Replays d d' base (remember file nodes) (remember file nodes) := by
  refine ⟨fun _ _ _ => id, fun s s' hbeside _ => ⟨rfl, ?_, hbeside.errors, hbeside.edge⟩⟩
  rw [exec_remember, exec_remember, hbeside.resolved]

theorem replays_depend (file dependency : Path) :
    Replays d d' base (depend file dependency) (depend file dependency) := by
  refine ⟨fun s p q hedge => DependencyGraph.edge_add.mpr (Or.inr hedge),
    fun s s' hbeside _ => ⟨rfl, hbeside.resolved, hbeside.errors, fun p q => ?_⟩⟩
  rw [exec_depend, exec_depend, DependencyGraph.edge_add, DependencyGraph.edge_add,
    hbeside.edge, or_left_comm]

theorem Replays.bind {x x' : Resolve α} {f f' : α → Resolve β} (hx : Replays d d' base x x')
    (hf : ∀ a, Replays d d' base (f a) (f' a)) : Replays d d' base (x >>= f) (x' >>= f') := by
  refine ⟨fun s p q hedge => edge_exec_bind (hx.grows s p q hedge)
    fun a _ s' => (hf a).grows s' p q, fun s s' hbeside hagrees => ?_⟩
  cases hresult : (exec x s).1 with
  | error error =>
    rw [exec_bind_of_error hresult] at hagrees ⊢
    obtain ⟨hsame, hafter⟩ := hx.same s s' hbeside hagrees
    rw [exec_bind_of_error (hsame.trans hresult)]
    exact ⟨rfl, hafter⟩
  | ok a =>
    rw [exec_bind_of_ok hresult] at hagrees ⊢
    obtain ⟨hsame, hafter⟩ := hx.same s s' hbeside fun p q hedge =>
      hagrees p q ((hf a).grows _ p q hedge)
    rw [exec_bind_of_ok (hsame.trans hresult)]
    exact (hf a).same _ _ hafter hagrees

/-- A step that is taken after an edge to a file was recorded may rely on the file. -/
theorem replays_depend_bind {path : Path} (hpath : path.normalize = path) {x x' : Resolve α}
    (hgrows : ∀ s p q, s.graph.Edge p q → (exec x s).2.graph.Edge p q)
    (hx : d'.file path = d.file path → Replays d d' base x x') :
    Replays d d' base (do depend file path; x) (do depend file path; x') := by
  have hrun : ∀ (y : Resolve α) s, exec (do depend file path; y) s =
      exec y { s with graph := s.graph.add file path } := fun y s => exec_bind_of_ok rfl
  refine ⟨fun s p q hedge => ?_, fun s s' hbeside hagrees => ?_⟩
  · rw [hrun]
    exact hgrows _ p q (DependencyGraph.edge_add.mpr (Or.inr hedge))
  · rw [hrun] at hagrees
    have hedge := hgrows { s with graph := s.graph.add file path } file.normalize path
      (DependencyGraph.edge_add.mpr (Or.inl (by rw [hpath])))
    rw [hrun, hrun]
    exact (hx (hagrees _ _ hedge)).same _ _ ((replays_depend file path).same s s' hbeside
      fun p q hadded => hagrees p q (hgrows _ p q hadded)).2 hagrees

/-- Replaying, as a comparison of resolvers. -/
def replay (d d' : Disk) (base : Path → Path → Prop) : Comparison d d' where
  holds x x' := Replays d d' base x x'
  holds_pure := replays_pure
  holds_throw := replays_throw
  holds_report := replays_report
  holds_bind := Replays.bind
  holds_raw {file path} error hpath := by
    refine replays_depend_bind hpath ?_ fun hfile => ?_
    · intro s p q hedge
      split <;> exact hedge
    · have hsame : d'.isFile path = d.isFile path := by rw [Disk.isFile, Disk.isFile, hfile]
      rw [hsame]
      split
      · exact replays_pure _
      · exact replays_throw _

/-! ### References -/

/-- **Following a reference** can be replayed. -/
theorem replays_resolveReference (d d' : Disk) (base : Path → Path → Prop) (viewsRoot : Path)
    (active : List Path) :
    (replay d d' base).Follows (resolveReference d viewsRoot active)
      (resolveReference d' viewsRoot active) := by
  intro reference path hpath
  by_cases hmem : path ∈ active
  · rw [resolveReference_of_mem hpath hmem, resolveReference_of_mem hpath hmem]
    exact (replays_depend _ _).bind fun _ => replays_throw _
  · have hbody : ∀ text, d.readText path = .ok text → Replays d d' base
        (do
          let nodes ←
            resolveText d viewsRoot (resolveReference d viewsRoot (path :: active)) path text
          remember path nodes
          return nodes)
        (do
          let nodes ←
            resolveText d' viewsRoot (resolveReference d' viewsRoot (path :: active)) path text
          remember path nodes
          return nodes) := by
      intro text hread
      have hless : (unopened d (path :: active)).length < (unopened d active).length :=
        length_unopened_lt hpath hmem hread
      have htext : Replays d d' base
          (resolveText d viewsRoot (resolveReference d viewsRoot (path :: active)) path text)
          (resolveText d' viewsRoot (resolveReference d' viewsRoot (path :: active)) path text) :=
        Comparison.resolveText
          (replays_resolveReference d d' base viewsRoot (path :: active)) text
      exact htext.bind fun nodes => (replays_remember path nodes).bind fun _ => replays_pure nodes
    have hgrows : ∀ s p q, s.graph.Edge p q →
        (exec (resolveReference d viewsRoot active reference path) s).2.graph.Edge p q := by
      intro s p q hedge
      rw [exec_resolveReference d viewsRoot reference s hpath hmem]
      cases s.resolved.lookup path with
      | some nodes => exact hedge
      | none =>
        cases hread : d.readText path with
        | error reason => exact hedge
        | ok text => exact (hbody text hread).grows s p q hedge
    refine replays_depend_bind hpath hgrows fun hfile => ⟨hgrows, fun s s' hbeside hagrees => ?_⟩
    have hread' : d'.readText path = d.readText path := by
      rw [Disk.readText, Disk.readText, hfile]
    rw [exec_resolveReference d viewsRoot reference s hpath hmem] at hagrees ⊢
    rw [exec_resolveReference d' viewsRoot reference s' hpath hmem, hbeside.resolved, hread']
    cases hlookup : s.resolved.lookup path with
    | some nodes => exact ⟨rfl, hbeside⟩
    | none =>
      rw [hlookup] at hagrees
      cases hread : d.readText path with
      | error reason => exact ⟨rfl, hbeside⟩
      | ok text =>
        rw [hread] at hagrees
        exact (hbody text hread).same s s' hbeside hagrees
termination_by (unopened d active).length
decreasing_by assumption

/-- **A resolution can be replayed** on any disk on which its edges lead to the same files, and next
to any further edges. -/
theorem ofTemplate_replay {g g' : DependencyGraph} (path : Path) (text : String)
    (hedge : ∀ p q, g'.Edge p q ↔ base p q ∨ g.Edge p q)
    (hagrees : Agrees d d' (ofTemplate d g viewsRoot path (some text)).2) :
    (ofTemplate d' g' viewsRoot path (some text)).1 =
        (ofTemplate d g viewsRoot path (some text)).1 ∧
      ∀ p q, (ofTemplate d' g' viewsRoot path (some text)).2.Edge p q ↔
        base p q ∨ (ofTemplate d g viewsRoot path (some text)).2.Edge p q := by
  have hreplays : Replays d d' base
      (resolveRoot d viewsRoot.normalize path.normalize (some text))
      (resolveRoot d' viewsRoot.normalize path.normalize (some text)) :=
    Comparison.resolveText (replays_resolveReference d d' base _ _) text
  simp only [ofTemplate_eq, conclude_graph] at hagrees ⊢
  obtain ⟨hsame, hafter⟩ := hreplays.same ⟨g, [], []⟩ ⟨g', [], []⟩ ⟨rfl, rfl, hedge⟩ hagrees
  refine ⟨?_, hafter.edge⟩
  rw [conclude, conclude, hsame, hafter.errors]
  cases (exec (resolveRoot d viewsRoot.normalize path.normalize (some text)) ⟨g, [], []⟩).1 <;> rfl

end

end PugContracts.Resolution
