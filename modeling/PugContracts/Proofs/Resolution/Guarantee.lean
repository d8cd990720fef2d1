import PugContracts.Proofs.Graph.Cycles
import PugContracts.Proofs.Resolution.Whole

/-!
# What a resolution guarantees

The statements here are about `ofTemplate` and its run, for every disk, every root, every text of
the root and every graph to start from. They say where the nodes of a tree come from, that nothing
depends on the memo, and what a cycle error means.

## Main results

* `ofTemplate_origin` — trees are flat, and each node was read from the file and line it names
* `ofTemplate_eq_plain` — the resolver ends as the plain one does, and reports the syntax errors of
  each file once
* `ofTemplate_cycles` — an error about a cycle shows one, and a tree excludes them
-/

namespace PugContracts.Resolution

open Template Contract Relation

/-- A structural error that is justified is not about a node without a file. -/
theorem Explained.kind_ne_invariant {viewsRoot : Path} {text? : Path → Option String}
    {g : DependencyGraph} {error : ResolveError} (h : Explained viewsRoot text? g error) :
    error.toTemplateError.kind ≠ .invariant := by
  cases error with
  | missingOrigin => exact h.elim
  | unreadable file reference reason =>
    rcases reference with _ | ⟨referrer, line⟩ <;>
      simp [ResolveError.toTemplateError, TemplateError.ofFile, TemplateError.onLine]
  | _ => simp [ResolveError.toTemplateError, TemplateError.onLine]

variable (d : Disk) (graph : DependencyGraph) (viewsRoot path : Path) (source : Option String)

/-- **Resolved trees are flat, and origins are faithful.** Every node of a tree, at any depth, is no
directive and has the kind and the line of a node that was read from the text of its file. That file
is the root or one of the files that the resolution has read, and a chain of followed directives
leads to it. No resolution, with a tree or without, reports a node that was not stamped. -/
theorem ofTemplate_origin :
    (∀ nodes, (ofTemplate d graph viewsRoot path source).1.tree = some nodes →
      ∀ node ∈ walkAll nodes, node.kind.isDirective = false ∧
        ∃ file text, node.file = some file ∧
          (file = path.normalize ∨ file ∈ (exec (resolveRoot d viewsRoot.normalize path.normalize
            source) ⟨graph, [], []⟩).2.known) ∧
          Reached viewsRoot.normalize (treeOf d viewsRoot) (textOf? d path.normalize source)
            path.normalize file ∧
          textOf? d path.normalize source file = some text ∧
          ∃ read ∈ walkAll (parse text).nodes, read.kind = node.kind ∧ read.line = node.line) ∧
    ∀ error ∈ (ofTemplate d graph viewsRoot path source).1.errors, error.kind ≠ .invariant := by
  have hroot := viewsRoot.normalize_normalize
  have hpath := path.normalize_normalize
  rw [ofTemplate_eq]
  constructor
  · intro nodes hnodes
    obtain ⟨hfinished, hfaithful⟩ :=
      finished_of_ok hroot hpath (conclude_tree_eq_some_iff.mp hnodes)
    rw [treeOf_normalize] at hfinished hfaithful
    intro node hnode
    obtain ⟨hkind, file, text, horigin, hreached, htext, hread⟩ := hfaithful node hnode
    exact ⟨hkind, file, text, horigin, hfinished.reached_iff.mp hreached, hreached, htext, hread⟩
  · have hcollected : ∀ error ∈ (exec (resolveRoot d viewsRoot.normalize path.normalize source)
        ⟨graph, [], []⟩).2.errors, error.kind ≠ .invariant := by
      intro error herror
      rcases kind_of_mem_errors hroot hpath error herror with hkind | hkind <;> rw [hkind] <;>
        decide
    intro error herror
    rw [conclude] at herror
    split at herror
    · exact hcollected error herror
    · next stop hstop =>
      rcases List.mem_append.mp herror with herror | herror
      · exact hcollected error herror
      · rw [List.mem_singleton.mp herror]
        exact (explained_of_error hroot hpath hstop).kind_ne_invariant

/-- **The memo makes no difference.** The resolver and the plain resolver come to the same tree or
stop with the same structural error, and they record the same edges. With a tree, the syntax errors
are those of the files that were read, each file once. -/
theorem ofTemplate_eq_plain :
    (ofTemplate d graph viewsRoot path source).1.tree =
        (plainOfTemplate d graph viewsRoot path source).1.tree ∧
      ((ofTemplate d graph viewsRoot path source).1.tree = none →
        ∃ error : ResolveError,
          (ofTemplate d graph viewsRoot path source).1.errors.getLast? =
            some error.toTemplateError ∧
          (plainOfTemplate d graph viewsRoot path source).1.errors.getLast? =
            some error.toTemplateError) ∧
      (ofTemplate d graph viewsRoot path source).2 =
        (plainOfTemplate d graph viewsRoot path source).2 ∧
      ((ofTemplate d graph viewsRoot path source).1.tree ≠ none →
        ∃ files : List Path, files.Nodup ∧
          (∀ file, file ∈ files ↔ Reached viewsRoot.normalize (treeOf d viewsRoot)
            (textOf? d path.normalize source) path.normalize file) ∧
          syntaxOf (ofTemplate d graph viewsRoot path source).1.errors =
            files.flatMap (faultsOf (textOf? d path.normalize source))) := by
  have hroot := viewsRoot.normalize_normalize
  have hpath := path.normalize_normalize
  obtain ⟨hresult, hgraph⟩ :=
    exec_plainRoot (treesOf_treeOf (d := d) hroot) hpath graph source
  rw [ofTemplate_eq, plainOfTemplate_eq]
  refine ⟨?_, ?_, ?_, ?_⟩
  · refine Option.ext fun nodes => ?_
    rw [conclude_tree_eq_some_iff, conclude_tree_eq_some_iff, hresult]
  · intro hnone
    obtain ⟨error, herror⟩ := conclude_tree_eq_none_iff.mp hnone
    refine ⟨error, ?_, ?_⟩
    · rw [conclude, herror]
      exact List.getLast?_concat
    · rw [conclude, hresult, herror]
      exact List.getLast?_concat
  · rw [conclude_graph, conclude_graph, hgraph]
  · intro hsome
    obtain ⟨nodes, hnodes⟩ := Option.ne_none_iff_exists'.mp hsome
    have hok := conclude_tree_eq_some_iff.mp hnodes
    have hfinished := (finished_of_ok hroot hpath hok).1
    rw [treeOf_normalize] at hfinished
    obtain ⟨files, hperm, hfaults⟩ := hfinished.sound.faults
    refine ⟨files, hperm.nodup_iff.mpr ?_, fun file => ?_, ?_⟩
    · exact List.nodup_cons.mpr ⟨hfinished.sound.notMem_known List.mem_cons_self,
        hfinished.sound.layered.nodup⟩
    · rw [hperm.mem_iff, hfinished.reached_iff]
      exact List.mem_cons
    · rw [conclude, hok]
      exact hfaults

/-- **Cycle errors are sound and complete.** The chain of a cycle error is a closed walk in the
graph through different files, all of which are in one of its cycles, and its last step is a
directive on the line that the error names. If there is a tree instead, no chain of followed
directives leads from a file that was read back to itself. -/
theorem ofTemplate_cycles :
    (∀ file line kind chain,
      (exec (resolveRoot d viewsRoot.normalize path.normalize source) ⟨graph, [], []⟩).1 =
        .error (.cycle file line kind chain) →
      CycleReport viewsRoot.normalize (textOf? d path.normalize source)
          (ofTemplate d graph viewsRoot path source).2 file line kind chain ∧
        ∃ group ∈ (ofTemplate d graph viewsRoot path source).2.cycles,
          ∀ member ∈ chain, member ∈ group) ∧
    ∀ nodes, (ofTemplate d graph viewsRoot path source).1.tree = some nodes → ∀ file,
      Reached viewsRoot.normalize (treeOf d viewsRoot) (textOf? d path.normalize source)
        path.normalize file →
      ¬ TransGen (Follows viewsRoot.normalize (treeOf d viewsRoot)
        (textOf? d path.normalize source)) file file := by
  have hroot := viewsRoot.normalize_normalize
  have hpath := path.normalize_normalize
  rw [ofTemplate_eq, conclude_graph]
  constructor
  · intro file line kind chain hcycle
    have hreport : CycleReport _ _ _ file line kind chain := explained_of_error hroot hpath hcycle
    exact ⟨hreport, DependencyGraph.exists_mem_cycles_of_isChain hreport.long hreport.closed
      hreport.edges⟩
  · intro nodes hnodes file hreached
    have hfinished := (finished_of_ok hroot hpath (conclude_tree_eq_some_iff.mp hnodes)).1
    rw [treeOf_normalize] at hfinished
    exact hfinished.not_transGen hreached

end PugContracts.Resolution
