import Mathlib.Data.Set.Insert
import PugContracts.Proofs.Check.Fresh

/-!
# Settling results

When a file changes, the results of the file and of all that depends on it are `pending`: they may
be out of date. `Kept` says that all other results are those of a new checker, and that the graph
holds what they depend on. A change leaves `Kept` what does not depend on the file
(`Kept.change`), each scan settles one template and unsettles none (`Kept.scanFile`), and so a
notification settles everything (`Kept.notified`).

A change has to show in the graph for this: see `Change`.
-/

namespace PugContracts

namespace Checker

open Relation Resolution

variable {fresh checker after : Checker} {verdict : Program → List TemplateError} {d d' : Disk}
  {template other path p q : Path} {pending : Set Path}

/-! ### What may be pending -/

/-- The graph holds what the result for the template depends on. -/
structure Recorded (checker : Checker) (d : Disk) (template : Path) : Prop where
  /-- It holds the edges along which directives lead. -/
  directives : ∀ p q, (checker.follow d template).2.Edge p q → checker.graph.Edge p q
  /-- For a module that is found, it holds an edge to a file that the module may mean. -/
  modules : ∀ contract, checker.contract? d template = some contract →
    ∀ record ∈ contract.imports, record.isPath = true →
      (d.moduleFile? record.modulePath).isSome = true →
        ∃ file ∈ record.modulePath :: Disk.moduleCandidates record.modulePath,
          d.isFile file = true ∧ checker.graph.Edge template file.normalize

/-- One file was modified, created or deleted, and a notification can tell. -/
structure Change (checker : Checker) (d d' : Disk) (file : Path) : Prop where
  /-- Whatever other file was there is there and the same. -/
  kept : ∀ p, p.normalize ≠ file → d.isFile p = true → d'.file p = d.file p
  /-- Whatever else was looked for in vain is not there for the same reason. -/
  absent : ∀ p ≠ file, (p ∈ checker.cache.entries.keys ∨ ∃ q, checker.graph.Edge q p) →
    d.isFile p = false → d'.file p = d.file p
  /-- No module appears that was missing from a template on which the file has no bearing. -/
  modules : ∀ template ∈ checker.cache.entries.keys, template ≠ file →
    template ∉ checker.graph.dependentsOf file →
      ∀ contract, checker.contract? d template = some contract →
        ∀ record ∈ contract.imports, record.isPath = true →
          d.moduleFile? record.modulePath = none → d'.moduleFile? record.modulePath = none
  /-- If the file has a result and is there, it is named as a template. -/
  template : file ∈ checker.cache.entries.keys → d'.isFile file = true →
    Contract.isTemplatePath file = true

/-- The checker without results and edges. -/
def blank (checker : Checker) : Checker :=
  ⟨checker.config, .empty, .empty, checker.engine, checker.shared, true, []⟩

/-- The results are those of a new checker and what they depend on is recorded, except perhaps for
the pending templates. -/
structure Kept (fresh : Checker) (verdict : Program → List TemplateError) (d : Disk)
    (pending : Set Path) (checker : Checker) : Prop where
  /-- The settings, the engine and the shared locals are those of the new checker. -/
  blank : checker.blank = fresh
  /-- Templates are known by normal paths. -/
  normal : checker.cache.Normal
  /-- The results are right. -/
  settled : ∀ template entry, (template, entry) ∈ checker.cache.entries.entries →
    d.isFile template = true → template ∉ pending →
      entry = fresh.result verdict d template ∧ Recorded checker d template

@[simp] theorem config_blank : checker.blank.config = checker.config := rfl

@[simp] theorem engine_blank : checker.blank.engine = checker.engine := rfl

@[simp] theorem shared_blank : checker.blank.shared = checker.shared := rfl

/-- Results depend on the settings, the engine and the shared locals only. -/
theorem result_blank :
    checker.blank.result verdict d template = checker.result verdict d template := by
  simp only [result, findings, contract?, follow, config_blank, engine_blank, shared_blank]

/-! ### Recorded edges -/

theorem Recorded.congr (h : Recorded checker d template) (hconfig : after.config = checker.config)
    (hgraph : after.graph = checker.graph) : Recorded after d template := by
  obtain ⟨hdirectives, hmodules⟩ := h
  constructor
  · rw [hgraph]
    intro p q hedge
    rw [follow, hconfig] at hedge
    exact hdirectives p q hedge
  · intro contract hcontract
    rw [contract?, hconfig] at hcontract
    rw [hgraph]
    exact hmodules contract hcontract

theorem Recorded.own (hrecords : ∀ p q, Records checker d template p q → after.graph.Edge p q)
    (hconfig : after.config = checker.config) : Recorded after d template := by
  refine ⟨fun p q h => ?_, fun contract hcontract record hrecord hpath hsome => ?_⟩
  · rw [follow, hconfig] at h
    exact hrecords p q (.directive h)
  · rw [contract?, hconfig] at hcontract
    obtain ⟨file, hfile⟩ := Option.isSome_iff_exists.mp hsome
    obtain ⟨hmem, hisFile⟩ := Disk.of_moduleFile? hfile
    exact ⟨file, hmem, hisFile, hrecords _ _ (.module hcontract hrecord hpath hfile)⟩

/-- What is recorded for one template stays recorded if the edges of another one are replaced by
those along which its directives lead. -/
theorem Recorded.of_ne (h : Recorded checker d other) (hne : other ≠ template)
    (hconfig : after.config = checker.config)
    (hkept : ∀ p q, p ≠ template → checker.graph.Edge p q → after.graph.Edge p q)
    (hown : ∀ q, (checker.follow d template).2.Edge template q → after.graph.Edge template q) :
    Recorded after d other := by
  refine ⟨fun p q hedge => ?_, fun contract hcontract record hrecord hpath hsome => ?_⟩
  · rw [follow, hconfig] at hedge
    by_cases hp : p = template
    · subst hp
      exact hown q (edge_own hedge).1
    · exact hkept p q hp (h.directives p q hedge)
  · rw [contract?, hconfig] at hcontract
    obtain ⟨file, hmem, hisFile, hedge⟩ := h.modules contract hcontract record hrecord hpath hsome
    exact ⟨file, hmem, hisFile, hkept _ _ hne hedge⟩

/-! ### Steps -/

theorem Kept.mono {pending' : Set Path} (h : Kept fresh verdict d pending checker)
    (hsub : pending ⊆ pending') : Kept fresh verdict d pending' checker :=
  ⟨h.blank, h.normal, fun template entry hentry hisFile hnot =>
    h.settled template entry hentry hisFile fun hmem => hnot (hsub hmem)⟩

theorem Kept.settled_of_ne (h : Kept fresh verdict d (insert template pending) checker)
    {entry : CacheEntry} (hentry : (other, entry) ∈ checker.cache.entries.entries)
    (hisFile : d.isFile other = true) (hne : other ≠ template) (hnot : other ∉ pending) :
    entry = fresh.result verdict d other ∧ Recorded checker d other := by
  refine h.settled other entry hentry hisFile ?_
  rw [Set.mem_insert_iff]
  exact not_or.mpr ⟨hne, hnot⟩

/-- A pending template without a result, or one that is gone, need not be pending. -/
theorem Kept.skip (h : Kept fresh verdict d (insert template pending) checker)
    (hskip : template ∈ checker.cache.entries.keys → d.isFile template = true →
      template ∈ pending) :
    Kept fresh verdict d pending checker := by
  refine ⟨h.blank, h.normal, fun other entry hentry hisFile hnot => ?_⟩
  refine h.settled other entry hentry hisFile fun hmem => ?_
  rcases Set.mem_insert_iff.mp hmem with rfl | hmem
  · exact hnot (hskip (PathMap.mem_keys_iff.mpr ⟨entry, hentry⟩) hisFile)
  · exact hnot hmem

/-- **A scan settles a template** and leaves the others settled. -/
theorem Kept.scanFile (hengine : Checks fresh.engine verdict)
    (h : Kept fresh verdict d (insert template pending) checker)
    (htemplate : template.normalize = template) :
    ∃ after errors, checker.scanFile d template = (d, after, errors) ∧
      Kept fresh verdict d pending after := by
  obtain rfl := h.blank
  have hengine : Checks checker.engine verdict := hengine
  have hstep := scanFile_step checker d template
  obtain ⟨graph, asked, hscan, hedge⟩ := scanFile_spec (hengine d) htemplate
  rw [hscan, htemplate] at hstep
  refine ⟨_, _, hscan, rfl, hstep.normal htemplate h.normal,
    fun other entry hentry hisFile hnot => ?_⟩
  have hentries : (checker.cache.track d (graph.get template)).entries.Normal := by
    rw [Cache.entries_track]
    exact h.normal.entries
  rcases (hentries.mem_insert htemplate).mp hentry with ⟨rfl, rfl⟩ | ⟨hne, hentry⟩
  · exact ⟨result_blank.symm, Recorded.own (fun p q h => (hedge p q).mpr (Or.inr h)) rfl⟩
  · rw [Cache.entries_track] at hentry
    obtain ⟨hresult, hrecorded⟩ := h.settled_of_ne hentry hisFile hne hnot
    refine ⟨hresult, hrecorded.of_ne hne rfl (fun p q hp h => ?_) fun q h => ?_⟩
    · exact (hedge p q).mpr (Or.inl ⟨hp, h⟩)
    · exact (hedge template q).mpr (Or.inr (.directive h))

theorem Kept.markStale (h : Kept fresh verdict d (insert template pending) checker)
    (htemplate : template.normalize = template) :
    Kept fresh verdict d (insert template pending)
      { checker with cache := checker.cache.markStale template } := by
  have hentries := Cache.entries_markStale checker.cache template
  refine ⟨h.blank, ⟨?_, h.normal.inputs⟩, fun other entry hentry hisFile hnot => ?_⟩
  · rw [hentries]
    exact h.normal.entries.mapValues _
  · rw [hentries, PathMap.mem_mapValues] at hentry
    obtain ⟨before, hbefore, rfl⟩ := hentry
    have hne : compare template other ≠ .eq := by
      rw [ne_eq, Path.compare_eq_iff htemplate (h.normal.entries.of_mem hbefore)]
      rintro rfl
      exact hnot (Set.mem_insert _ _)
    obtain ⟨hresult, hrecorded⟩ := h.settled other before hbefore hisFile hnot
    rw [beq_eq_false_iff_ne.mpr hne, CacheEntry.flag_false]
    exact ⟨hresult, hrecorded.congr rfl rfl⟩

/-- A template that is gone is forgotten. -/
theorem Kept.erase (h : Kept fresh verdict d (insert template pending) checker)
    (htemplate : template.normalize = template) (hgone : d.isFile template = false) :
    Kept fresh verdict d pending
      { checker with
        cache := checker.cache.erase template, graph := checker.graph.clear template } := by
  refine ⟨h.blank, ⟨h.normal.entries.filter _, h.normal.inputs⟩,
    fun other entry hentry hisFile hnot => ?_⟩
  obtain ⟨hne, hentry⟩ := (h.normal.entries.mem_erase htemplate).mp hentry
  obtain ⟨hresult, hrecorded⟩ := h.settled_of_ne hentry hisFile hne hnot
  refine ⟨hresult, hrecorded.of_ne hne rfl (fun p q hp h => ?_) fun q h => ?_⟩
  · rw [← htemplate] at hp
    exact DependencyGraph.edge_clear.mpr ⟨hp, h⟩
  · obtain ⟨e, hread⟩ := Disk.exists_readText_error hgone
    exact absurd h (not_edge_follow htemplate hread)

/-! ### Runs -/

theorem Kept.scanNeeded (hengine : Checks fresh.engine verdict)
    (h : Kept fresh verdict d pending checker) {templates : List Path}
    (htemplates : ∀ template ∈ templates, template.normalize = template) :
    ∃ after processed, checker.scanNeeded d templates = (d, after, processed) ∧
      Kept fresh verdict d pending after := by
  suffices hrun : (checker.scanNeeded d templates).1 = d ∧
      Kept fresh verdict d pending (checker.scanNeeded d templates).2.1 from
    ⟨_, _, Prod.ext hrun.1 rfl, hrun.2⟩
  refine Checker.scanNeeded_preserves
    (P := fun now after => now = d ∧ Kept fresh verdict d pending after) ?_ ⟨rfl, h⟩
  rintro now before template hmem ⟨hnow, hbefore⟩
  obtain ⟨scanned, errors, hscan, hscanned⟩ :=
    (hbefore.mono (Set.subset_insert template pending)).scanFile hengine (htemplates template hmem)
  rw [hnow, hscan]
  exact ⟨rfl, hscanned⟩

theorem Kept.scanAll (hengine : Checks fresh.engine verdict)
    (h : Kept fresh verdict d pending checker) (roots : List Path) :
    Kept fresh verdict d pending (checker.scanAll d roots).2.1 := by
  rw [Checker.scanAll]
  dsimp only
  split
  · exact h
  · exact h
  · next templates _ hfound =>
    obtain ⟨after, processed, hrun, hafter⟩ := h.scanNeeded hengine (normal_findTemplates hfound).1
    rw [hrun]
    exact hafter

/-- The file that has changed is settled. -/
theorem Kept.refresh (hengine : Checks fresh.engine verdict)
    (h : Kept fresh verdict d (insert template pending) checker)
    (htemplate : template.normalize = template)
    (hnamed : template ∈ checker.cache.entries.keys → d.isFile template = true →
      template ∉ pending → Contract.isTemplatePath template = true) :
    ∃ after scanned, checker.refresh d template = (d, after, scanned) ∧
      Kept fresh verdict d pending after := by
  rw [Checker.refresh]
  by_cases hpath : Contract.isTemplatePath template = true
  · rw [if_neg (by simp [hpath])]
    by_cases hisFile : d.isFile template = true
    · rw [if_pos hisFile]
      obtain ⟨after, errors, hscan, hafter⟩ := h.scanFile hengine htemplate
      rw [hscan]
      exact ⟨after, [template], rfl, hafter⟩
    · rw [if_neg hisFile]
      split
      · exact ⟨_, [], rfl, h.erase htemplate (by simpa using hisFile)⟩
      · exact ⟨checker, [], rfl, h.skip fun _ h => absurd h hisFile⟩
  · rw [if_pos (by simpa using hpath)]
    refine ⟨checker, [], rfl, h.skip fun hcached hisFile => ?_⟩
    by_contra hnot
    exact hpath (hnamed hcached hisFile hnot)

/-- The dependents are settled. -/
theorem Kept.refreshDependents (hengine : Checks fresh.engine verdict) {files : List Path}
    (hfiles : ∀ file ∈ files, file.normalize = file)
    (h : Kept fresh verdict d ({file | file ∈ files} ∪ pending) checker) :
    ∃ after scanned, checker.refreshDependents d files = (d, after, scanned) ∧
      Kept fresh verdict d pending after := by
  induction files generalizing checker with
  | nil => exact ⟨checker, [], rfl, h.mono (by simp)⟩
  | cons file rest ih =>
    obtain ⟨hfile, hrest⟩ := List.forall_mem_cons.mp hfiles
    have hinsert : ({other | other ∈ file :: rest} ∪ pending : Set Path) =
        insert file ({other | other ∈ rest} ∪ pending) := by
      ext other
      simp [or_assoc]
    rw [hinsert] at h
    have hmarked := h.markStale hfile
    rw [Checker.refreshDependents]
    dsimp only
    by_cases hisFile : d.isFile file = true
    · rw [if_pos hisFile]
      obtain ⟨scanned, errors, hscan, hscanned⟩ := hmarked.scanFile hengine hfile
      obtain ⟨after, processed, hrun, hafter⟩ := ih hrest hscanned
      rw [hscan]
      dsimp only
      rw [hrun]
      exact ⟨after, file :: processed, rfl, hafter⟩
    · rw [if_neg hisFile]
      exact ih hrest (hmarked.skip fun _ h => absurd h hisFile)

/-- **A notification settles** the file and its dependents. -/
theorem Kept.notifyChanged (hengine : Checks fresh.engine verdict)
    (h : Kept fresh verdict d
      (insert path.normalize ({p | p ∈ checker.graph.dependentsOf path.normalize} ∪ pending))
      checker)
    (hnamed : path.normalize ∈ checker.cache.entries.keys → d.isFile path.normalize = true →
      path.normalize ∉ pending → Contract.isTemplatePath path.normalize = true) :
    Kept fresh verdict d pending (checker.notifyChanged d path).2.1 := by
  have hdependents : ∀ file ∈ checker.graph.dependentsOf path.normalize, file.normalize = file :=
    fun file hfile => DependencyGraph.left_normal_of_transGen
      (DependencyGraph.mem_dependentsOf_iff.mp hfile).2
  obtain ⟨first, scanned, hrefresh, hfirst⟩ := h.refresh hengine path.normalize_normalize
    fun hcached hisFile hnot => hnamed hcached hisFile fun hmem => hnot (Or.inr hmem)
  obtain ⟨after, more, hrun, hafter⟩ := hfirst.refreshDependents hengine hdependents
  rw [Checker.notifyChanged]
  dsimp only
  rw [hrefresh]
  dsimp only
  rw [hrun]
  exact hafter

/-! ### Changes -/

/-- What directives lead to is reached in the graph. -/
theorem Recorded.reached (h : Recorded checker d template)
    (htemplate : template.normalize = template)
    (hedge : (checker.follow d template).2.Edge p q) :
    checker.graph.Edge p q ∧ TransGen checker.graph.Edge template q := by
  have hreached : ReflTransGen checker.graph.Edge template p := by
    have hchain := (edge_own hedge).2
    rw [htemplate] at hchain
    exact ReflTransGen.mono h.directives _ _ hchain
  have hchecker := h.directives p q hedge
  exact ⟨hchecker, TransGen.tail' hreached hchecker⟩

section

variable (h : Recorded checker d template) (hchange : Change checker d d' path)
  (hunreached : ∀ q, TransGen checker.graph.Edge template q → q ≠ path)

include h hchange hunreached

/-- Directives lead to the same files as before. -/
theorem Change.agrees (htemplate : template.normalize = template) :
    Agrees d d' (checker.follow d template).2 := by
  intro p q hedge
  obtain ⟨hchecker, hchain⟩ := h.reached htemplate hedge
  have hne := hunreached q hchain
  by_cases hisFile : d.isFile q = true
  · rw [← hedge.right_normal] at hne
    exact hchange.kept q hne hisFile
  · exact hchange.absent q hne (Or.inr ⟨p, hchecker⟩) (by simpa using hisFile)

omit h in
theorem Change.isFile_of_edge {file : Path} (hisFile : d.isFile file = true)
    (hedge : checker.graph.Edge template file.normalize) : d'.isFile file = true := by
  rw [Disk.isFile, hchange.kept file (hunreached _ (.single hedge)) hisFile]
  exact hisFile

/-- The same modules are missing as before. -/
theorem Change.isSome_moduleFile? (hcached : template ∈ checker.cache.entries.keys)
    (hne : template ≠ path) (hindependent : template ∉ checker.graph.dependentsOf path)
    {contract : Contract} (hcontract : checker.contract? d template = some contract)
    {record : Contract.Import} (hrecord : record ∈ contract.imports)
    (hmodule : record.isPath = true) :
    (d'.moduleFile? record.modulePath).isSome = (d.moduleFile? record.modulePath).isSome := by
  cases hsome : (d.moduleFile? record.modulePath).isSome with
  | false =>
    rw [Option.isSome_eq_false_iff, Option.isNone_iff_eq_none] at hsome ⊢
    exact hchange.modules template hcached hne hindependent contract hcontract record hrecord
      hmodule hsome
  | true =>
    obtain ⟨file, hmem, hisFile, hedge⟩ :=
      h.modules contract hcontract record hrecord hmodule hsome
    exact Disk.isSome_moduleFile?_iff.mpr
      ⟨file, hmem, hchange.isFile_of_edge hunreached hisFile hedge⟩

end

/-- **A change has no bearing on a template that does not depend on the file.** -/
theorem Recorded.change (h : Recorded checker d template) (hchange : Change checker d d' path)
    (hpath : path.normalize = path) (htemplate : template.normalize = template)
    (hcached : template ∈ checker.cache.entries.keys) (hisFile : d.isFile template = true)
    (hne : template ≠ path) (hindependent : template ∉ checker.graph.dependentsOf path) :
    checker.result verdict d' template = checker.result verdict d template ∧
      Recorded checker d' template := by
  have hunreached : ∀ q, TransGen checker.graph.Edge template q → q ≠ path := by
    rintro q hchain rfl
    refine hindependent (DependencyGraph.mem_dependentsOf_iff.mpr ?_)
    rw [hpath]
    exact ⟨hne, hchain⟩
  have hagrees := Change.agrees h hchange hunreached htemplate
  have hmodules : ∀ contract, checker.contract? d template = some contract →
      ∀ record ∈ contract.imports, record.isPath = true →
        (d'.moduleFile? record.modulePath).isSome = (d.moduleFile? record.modulePath).isSome :=
    fun _ hcontract _ hrecord hmodule =>
      Change.isSome_moduleFile? h hchange hunreached hcached hne hindependent hcontract hrecord
        hmodule
  have hfile : d'.file template = d.file template := by
    rw [← htemplate] at hne
    exact hchange.kept template hne hisFile
  obtain ⟨hresult, hfollow⟩ := result_congr htemplate hisFile hfile hagrees hmodules
  have hcontract : checker.contract? d' template = checker.contract? d template :=
    congrArg CacheEntry.contract hresult
  refine ⟨hresult, fun p q hedge => h.directives p q ((hfollow p q).mp hedge), ?_⟩
  intro contract hsome record hrecord hmodule hfound
  rw [hcontract] at hsome
  rw [hmodules contract hsome record hrecord hmodule] at hfound
  obtain ⟨file, hmem, hthere, hedge⟩ := h.modules contract hsome record hrecord hmodule hfound
  exact ⟨file, hmem, hchange.isFile_of_edge hunreached hthere hedge, hedge⟩

/-- A change leaves settled what does not depend on the file. -/
theorem Kept.change (h : Kept fresh verdict d ∅ checker) (hpath : path.normalize = path)
    (hchange : Change checker d d' path) :
    Kept fresh verdict d' (insert path {q | q ∈ checker.graph.dependentsOf path}) checker := by
  obtain ⟨rfl, hnormal, hsettled⟩ := h
  refine ⟨rfl, hnormal, fun template entry hentry hisFile' hnot => ?_⟩
  rw [Set.mem_insert_iff, not_or] at hnot
  obtain ⟨hne, hindependent⟩ := hnot
  have hcached := PathMap.mem_keys_iff.mpr ⟨entry, hentry⟩
  have hisFile : d.isFile template = true := by
    by_contra hgone
    have hsame := hchange.absent template hne (Or.inl hcached) (by simpa using hgone)
    rw [Disk.isFile, hsame] at hisFile'
    exact hgone hisFile'
  obtain ⟨rfl, hrecorded⟩ := hsettled template entry hentry hisFile (Set.notMem_empty template)
  obtain ⟨hresult, hrecorded'⟩ := hrecorded.change hchange hpath
    (hnormal.entries.of_mem hentry) hcached hisFile hne hindependent
  rw [result_blank, result_blank]
  exact ⟨hresult.symm, hrecorded'⟩

/-- A notification of the change settles what was settled before it. -/
theorem Kept.notified (hengine : Checks fresh.engine verdict)
    (h : Kept fresh verdict d ∅ checker) (hchange : Change checker d d' path.normalize) :
    Kept fresh verdict d' ∅ (checker.notifyChanged d' path).2.1 := by
  refine Kept.notifyChanged hengine ?_ fun hcached hisFile _ => hchange.template hcached hisFile
  rw [Set.union_empty]
  exact h.change path.normalize_normalize hchange

/-- When everything is pending, only the templates' paths matter. -/
theorem kept_univ_iff :
    Kept fresh verdict d Set.univ checker ↔ checker.blank = fresh ∧ checker.cache.Normal := by
  constructor
  · exact fun h => ⟨h.blank, h.normal⟩
  · exact fun ⟨hblank, hnormal⟩ =>
      ⟨hblank, hnormal, fun template _ _ _ hnot => absurd (Set.mem_univ template) hnot⟩

end Checker

end PugContracts
