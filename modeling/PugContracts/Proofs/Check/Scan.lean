import PugContracts.Check.Checker
import PugContracts.Proofs.Cache.Sweep
import PugContracts.Proofs.Disk.Spelling
import PugContracts.Proofs.Resolution.Whole

/-!
# What a scan changes

A scan of one template puts one result into the cache, notes the times of what the template names,
and replaces the edges that lead from it (`scanFile_step`). All else about runs follows from that:
the cache stays normal, the settings and the engine stay the same, and a scan never changes the
verdict on another template. A run over several templates therefore processes exactly those that
needed it at its start (`mem_processed_iff`), and tracks no inputs but what one of them names
(`covers_scanAll`).
-/

namespace PugContracts

namespace Cache

variable {cache : Cache}

theorem entries_track (cache : Cache) (d : Disk) (files : List Path) :
    (cache.track d files).entries = cache.entries := by
  induction files generalizing cache with
  | nil => rfl
  | cons file files ih => exact ih (cache.insertInput file (d.inputTime file))

theorem mem_inputs_track {d : Disk} {files : List Path} {file : Path}
    (h : file ∈ (cache.track d files).inputs.keys) : file ∈ files ∨ file ∈ cache.inputs.keys := by
  induction files generalizing cache with
  | nil => exact Or.inr h
  | cons first files ih =>
    rcases @ih (cache.insertInput first (d.inputTime first)) h with h | h
    · exact Or.inl (List.mem_cons_of_mem _ h)
    · rcases PathMap.mem_keys_insert h with rfl | h
      · exact Or.inl List.mem_cons_self
      · exact Or.inr h

theorem contains_inputs_track {d : Disk} {files : List Path} {file : Path}
    (h : file ∈ files ∨ cache.inputs.contains file = true) :
    (cache.track d files).inputs.contains file = true := by
  induction files generalizing cache with
  | nil => exact h.resolve_left List.not_mem_nil
  | cons first files ih =>
    refine @ih (cache.insertInput first (d.inputTime first)) ?_
    rcases h with h | h
    · rcases List.mem_cons.mp h with rfl | h
      · exact Or.inr (PathMap.contains_insert.mpr (Or.inl Std.ReflCmp.compare_self))
      · exact Or.inl h
    · exact Or.inr (PathMap.contains_insert.mpr (Or.inr h))

theorem Normal.track (h : cache.Normal) (d : Disk) {files : List Path}
    (hfiles : ∀ file ∈ files, file.normalize = file) : (cache.track d files).Normal := by
  induction files generalizing cache with
  | nil => exact h
  | cons file files ih =>
    exact @ih (cache.insertInput file (d.inputTime file))
      ⟨h.entries, h.inputs.insert (hfiles file List.mem_cons_self)⟩
      fun other hother => hfiles other (List.mem_cons_of_mem _ hother)

theorem Normal.insert (h : cache.Normal) {file : Path} (hfile : file.normalize = file)
    (entry : CacheEntry) : (cache.insert file entry).Normal :=
  ⟨h.entries.insert hfile, h.inputs⟩

theorem normal_empty : empty.Normal :=
  ⟨PathMap.normal_empty, PathMap.normal_empty⟩

end Cache

namespace Checker

/-- A checker after scanning one template. -/
structure Step (before : Checker) (template : Path) (after : Checker) : Prop where
  /-- The settings are the same. -/
  config : after.config = before.config
  /-- The engine is the same. -/
  engine : after.engine = before.engine
  /-- Results are taken from the cache as before. -/
  reuse : after.reuse = before.reuse
  /-- No other file loses edges. -/
  edge : ∀ {p q}, p ≠ template → before.graph.Edge p q → after.graph.Edge p q
  /-- One result is recorded, and files are tracked that the template names: all of them, if it
  could be read. -/
  cache : ∃ d files entry, after.cache = (before.cache.track d files).insert template entry ∧
    (∀ file ∈ files, after.graph.Edge template file) ∧
    (entry.contract.isSome = true → ∀ file, after.graph.Edge template file → file ∈ files)

section

-- Unfolding an equation of `recordImports` would otherwise run into the search for modules.
attribute [local irreducible] Disk.moduleFile?

theorem recordImports_cons (d : Disk) (g : DependencyGraph) (template : Path)
    (record : Contract.Import) (rest : List Contract.Import) :
    recordImports d g template (record :: rest) =
      if record.isPath then
        match d.moduleFile? record.modulePath with
        | some file => recordImports d (g.add template file) template rest
        | none =>
          ((recordImports d g template rest).1,
            missingModule record :: (recordImports d g template rest).2)
      else recordImports d g template rest := by
  rfl

/-- There is an edge to each module that is found. -/
theorem edge_recordImports_iff {d : Disk} {g : DependencyGraph} {template p q : Path}
    {imports : List Contract.Import} :
    (recordImports d g template imports).1.Edge p q ↔
      g.Edge p q ∨ p = template.normalize ∧ ∃ record ∈ imports, record.isPath = true ∧
        ∃ file, d.moduleFile? record.modulePath = some file ∧ q = file.normalize := by
  induction imports generalizing g with
  | nil =>
    show g.Edge p q ↔ _
    simp
  | cons record rest ih =>
    rw [recordImports_cons, List.exists_mem_cons_iff]
    split
    · next hpath =>
      rw [and_iff_right hpath]
      split
      · next file hfile =>
        rw [ih, DependencyGraph.edge_add, Prod.mk.injEq]
        simp only [hfile, Option.some.injEq, exists_eq_left']
        rw [and_or_left, or_assoc, or_left_comm]
      · next hnone =>
        rw [ih]
        simp only [hnone, reduceCtorEq, false_and, exists_false, false_or]
    · next hpackage =>
      rw [ih]
      simp only [hpackage, Bool.false_eq_true, false_and, false_or]

/-- What is reported are the imports of which the module is missing. -/
theorem mem_errors_recordImports_iff {d : Disk} {g : DependencyGraph} {template : Path}
    {imports : List Contract.Import} {error : TemplateError} :
    error ∈ (recordImports d g template imports).2 ↔ ∃ record ∈ imports,
      record.isPath = true ∧ d.moduleFile? record.modulePath = none ∧
        error = missingModule record := by
  induction imports generalizing g with
  | nil =>
    show error ∈ [] ↔ _
    simp
  | cons record rest ih =>
    rw [recordImports_cons, List.exists_mem_cons_iff]
    split
    · next hpath =>
      rw [and_iff_right hpath]
      split
      · next file hfile =>
        rw [ih]
        simp only [hfile, reduceCtorEq, false_and, false_or]
      · next hnone =>
        rw [List.mem_cons, ih, and_iff_right hnone]
    · next hpackage =>
      rw [ih]
      simp only [hpackage, Bool.false_eq_true, false_and, false_or]

/-- What is reported of the imports depends on which modules are missing. -/
theorem recordImports_congr {d d' : Disk} {g g' : DependencyGraph} {template : Path}
    {imports : List Contract.Import}
    (h : ∀ record ∈ imports, record.isPath = true →
      (d'.moduleFile? record.modulePath).isSome = (d.moduleFile? record.modulePath).isSome) :
    (recordImports d' g' template imports).2 = (recordImports d g template imports).2 := by
  induction imports generalizing g g' with
  | nil => rfl
  | cons record rest ih =>
    obtain ⟨hrecord, hrest⟩ := List.forall_mem_cons.mp h
    rw [recordImports_cons, recordImports_cons]
    split
    · next hpath =>
      have hsame := hrecord hpath
      revert hsame
      cases d.moduleFile? record.modulePath <;> cases d'.moduleFile? record.modulePath
      · exact fun _ => congrArg (_ :: ·) (ih hrest)
      · exact fun hsame => absurd hsame Bool.true_eq_false.mp
      · exact fun hsame => absurd hsame Bool.false_eq_true.mp
      · exact fun _ => ih hrest
    · exact ih hrest

end

/-- Building a template takes no edges away but its own. -/
theorem edge_build (checker : Checker) (d : Disk) (template : Path) (source : String)
    {p q : Path} (hp : p ≠ template.normalize) (h : checker.graph.Edge p q) :
    (checker.build d template source).2.graph.Edge p q := by
  have himports : (recordImports d (checker.graph.clear template) template
      (Contract.extract source template checker.config.viewsRoot).1.imports).1.Edge p q :=
    edge_recordImports_iff.mpr (Or.inl (DependencyGraph.edge_clear.mpr ⟨hp, h⟩))
  delta build
  dsimp only
  refine Resolution.edge_ofTemplate _ _ ?_
  cases checker.shared with
  | none => exact himports
  | some shared => exact DependencyGraph.edge_add.mpr (Or.inr himports)

/-- Asking the engine changes what it was asked, and nothing else. -/
theorem askEngine_eq {checker asked : Checker} {d d' : Disk} {program : Option Program}
    {errors : List TemplateError} (h : checker.askEngine d program = (d', asked, errors)) :
    ∃ templates, asked = { checker with asked := templates } := by
  cases program with
  | none =>
    obtain ⟨-, rfl, -⟩ := h
    exact ⟨_, rfl⟩
  | some program =>
    obtain ⟨-, rfl, -⟩ := h
    exact ⟨_, rfl⟩

/-- A template is scanned under its normal path, however it is spelled. -/
theorem scanFile_normalize (checker : Checker) (d : Disk) (path : Path) :
    checker.scanFile d path.normalize = checker.scanFile d path := by
  delta scanFile
  rw [path.normalize_normalize]

/-- **A scan records one result.** -/
theorem scanFile_step (checker : Checker) (d : Disk) (path : Path) :
    Step checker path.normalize (checker.scanFile d path).2.1 := by
  delta scanFile
  dsimp only
  split
  · refine ⟨rfl, rfl, rfl, fun hp h => ?_, d, [], _, rfl, by simp, by simp⟩
    rw [← path.normalize_normalize] at hp
    exact DependencyGraph.edge_clear.mpr ⟨hp, h⟩
  · next source _ =>
    have hbuild : ∃ graph, (checker.build d path.normalize source).2 =
        { checker with graph := graph } := ⟨_, rfl⟩
    have hedge : ∀ {p q}, p ≠ path.normalize.normalize → checker.graph.Edge p q →
        (checker.build d path.normalize source).2.graph.Edge p q := edge_build checker d _ source
    generalize checker.build d path.normalize source = built at *
    obtain ⟨built, _⟩ := built
    obtain ⟨graph, rfl⟩ := hbuild
    generalize hask : askEngine _ d _ = outcome
    obtain ⟨d', asked, errors⟩ := outcome
    obtain ⟨templates, rfl⟩ := askEngine_eq hask
    rw [path.normalize_normalize] at hedge
    refine ⟨rfl, rfl, rfl, hedge, d', _, _, rfl, fun file hfile => ?_, fun _ file hfile => ?_⟩
    · have hnamed := DependencyGraph.mem_get_iff.mp hfile
      rwa [path.normalize_normalize] at hnamed
    · rw [← path.normalize_normalize] at hfile
      exact DependencyGraph.mem_get_iff.mpr hfile

/-! ### Runs over several templates -/

variable {checker after : Checker} {template : Path}

theorem Step.normal (h : Step checker template after) (htemplate : template.normalize = template)
    (hnormal : checker.cache.Normal) : after.cache.Normal := by
  obtain ⟨d, files, entry, hcache, hfiles, -⟩ := h.cache
  rw [hcache]
  exact (hnormal.track d fun file hfile => (hfiles file hfile).right_normal).insert htemplate entry

/-- A scan leaves the results for other files alone. -/
theorem Step.find?_of_ne (h : Step checker template after) {other : Path}
    (hne : compare other template ≠ .eq) : after.cache.find? other = checker.cache.find? other := by
  obtain ⟨d, files, entry, hcache, -, -⟩ := h.cache
  rw [hcache, Cache.find?, Cache.insert, PathMap.find?_insert, if_neg hne, Cache.entries_track]
  rfl

/-- A scan does not change the verdict on another template. -/
theorem Step.needs_of_ne (h : Step checker template after)
    (htemplate : template.normalize = template) {other : Path} (hother : other.normalize = other)
    (hne : other ≠ template) (engine : String) :
    after.cache.needs other engine = checker.cache.needs other engine := by
  have hcompare : compare other template ≠ .eq := fun heq =>
    hne ((Path.compare_eq_iff hother htemplate).mp heq)
  rw [Cache.needs, Cache.needs, h.find?_of_ne hcompare]

/-- What is tracked stays tracked. -/
theorem Step.contains_inputs (h : Step checker template after) {file : Path}
    (htracked : checker.cache.inputs.contains file = true) :
    after.cache.inputs.contains file = true := by
  obtain ⟨d, files, entry, hcache, -, -⟩ := h.cache
  rw [hcache]
  exact Cache.contains_inputs_track (Or.inr htracked)

/-- **What every scan preserves, a run preserves.** -/
theorem scanNeeded_preserves {P : Disk → Checker → Prop} {d : Disk} {templates : List Path}
    (hscan : ∀ d checker, ∀ template ∈ templates, P d checker →
      P (checker.scanFile d template).1 (checker.scanFile d template).2.1) (h : P d checker) :
    P (checker.scanNeeded d templates).1 (checker.scanNeeded d templates).2.1 := by
  induction templates generalizing checker d with
  | nil => exact h
  | cons template rest ih =>
    have hrest : ∀ d checker, ∀ template ∈ rest, P d checker →
        P (checker.scanFile d template).1 (checker.scanFile d template).2.1 :=
      fun d checker template hmem => hscan d checker template (List.mem_cons_of_mem _ hmem)
    rw [scanNeeded]
    split
    · exact ih hrest h
    · exact ih hrest (hscan d checker template List.mem_cons_self h)

/-- What a run over several templates keeps. -/
theorem scanNeeded_keeps (checker : Checker) (d : Disk) (templates : List Path) :
    (checker.scanNeeded d templates).2.1.config = checker.config ∧
      (checker.scanNeeded d templates).2.1.engine = checker.engine ∧
      (checker.scanNeeded d templates).2.1.reuse = checker.reuse ∧
      (checker.cache.Normal → (checker.scanNeeded d templates).2.1.cache.Normal) := by
  refine scanNeeded_preserves (P := fun _ after => after.config = checker.config ∧
    after.engine = checker.engine ∧ after.reuse = checker.reuse ∧
      (checker.cache.Normal → after.cache.Normal)) ?_ ⟨rfl, rfl, rfl, id⟩
  rintro d before template - ⟨hconfig, hengine, hreuse, hnormal⟩
  have hstep := scanFile_step before d template
  exact ⟨hstep.config.trans hconfig, hstep.engine.trans hengine, hstep.reuse.trans hreuse,
    fun h => hstep.normal template.normalize_normalize (hnormal h)⟩

/-- A run over some templates and then over others is a run over all of them. -/
theorem scanNeeded_append (checker : Checker) (d : Disk) (earlier later : List Path) :
    (checker.scanNeeded d (earlier ++ later)).2.1 =
      ((checker.scanNeeded d earlier).2.1.scanNeeded (checker.scanNeeded d earlier).1
        later).2.1 := by
  induction earlier generalizing checker d with
  | nil => rfl
  | cons template rest ih =>
    rw [List.cons_append, scanNeeded, scanNeeded]
    split
    · exact ih checker d
    · exact ih (checker.scanFile d template).2.1 (checker.scanFile d template).1

/-- A template that is not among those of a run is judged afterwards as before. -/
theorem needs_scanNeeded_of_not_mem {d : Disk} {templates : List Path}
    (hnormal : ∀ template ∈ templates, template.normalize = template)
    (htemplate : template.normalize = template) (hnot : template ∉ templates) (engine : String) :
    (checker.scanNeeded d templates).2.1.cache.needs template engine =
      checker.cache.needs template engine := by
  refine scanNeeded_preserves
    (P := fun _ after => after.cache.needs template engine = checker.cache.needs template engine)
    (fun d before other hmem hbefore => ?_) rfl
  have hother := hnormal other hmem
  have hne : template ≠ other := fun heq => hnot (heq ▸ hmem)
  have hstep := scanFile_step before d other
  rw [hother] at hstep
  exact (hstep.needs_of_ne hother htemplate hne engine).trans hbefore

/-- **A run processes the templates that needed it at its start.** -/
theorem mem_scanNeeded_iff {checker : Checker} {d : Disk} {templates : List Path}
    (hnormal : ∀ template ∈ templates, template.normalize = template) (hnodup : templates.Nodup) :
    template ∈ (checker.scanNeeded d templates).2.2 ↔
      template ∈ templates ∧
        (checker.reuse = true → checker.cache.needs template checker.engine.name = true) := by
  induction templates generalizing checker d with
  | nil => simp [scanNeeded]
  | cons first rest ih =>
    obtain ⟨hfirst, hrest⟩ := List.nodup_cons.mp hnodup
    have hnormal' : ∀ template ∈ rest, template.normalize = template := fun template h =>
      hnormal template (List.mem_cons_of_mem _ h)
    rw [scanNeeded]
    split
    · next hfresh =>
      rw [Bool.and_eq_true, Bool.not_eq_true'] at hfresh
      rw [ih hnormal' hrest, List.mem_cons]
      constructor
      · exact fun ⟨h, hneeds⟩ => ⟨Or.inr h, hneeds⟩
      · rintro ⟨rfl | h, hneeds⟩
        · exact absurd (hneeds hfresh.1) (by simp [hfresh.2])
        · exact ⟨h, hneeds⟩
    · next hstale =>
      have hstep := scanFile_step checker d first
      have hfirst' := hnormal first List.mem_cons_self
      rw [hfirst'] at hstep
      generalize checker.scanFile d first = scan at hstep
      obtain ⟨d', scanned, errors⟩ := scan
      show template ∈ first :: (scanned.scanNeeded d' rest).2.2 ↔ _
      rw [List.mem_cons, List.mem_cons]
      by_cases heq : template = first
      · subst heq
        simp only [true_or, true_and, true_iff]
        intro hreuse
        simpa [hreuse] using hstale
      · rw [or_iff_right heq, or_iff_right heq, ih hnormal' hrest]
        refine and_congr_right fun h => ?_
        rw [hstep.reuse, hstep.engine,
          hstep.needs_of_ne hfirst' (hnormal' template h) heq]

/-- All that the cache knows is about some templates: its results are theirs, and each input that it
tracks is named by one of them. -/
structure Covers (checker : Checker) (templates : List Path) : Prop where
  /-- The results are those of the templates. -/
  entries : ∀ file ∈ checker.cache.entries.keys, file ∈ templates
  /-- The inputs are named by the templates. -/
  inputs : ∀ file ∈ checker.cache.inputs.keys, ∃ template ∈ templates,
    checker.graph.Edge template file

theorem Covers.mono {templates others : List Path} (h : Covers checker templates)
    (hsub : templates ⊆ others) : Covers checker others := by
  refine ⟨fun file hfile => hsub (h.entries file hfile), fun file hfile => ?_⟩
  obtain ⟨template, htemplate, hedge⟩ := h.inputs file hfile
  exact ⟨template, hsub htemplate, hedge⟩

/-- A template that is scanned is covered too, and the edges of the others are still there. -/
theorem Step.covers {templates : List Path} (h : Step checker template after)
    (hcovers : Covers checker templates) (hnew : template ∉ templates) :
    Covers after (template :: templates) := by
  obtain ⟨d, files, entry, hcache, hfiles, -⟩ := h.cache
  constructor
  · intro file hfile
    rw [hcache, Cache.insert, Cache.entries_track] at hfile
    rcases PathMap.mem_keys_insert hfile with rfl | hfile
    · exact List.mem_cons_self
    · exact List.mem_cons_of_mem _ (hcovers.entries file hfile)
  · intro file hfile
    rw [hcache, Cache.insert] at hfile
    rcases Cache.mem_inputs_track hfile with hfile | hfile
    · exact ⟨template, List.mem_cons_self, hfiles file hfile⟩
    · obtain ⟨other, hother, hedge⟩ := hcovers.inputs file hfile
      have hne : other ≠ template := fun heq => hnew (heq ▸ hother)
      exact ⟨other, List.mem_cons_of_mem _ hother, h.edge hne hedge⟩

/-- A run over templates that have not been scanned covers them. -/
theorem covers_scanNeeded {checker : Checker} {d : Disk} {done templates : List Path}
    (hnormal : ∀ template ∈ templates, template.normalize = template)
    (hnodup : (done ++ templates).Nodup) (hcovers : Covers checker done) :
    Covers (checker.scanNeeded d templates).2.1 (done ++ templates) := by
  induction templates generalizing checker d done with
  | nil => rwa [List.append_nil]
  | cons first rest ih =>
    have hnormal' : ∀ template ∈ rest, template.normalize = template := fun template h =>
      hnormal template (List.mem_cons_of_mem _ h)
    have hmoved : (done ++ first :: rest).Perm (first :: done ++ rest) := List.perm_middle
    have hnodup' := hmoved.nodup_iff.mp hnodup
    rw [List.cons_append, List.nodup_cons, List.mem_append, not_or] at hnodup'
    rw [scanNeeded]
    split
    · refine (ih hnormal' hnodup'.2 hcovers).mono ?_
      intro template htemplate
      exact hmoved.symm.subset (List.mem_cons_of_mem _ htemplate)
    · have hstep := scanFile_step checker d first
      rw [hnormal first List.mem_cons_self] at hstep
      generalize checker.scanFile d first = scan at hstep
      obtain ⟨d', scanned, errors⟩ := scan
      have hscanned := hstep.covers hcovers hnodup'.1.1
      exact (@ih scanned d' (first :: done) hnormal' (hmoved.nodup_iff.mp hnodup) hscanned).mono
        hmoved.symm.subset

/-! ### Runs over all templates -/

/-- What a run over all templates keeps, with or without a report. -/
theorem scanAll_keeps (checker : Checker) (d : Disk) (roots : List Path) :
    (checker.scanAll d roots).2.1.config = checker.config ∧
      (checker.cache.Normal → (checker.scanAll d roots).2.1.cache.Normal) := by
  rw [scanAll]
  dsimp only
  split
  · exact ⟨rfl, id⟩
  · exact ⟨rfl, id⟩
  · next templates _ _ =>
    obtain ⟨hconfig, -, -, hnormal⟩ := scanNeeded_keeps checker d templates
    exact ⟨hconfig, hnormal⟩

/-- A run without earlier results leaves a normal cache. -/
theorem normal_scanAll {d d' : Disk} {roots : List Path} {result : Except Failure Report}
    (hempty : checker.cache = .empty) (h : checker.scanAll d roots = (d', after, result)) :
    after.cache.Normal := by
  have hkept := (scanAll_keeps checker d roots).2
  rw [h, hempty] at hkept
  exact hkept Cache.normal_empty

/-- The templates that are found have normal paths, and each is found once. -/
theorem normal_findTemplates {d : Disk} {roots templates : List Path}
    (h : d.findTemplates roots = .ok templates) :
    (∀ template ∈ templates, template.normalize = template) ∧ templates.Nodup := by
  refine ⟨fun template htemplate => (Disk.isFile_of_mem_findTemplates h htemplate).1, ?_⟩
  obtain ⟨all, -, rfl⟩ := Disk.findTemplates_eq_ok h
  exact Path.nodup_ordered _

/-- A report is about a run over the templates that it lists; they have normal paths, and each is
listed once. -/
theorem scanAll_report {d d' : Disk} {roots : List Path} {report : Report}
    (h : checker.scanAll d roots = (d', after, .ok report)) :
    (∀ template ∈ report.results.map Prod.fst, template.normalize = template) ∧
      (report.results.map Prod.fst).Nodup ∧
      (checker.scanNeeded d (report.results.map Prod.fst)).2 = (after, report.processed) := by
  rw [scanAll] at h
  dsimp only at h
  split at h
  · exact absurd (congrArg (·.2.2) h) (by simp)
  · exact absurd (congrArg (·.2.2) h) (by simp)
  · next templates _ hfound =>
    obtain ⟨hnormal, hnodup⟩ := normal_findTemplates hfound
    have hafter := congrArg (·.2.1) h
    have hreport := Except.ok.inj (congrArg (·.2.2) h)
    have hresults : report.results.map Prod.fst = templates := by
      rw [← hreport, List.map_map]
      exact List.map_id templates
    rw [hresults, ← hreport]
    exact ⟨hnormal, hnodup, congrArg (·, _) hafter⟩

/-- **A report names as processed those of its templates that needed it before the run.** -/
theorem mem_processed_iff {d d' : Disk} {roots : List Path} {report : Report}
    (h : checker.scanAll d roots = (d', after, .ok report)) :
    template ∈ report.processed ↔
      template ∈ report.results.map Prod.fst ∧
        (checker.reuse = true → checker.cache.needs template checker.engine.name = true) := by
  obtain ⟨hnormal, hnodup, hrun⟩ := scanAll_report h
  rw [← mem_scanNeeded_iff hnormal hnodup, hrun]

theorem covers_of_empty (hempty : checker.cache = .empty) : Covers checker [] := by
  constructor <;> rw [hempty] <;> exact fun file hfile => absurd hfile List.not_mem_nil

/-- **A run without earlier results covers the templates of its report**: it has results for no
others, and tracks no inputs but what one of them names. -/
theorem covers_scanAll {d d' : Disk} {roots : List Path} {report : Report}
    (hempty : checker.cache = .empty)
    (h : checker.scanAll d roots = (d', after, .ok report)) :
    Covers after (report.results.map Prod.fst) := by
  obtain ⟨hnormal, hnodup, hrun⟩ := scanAll_report h
  have hafter := covers_scanNeeded (d := d) hnormal hnodup (covers_of_empty hempty)
  rwa [hrun] at hafter

end Checker

end PugContracts
