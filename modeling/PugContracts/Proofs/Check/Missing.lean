import PugContracts.Proofs.Check.Fresh
import PugContracts.Proofs.Check.Pending
import PugContracts.Proofs.Resolution.Located

/-!
# References to files that are not there

A template with a reference to a missing file has to be checked again when the file is created. An
extended or included file is watched for this: the resolver records the edge before it looks at the
target, and the time of what is not there is zero. `Awaits` is what a scan leaves behind in this
case. It is kept by the scans of other templates, and when the file appears the template is stale.

An import whose module is missing is reported, but no edge is recorded for it, and so no time
either. Files that appear are noticed by what depends on them if they are tracked, and by nothing
else (`outdated_iff_appeared`), so the template stays as it is.

## Main results

* `Cache.stale_sweep_iff_appeared`: what becomes stale when files appear.
* `Checker.Awaits.stale`: a template that waits for a file is stale when the file appears.
* `Checker.stale_of_appears`: which missing references of a template are watched.
-/

namespace PugContracts

open Relation Resolution

/-! ### Files that appear -/

namespace Disk

/-- Nothing that is on a disk changes; files may appear. -/
def Kept (d d' : Disk) : Prop :=
  ∀ p, d.holds p = true → d'.modified p = d.modified p

variable {d d' : Disk} {p : Path}

theorem inputTime_of_not_holds (h : d.holds p = false) : d.inputTime p = 0 := by
  rw [holds] at h
  rw [inputTime, modified]
  cases hentry : d.entry p with
  | error e => rfl
  | ok entry =>
    rw [hentry] at h
    cases h

theorem holds_iff_modified : d.holds p = true ↔ ∃ time, d.modified p = .ok time := by
  rw [holds, modified]
  cases d.entry p with
  | error e => simp [Except.isOk, Except.toBool]
  | ok entry => cases entry <;> simp [Except.isOk, Except.toBool]

theorem holds_of_readText {text : String} (h : d.readText p = .ok text) : d.holds p = true := by
  rw [readText, file] at h
  rw [holds]
  cases hentry : d.entry p with
  | ok entry => rfl
  | error e => simp [hentry] at h

theorem Kept.holds (h : Kept d d') (hp : d.holds p = true) : d'.holds p = true := by
  rw [holds_iff_modified, h p hp]
  exact holds_iff_modified.mp hp

theorem Kept.inputTime (h : Kept d d') (hp : d.holds p = true) :
    d'.inputTime p = d.inputTime p := by
  rw [Disk.inputTime, Disk.inputTime, h p hp]

end Disk

namespace Cache

variable {cache : Cache} {d d' : Disk} {g : DependencyGraph} {template : Path} {entry : CacheEntry}

/-- An input that a template depends on was not there and has appeared. -/
def Appeared (cache : Cache) (d d' : Disk) (g : DependencyGraph) (template : Path) : Prop :=
  ∃ input ∈ cache.inputs.keys, d.holds input = false ∧ d'.inputTime input ≠ 0 ∧
    template ∈ g.dependentsOf input

/-- **What is up to date becomes outdated by files that appear if and only if it depends on one that
is tracked.** -/
theorem outdated_iff_appeared (hnormal : cache.Normal)
    (hentry : (template, entry) ∈ cache.entries.entries) (hkept : Disk.Kept d d')
    (hholds : d.holds template = true) (hfresh : cache.outdated d g template entry = false) :
    cache.outdated d' g template entry = true ↔ cache.Appeared d d' g template := by
  have htemplate := hnormal.entries.of_mem hentry
  have hbefore : ¬ (Cause cache d g template entry ∨ cache.Cycles d g template) := by
    rw [← outdated_iff_cause, hfresh]
    exact Bool.false_ne_true
  -- An input whose time is another than before was not there, and has none on record.
  have hinput : ∀ input time, (input, time) ∈ cache.inputs.entries → d'.inputTime input ≠ time →
      g.affects input template = true → cache.Appeared d d' g template := by
    intro input time hmem htime haffects
    have hsame : d.inputTime input = time := by
      by_contra hne
      exact hbefore (Or.inl (.input hmem hne haffects))
    have hgone : d.holds input = false := by
      by_contra hthere
      exact htime ((hkept.inputTime (by simpa using hthere)).trans hsame)
    rw [Disk.inputTime_of_not_holds hgone] at hsame
    subst hsame
    exact ⟨input, PathMap.mem_keys_iff.mpr ⟨0, hmem⟩, hgone, htime,
      (DependencyGraph.affects_iff_mem htemplate).mp haffects⟩
  have hchanged : ∀ file e, d.holds file = true → changed d' file e = changed d file e := by
    intro file e hfile
    rw [changed, changed, hkept file hfile]
  -- What is gone is gone before, and would have been noticed then.
  have hthere : ∀ other e, (other, e) ∈ cache.entries.entries → g.affects other template = true →
      d.holds other = true := by
    intro other e he haffects
    by_contra hgone
    exact hbefore (Or.inl (.evicted he (by simpa using hgone) haffects))
  constructor
  · intro houtdated
    rcases outdated_iff_cause.mp houtdated with (hstale | hnewer | ⟨hmem, htime, haffects⟩ |
      ⟨he, hgone, haffects⟩ | ⟨he, -, hcontract, hcause, haffects⟩) |
      ⟨⟨input, time⟩, hmem, htime, heq, ⟨other, e⟩, he, -, hcontract, hother, haffects⟩
    · exact absurd (Or.inl (.stale hstale)) hbefore
    · rw [hchanged template entry hholds] at hnewer
      exact absurd (Or.inl (.changed hnewer)) hbefore
    · exact hinput _ _ hmem htime haffects
    · have hkeeps := hkept.holds (hthere _ _ he haffects)
      rw [hgone] at hkeeps
      cases hkeeps
    · have hheld := hthere _ _ he haffects
      rw [hchanged _ _ hheld] at hcause
      exact absurd (Or.inl (.template he hheld hcontract hcause haffects)) hbefore
    · have hsame : input = template := by
        rw [← hnormal.inputs.of_mem hmem]
        exact (Path.compare_eq_iff input.normalize_normalize htemplate).mp heq
      dsimp only at htime
      rw [hsame, hkept.inputTime hholds, ← hsame] at htime
      exact absurd (Or.inr ⟨(input, time), hmem, htime, heq, (other, e), he,
        hthere _ _ he haffects, hcontract, hother, haffects⟩) hbefore
  · rintro ⟨input, hmem, hgone, htime, hdependent⟩
    obtain ⟨time, hmem⟩ := PathMap.mem_keys_iff.mp hmem
    have hzero : d.inputTime input = time := by
      by_contra hne
      exact hbefore (Or.inl (.input hmem hne (DependencyGraph.affects_of_mem hdependent)))
    rw [Disk.inputTime_of_not_holds hgone] at hzero
    exact outdated_of_inputTime hmem (hzero ▸ htime) hdependent

/-- **A sweep flags a result that was up to date, when files have appeared, if and only if its
template depends on one of them and that one is tracked.** -/
theorem stale_sweep_iff_appeared (hnormal : cache.Normal)
    (hentry : (template, entry) ∈ cache.entries.entries) (hkept : Disk.Kept d d') {engine : String}
    (hfresh : (cache.sweep d g).1.needs template engine = false) :
    template ∈ (cache.sweep d' g).1.staleFiles ↔ cache.Appeared d d' g template := by
  obtain ⟨hholds, hbefore, -⟩ := (needs_sweep_eq_false_iff hnormal.entries hentry).mp hfresh
  rw [mem_staleFiles_sweep_iff hnormal.entries hentry,
    outdated_iff_appeared hnormal hentry hkept hholds hbefore]
  exact and_iff_right (hkept.holds hholds)

end Cache

namespace Resolution

/-- For an error about a file that is not there or cannot be read: the file with the directive, and
the path of the target. -/
def ResolveError.missing? : ResolveError → Option (Path × Path)
  | missingFile referrer (some _) _ _ path => some (referrer, path)
  | unreadable path (some (referrer, _)) _ => some (referrer, path)
  | _ => none

/-- The edge to a missing file is in the graph. -/
theorem Stopped.edge {viewsRoot root referrer target : Path} {text? : Path → Option String}
    {g : DependencyGraph} {error : ResolveError} (h : Stopped viewsRoot text? root g error)
    (hmissing : error.missing? = some (referrer, target)) : g.Edge referrer target := by
  cases error with
  | missingFile file line? kind written path =>
    obtain ⟨line, rfl, -, hedge⟩ := h
    simp only [ResolveError.missing?, Option.some.injEq, Prod.mk.injEq] at hmissing
    obtain ⟨rfl, rfl⟩ := hmissing
    exact hedge
  | unreadable path reference? reason =>
    obtain ⟨file, line, rfl, -, hedge⟩ := h
    simp only [ResolveError.missing?, Option.some.injEq, Prod.mk.injEq] at hmissing
    obtain ⟨rfl, rfl⟩ := hmissing
    exact hedge
  | cycle | missingOrigin => simp [ResolveError.missing?] at hmissing

/-- Such an error is reported for a missing file, in the file with the directive. -/
theorem ResolveError.toTemplateError_of_missing? {error : ResolveError} {referrer target : Path}
    (h : error.missing? = some (referrer, target)) :
    error.toTemplateError.kind = .missingFile ∧ error.toTemplateError.file = referrer := by
  cases error with
  | missingFile file line? kind written path =>
    cases line? <;> simp_all [missing?, toTemplateError]
  | unreadable path reference? reason =>
    cases reference? <;> simp_all [missing?, toTemplateError, TemplateError.onLine]
  | cycle | missingOrigin => simp [missing?] at h

end Resolution

namespace Checker

variable {checker after : Checker} {d d' : Disk} {path template file : Path} {source : String}
  {errors : List TemplateError}

/-- What a scan of a readable template does with whatever engine: the edges that lead from the
template are replaced, what is wrong with its structure is reported, and an engine may change the
disk only if there is a tree. -/
theorem scanFile_of_readText (htemplate : template.normalize = template)
    (hread : d.readText template = .ok source)
    (hscan : checker.scanFile d template = (d', after, errors)) :
    (∀ p q, after.graph.Edge p q ↔
      (checker.namedGraph d template
        (Contract.extract source template checker.config.viewsRoot).1).Edge p q ∨
          (checker.follow d template).2.Edge p q) ∧
    (∃ more, errors = (Contract.extract source template checker.config.viewsRoot).2 ++
      (recordImports d .empty template
        (Contract.extract source template checker.config.viewsRoot).1.imports).2 ++
      (checker.follow d template).1.errors ++ more) ∧
    ((checker.follow d template).1.tree = none → d' = d) := by
  obtain ⟨graph, hbuild, hedge⟩ := build_spec checker htemplate hread
  delta scanFile at hscan
  dsimp only at hscan
  rw [htemplate, hread] at hscan
  dsimp only at hscan
  rw [hbuild] at hscan
  dsimp only at hscan
  generalize hask : askEngine _ d _ = outcome at hscan
  obtain ⟨d'', asked, found⟩ := outcome
  obtain ⟨templates, rfl⟩ := askEngine_eq hask
  simp only [Prod.mk.injEq] at hscan
  obtain ⟨rfl, rfl, rfl⟩ := hscan
  refine ⟨hedge, ⟨found, rfl⟩, fun htree => ?_⟩
  simp only [Built.program, htree, Option.map_none, askEngine, Prod.mk.injEq] at hask
  exact hask.1.symm

/-! ### Waiting for a file -/

/-- A template with a result depends on another file, of which it is on record that it was not
there. -/
structure Awaits (checker : Checker) (template file : Path) : Prop where
  /-- Paths are normal. -/
  normal : checker.cache.Normal
  /-- The template has a result. -/
  cached : ∃ entry, (template, entry) ∈ checker.cache.entries.entries
  /-- It depends on the file. -/
  edge : checker.graph.Edge template file
  /-- The file is another one. -/
  ne : file ≠ template
  /-- No time is on record for it. -/
  input : (file, 0) ∈ checker.cache.inputs.entries

/-- One more template is scanned, and the file is still not there. -/
def Waits (template file : Path) (before after : Checker) : Prop :=
  ∃ d path d' errors, path.normalize ≠ template ∧
    before.scanFile d path = (d', after, errors) ∧ d'.inputTime file = 0

/-- A template has a result once it is scanned. -/
theorem cached_scanFile (hnormal : checker.cache.Normal) (htemplate : template.normalize = template)
    (hscan : checker.scanFile d template = (d', after, errors)) :
    after.cache.Normal ∧ ∃ entry, (template, entry) ∈ after.cache.entries.entries := by
  have hstep := scanFile_step checker d template
  obtain ⟨contract, hcache⟩ := cache_scanFile hscan
  rw [hscan, htemplate] at hstep
  rw [htemplate] at hcache
  refine ⟨hstep.normal htemplate hnormal,
    ⟨errors, contract, d'.inputTime template, checker.engine.name, false⟩, ?_⟩
  rw [hcache, hnormal.mem_entries_record htemplate]
  exact Or.inl ⟨rfl, rfl⟩

/-- What a template names and what is not there is waited for once the template is scanned. -/
theorem awaits_scanFile (hnormal : checker.cache.Normal) (htemplate : template.normalize = template)
    (hscan : checker.scanFile d template = (d', after, errors))
    (hedge : after.graph.Edge template file) (hne : file ≠ template)
    (hgone : d'.inputTime file = 0) : Awaits after template file := by
  obtain ⟨hafter, hcached⟩ := cached_scanFile hnormal htemplate hscan
  obtain ⟨contract, hcache⟩ := cache_scanFile hscan
  rw [htemplate] at hcache
  refine ⟨hafter, hcached, hedge, hne, ?_⟩
  have hnamed : file ∈ after.graph.get template := by
    rw [DependencyGraph.mem_get_iff, htemplate]
    exact hedge
  rw [hcache]
  refine (hnormal.mem_inputs_track_iff fun other hother => ?_).mpr (Or.inl ⟨hnamed, hgone.symm⟩)
  exact (DependencyGraph.mem_get_iff.mp hother).right_normal

/-- A template whose resolution stops at a reference of its own to a path where nothing is waits for
that path once it is scanned, and the error is reported. -/
theorem awaits_of_stop (hnormal : checker.cache.Normal) (htemplate : template.normalize = template)
    (hread : d.readText template = .ok source)
    (hscan : checker.scanFile d template = (d', after, errors)) {stop : ResolveError}
    (hstop : (exec (resolveRoot d checker.config.viewsRoot.normalize template (some source))
      ⟨.empty, [], []⟩).1 = .error stop)
    (hmissing : stop.missing? = some (template, file)) (hgone : d.holds file = false) :
    stop.toTemplateError ∈ errors ∧ Awaits after template file := by
  obtain ⟨hedges, ⟨more, herrors⟩, hdisk⟩ := scanFile_of_readText htemplate hread hscan
  have hstopped := stopped_of_error htemplate hstop
  have hfollow : checker.follow d template =
      (⟨none, (exec (resolveRoot d checker.config.viewsRoot.normalize template (some source))
          ⟨.empty, [], []⟩).2.errors ++ [stop.toTemplateError]⟩,
        (exec (resolveRoot d checker.config.viewsRoot.normalize template (some source))
          ⟨.empty, [], []⟩).2.graph) := by
    rw [follow, ← ofTemplate_of_readText htemplate hread, ofTemplate_eq, htemplate, conclude, hstop]
  rw [hfollow] at hedges herrors hdisk
  obtain rfl := hdisk rfl
  have hne : file ≠ template := by
    rintro rfl
    rw [Disk.holds_of_readText hread] at hgone
    cases hgone
  refine ⟨?_, awaits_scanFile hnormal htemplate hscan
    ((hedges _ _).mpr (Or.inr (hstopped.edge hmissing))) hne (Disk.inputTime_of_not_holds hgone)⟩
  simp [herrors]

/-- **A template keeps waiting** while other templates are scanned. -/
theorem Awaits.scanFile (h : Awaits checker template file)
    (hwaits : Waits template file checker after) : Awaits after template file := by
  obtain ⟨d, path, d', errors, hne, hscan, hgone⟩ := hwaits
  have hpath := path.normalize_normalize
  have hstep := scanFile_step checker d path
  obtain ⟨contract, hcache⟩ := cache_scanFile hscan
  rw [hscan] at hstep
  obtain ⟨entry, hentry⟩ := h.cached
  refine ⟨hstep.normal hpath h.normal, ⟨entry, ?_⟩, hstep.edge hne.symm h.edge, h.ne, ?_⟩
  · rw [hcache, h.normal.mem_entries_record hpath]
    exact Or.inr ⟨hne.symm, hentry⟩
  · rw [hcache]
    refine (h.normal.mem_inputs_track_iff fun other hother => ?_).mpr ?_
    · exact (DependencyGraph.mem_get_iff.mp hother).right_normal
    · -- If the other template names the file too, its time is noted anew.
      by_cases hnamed : file ∈ after.graph.get path.normalize
      · exact Or.inl ⟨hnamed, hgone.symm⟩
      · exact Or.inr ⟨hnamed, h.input⟩

theorem Awaits.run {later : Checker} (h : Awaits checker template file)
    (hrun : ReflTransGen (Waits template file) checker later) : Awaits later template file := by
  induction hrun with
  | refl => exact h
  | tail _ hwaits ih => exact ih.scanFile hwaits

/-- **When the file appears, the template is stale** and has to be processed. -/
theorem Awaits.stale (h : Awaits checker template file) (hholds : d.holds template = true)
    (htime : d.inputTime file ≠ 0) :
    template ∈ (checker.cache.sweep d checker.graph).1.staleFiles ∧
      ∀ engine, (checker.cache.sweep d checker.graph).1.needs template engine = true := by
  obtain ⟨entry, hentry⟩ := h.cached
  have hdependent : template ∈ checker.graph.dependentsOf file := by
    rw [DependencyGraph.mem_dependentsOf_iff, h.edge.right_normal]
    exact ⟨h.ne.symm, .single h.edge⟩
  have houtdated : checker.cache.outdated d checker.graph template entry = true :=
    Cache.outdated_of_inputTime h.input htime hdependent
  refine ⟨(Cache.mem_staleFiles_sweep_iff h.normal.entries hentry).mpr ⟨hholds, houtdated⟩,
    fun engine => ?_⟩
  by_contra hneeds
  have hfresh := (Cache.needs_sweep_eq_false_iff h.normal.entries hentry).mp (by simpa using hneeds)
  rw [houtdated] at hfresh
  exact absurd hfresh.2.1 (by decide)

/-! ### Main results -/

/-- **References to files that are not there.** A template that can be read is scanned. If its
resolution stops at a reference of its own to a path where nothing is, that is reported as a missing
file, and from then on, whatever other templates are scanned in between, the template is stale after
a sweep as soon as there is something with a time at that path. Each import of which the module is
missing is reported too, but nothing is recorded for it: what the template depends on directly are
the modules that were found, the shared locals, and what its directives name. So if files appear and
nothing else changes, what was up to date becomes stale if and only if the template depends on one
of these files and that one is tracked, which the file of a missing module is only if it is also
named in another way. -/
theorem stale_of_appears (hnormal : checker.cache.Normal)
    (hread : d.readText path.normalize = .ok source)
    (hscan : checker.scanFile d path = (d', after, errors)) :
    (∀ stop target,
      (exec (resolveRoot d checker.config.viewsRoot.normalize path.normalize (some source))
        ⟨.empty, [], []⟩).1 = .error stop →
      stop.missing? = some (path.normalize, target) → d.holds target = false →
      (stop.toTemplateError ∈ errors ∧ stop.toTemplateError.kind = .missingFile ∧
          stop.toTemplateError.file = path.normalize) ∧
        ∀ later, ReflTransGen (Waits path.normalize target) after later → ∀ now : Disk,
          now.holds path.normalize = true → now.inputTime target ≠ 0 →
          path.normalize ∈ (later.cache.sweep now later.graph).1.staleFiles ∧
            ∀ engine,
              (later.cache.sweep now later.graph).1.needs path.normalize engine = true) ∧
    (∀ record ∈ (Contract.extract source path.normalize checker.config.viewsRoot).1.imports,
      record.isPath = true → d.moduleFile? record.modulePath = none →
        missingModule record ∈ errors) ∧
    (∀ target, after.graph.Edge path.normalize target ↔
      (∃ record ∈ (Contract.extract source path.normalize checker.config.viewsRoot).1.imports,
        record.isPath = true ∧
          ∃ file, d.moduleFile? record.modulePath = some file ∧ target = file.normalize) ∨
      (∃ shared, checker.shared = some shared ∧ target = shared.importPath.normalize) ∨
      (checker.follow d path.normalize).2.Edge path.normalize target) ∧
    ∀ now, Disk.Kept d' now →
      (after.cache.sweep d' after.graph).1.needs path.normalize checker.engine.name = false →
      (path.normalize ∈ (after.cache.sweep now after.graph).1.staleFiles ↔
        after.cache.Appeared d' now after.graph path.normalize) := by
  rw [← scanFile_normalize] at hscan
  have htemplate := path.normalize_normalize
  generalize path.normalize = template at *
  obtain ⟨hedges, ⟨more, herrors⟩, -⟩ := scanFile_of_readText htemplate hread hscan
  refine ⟨fun stop target hstop hmissing hgone => ?_, fun record hrecord hpath hnone => ?_,
    fun target => ?_, fun now hkept hfresh => ?_⟩
  · obtain ⟨hreported, hawaits⟩ :=
      awaits_of_stop hnormal htemplate hread hscan hstop hmissing hgone
    refine ⟨⟨hreported, ResolveError.toTemplateError_of_missing? hmissing⟩, ?_⟩
    exact fun later hrun now hholds htime => (hawaits.run hrun).stale hholds htime
  · rw [herrors]
    simp only [List.mem_append]
    refine Or.inl (Or.inl (Or.inr ?_))
    exact mem_errors_recordImports_iff.mpr ⟨record, hrecord, hpath, hnone, rfl⟩
  · rw [hedges, edge_namedGraph htemplate]
    simp only [ne_eq, not_true_eq_false, false_and, true_and, false_or, or_assoc]
  · obtain ⟨hafter, entry, hentry⟩ := cached_scanFile hnormal htemplate hscan
    exact Cache.stale_sweep_iff_appeared hafter hentry hkept hfresh

/-- A template that includes a text. -/
def includingDisk : Disk :=
  ⟨[(⟨"/v"⟩, .directory), (⟨"/v/a.pug"⟩, .file ⟨.text "include b.txt", 7, none⟩)], 9, none⟩

/-- A checker without results. -/
def unused : Checker :=
  ⟨.default, .empty, .empty, .silent, none, true, []⟩

/-- The disk with the text. -/
def includedDisk : Disk :=
  includingDisk.put ⟨"/v/b.txt"⟩ (.file ⟨.text "b", 8, none⟩)

/-- The checker after a scan of the template without the text. -/
def including : Checker :=
  (unused.scanFile includingDisk ⟨"/v/a.pug"⟩).2.1

/-- The template is stale once the text is there. -/
theorem stale_including :
    ⟨"/v/a.pug"⟩ ∈ (including.cache.sweep includedDisk including.graph).1.staleFiles := by
  have hpath : (⟨"/v/a.pug"⟩ : Path).normalize = ⟨"/v/a.pug"⟩ := by decide +kernel
  have hread : includingDisk.readText (⟨"/v/a.pug"⟩ : Path).normalize = .ok "include b.txt" := by
    decide +kernel
  have hstop : (exec (resolveRoot includingDisk unused.config.viewsRoot.normalize
      (⟨"/v/a.pug"⟩ : Path).normalize (some "include b.txt")) ⟨.empty, [], []⟩).1 =
        .error (.missingFile ⟨"/v/a.pug"⟩ (some 1) .inclusion "b.txt" ⟨"/v/b.txt"⟩) := by
    have hparse : Template.parse "include b.txt" =
        ⟨[⟨.inclusion "b.txt" none, 1, none, [], []⟩], []⟩ := by cbv
    have hroot : unused.config.viewsRoot.normalize = ⟨"src/views"⟩ := by decide +kernel
    have htarget : Contract.resolveTarget "b.txt" ⟨"/v/a.pug"⟩ ⟨"src/views"⟩ = ⟨"/v/b.txt"⟩ := by
      decide +kernel
    have hraw : Contract.isTemplatePath ⟨"/v/b.txt"⟩ = false := by decide +kernel
    have hgone : includingDisk.isFile ⟨"/v/b.txt"⟩ = false := by decide +kernel
    rw [hroot, hpath, resolveRoot, resolveText, hparse]
    simp only [Template.stampAll, Template.Node.stamp, parentDirectives, List.filterMap_cons,
      List.filterMap_nil, rewriteAll, rewriteNode, resolveInclude, htarget, hraw, hgone]
    rfl
  have hmissing : (ResolveError.missingFile ⟨"/v/a.pug"⟩ (some 1) .inclusion "b.txt"
      ⟨"/v/b.txt"⟩).missing? = some ((⟨"/v/a.pug"⟩ : Path).normalize, ⟨"/v/b.txt"⟩) := by
    rw [hpath]
    rfl
  have hgone : includingDisk.holds ⟨"/v/b.txt"⟩ = false := by decide +kernel
  have hholds : includedDisk.holds (⟨"/v/a.pug"⟩ : Path).normalize = true := by decide +kernel
  have htime : includedDisk.inputTime ⟨"/v/b.txt"⟩ ≠ 0 := by decide +kernel
  have hscan : unused.scanFile includingDisk ⟨"/v/a.pug"⟩ = (_, including, _) := rfl
  obtain ⟨-, hstale⟩ := (stale_of_appears Cache.normal_empty hread hscan).1 _ _ hstop hmissing hgone
  have hstale := hstale including .refl includedDisk hholds htime
  rw [hpath] at hstale
  exact hstale.1

end Checker

end PugContracts
