import PugContracts.Proofs.Cache.Cause
import PugContracts.Proofs.Cache.Change
import PugContracts.Proofs.Check.Scan

/-!
# What a scan hides

A change that no sweep has seen yet is pending. The scan of one template brings the recorded time of
that template up to date, and those of all files that it names. The times of inputs are shared, so
with them go the changes that are pending for other templates: what stays is what the cache knows
besides the template and the files that it names (`Cache.besides`).

## Main results

* `cause_record` — the causes after a result was recorded
* `stale_scanFile_iff` — what another template is stale for after a scan, and what is sure to stay
-/

namespace PugContracts

namespace Cache

variable {cache : Cache} {d : Disk} {g g' : DependencyGraph} {template other : Path}
  {entry : CacheEntry} {named : List Path} {engine : String} {errors : List TemplateError}
  {contract : Option Contract}

/-- What the cache knows besides one template and the files that it names. -/
def besides (cache : Cache) (template : Path) (named : List Path) : Cache :=
  ⟨cache.entries.erase template, cache.inputs.filter fun input _ => !named.contains input⟩

theorem mem_inputs_besides {input : Path} {time : Nat} :
    (input, time) ∈ (cache.besides template named).inputs.entries ↔
      input ∉ named ∧ (input, time) ∈ cache.inputs.entries := by
  rw [besides, PathMap.mem_filter, Bool.not_eq_true', ← Bool.not_eq_true, List.contains_iff_mem,
    and_comm]

theorem Normal.mem_entries_besides (h : cache.Normal) (htemplate : template.normalize = template) :
    (other, entry) ∈ (cache.besides template named).entries.entries ↔
      other ≠ template ∧ (other, entry) ∈ cache.entries.entries :=
  h.entries.mem_erase htemplate

theorem Normal.besides (h : cache.Normal) (template : Path) (named : List Path) :
    (cache.besides template named).Normal :=
  ⟨h.entries.filter _, h.inputs.filter _⟩

/-! ### Recording a result -/

/-- Tracked inputs have their times now, and the others those of before. -/
theorem Normal.mem_inputs_track_iff (h : cache.Normal)
    (hnamed : ∀ file ∈ named, file.normalize = file) {input : Path} {time : Nat} :
    (input, time) ∈ (cache.track d named).inputs.entries ↔
      input ∈ named ∧ time = d.inputTime input ∨
        input ∉ named ∧ (input, time) ∈ cache.inputs.entries := by
  induction named generalizing cache with
  | nil => simp [Cache.track]
  | cons first named ih =>
    obtain ⟨hfirst, hrest⟩ := List.forall_mem_cons.mp hnamed
    have hnormal : (cache.insertInput first (d.inputTime first)).Normal :=
      ⟨h.entries, h.inputs.insert hfirst⟩
    show (input, time) ∈
      ((cache.insertInput first (d.inputTime first)).track d named).inputs.entries ↔ _
    rw [ih hnormal hrest, insertInput, h.inputs.mem_insert hfirst, List.mem_cons, not_or]
    by_cases heq : input = first
    · subst heq
      by_cases hmem : input ∈ named <;> simp [hmem]
    · simp [heq]

theorem Normal.mem_entries_record (h : cache.Normal) (htemplate : template.normalize = template) :
    (other, entry) ∈
        ((cache.track d named).record d template engine errors contract).entries.entries ↔
      other = template ∧ entry = ⟨errors, contract, d.inputTime template, engine, false⟩ ∨
        other ≠ template ∧ (other, entry) ∈ cache.entries.entries := by
  rw [Cache.record, Cache.insert, entries_track, h.entries.mem_insert htemplate]

/-- A template whose result was just recorded has not changed. -/
theorem changed_recorded (hentry : entry.time = d.inputTime template) :
    changed d template entry = false := by
  rw [changed, hentry, Disk.inputTime]
  cases d.modified template <;> simp

/-- **The causes after a result was recorded** for another template: those that the cache knows
besides that template and what it names, and that the template is gone. -/
theorem cause_record (h : cache.Normal) (htemplate : template.normalize = template)
    (hnamed : ∀ file ∈ named, file.normalize = file) :
    Cause ((cache.track d named).record d template engine errors contract) d g other entry ↔
      Cause (cache.besides template named) d g other entry ∨
        d.holds template = false ∧ g.affects template other = true := by
  constructor
  · rintro (hstale | hchanged | ⟨hinput, htime, haffects⟩ | ⟨he, hgone, haffects⟩ |
      ⟨he, hholds, hcontract, hcause, haffects⟩)
    · exact Or.inl (.stale hstale)
    · exact Or.inl (.changed hchanged)
    · rcases (h.mem_inputs_track_iff hnamed).mp hinput with ⟨-, heq⟩ | hbefore
      · exact absurd heq.symm htime
      · exact Or.inl (.input (mem_inputs_besides.mpr hbefore) htime haffects)
    · rcases (h.mem_entries_record htemplate).mp he with ⟨rfl, -⟩ | hbefore
      · exact Or.inr ⟨hgone, haffects⟩
      · exact Or.inl (.evicted ((h.mem_entries_besides htemplate).mpr hbefore) hgone haffects)
    · rcases (h.mem_entries_record htemplate).mp he with ⟨rfl, rfl⟩ | hbefore
      · rw [changed_recorded rfl] at hcause
        simp at hcause
      · exact Or.inl
          (.template ((h.mem_entries_besides htemplate).mpr hbefore) hholds hcontract hcause
            haffects)
  · rintro ((hstale | hchanged | ⟨hinput, htime, haffects⟩ | ⟨he, hgone, haffects⟩ |
      ⟨he, hholds, hcontract, hcause, haffects⟩) | ⟨hgone, haffects⟩)
    · exact .stale hstale
    · exact .changed hchanged
    · exact .input ((h.mem_inputs_track_iff hnamed).mpr (Or.inr (mem_inputs_besides.mp hinput)))
        htime haffects
    · exact .evicted ((h.mem_entries_record htemplate).mpr
        (Or.inr ((h.mem_entries_besides htemplate).mp he))) hgone haffects
    · exact .template ((h.mem_entries_record htemplate).mpr
        (Or.inr ((h.mem_entries_besides htemplate).mp he))) hholds hcontract hcause haffects
    · exact .evicted ((h.mem_entries_record htemplate).mpr (Or.inl ⟨rfl, rfl⟩)) hgone haffects

/-! ### More edges -/

theorem Cause.mono (hedge : ∀ a b, g.Edge a b → g'.Edge a b)
    (h : Cause cache d g other entry) : Cause cache d g' other entry := by
  rcases h with hstale | hchanged | ⟨hinput, htime, haffects⟩ | ⟨he, hgone, haffects⟩ |
    ⟨he, hholds, hcontract, hcause, haffects⟩
  · exact .stale hstale
  · exact .changed hchanged
  · exact .input hinput htime (DependencyGraph.affects_mono hedge haffects)
  · exact .evicted he hgone (DependencyGraph.affects_mono hedge haffects)
  · exact .template he hholds hcontract hcause (DependencyGraph.affects_mono hedge haffects)

/-- What is a changed input on a cycle besides a template is one after its result was recorded. -/
theorem Cycles.record (h : cache.Normal) (htemplate : template.normalize = template)
    (hnamed : ∀ file ∈ named, file.normalize = file) (hedge : ∀ a b, g.Edge a b → g'.Edge a b)
    (hcycles : (cache.besides template named).Cycles d g other) :
    ((cache.track d named).record d template engine errors contract).Cycles d g' other := by
  obtain ⟨⟨input, time⟩, hinput, htime, heq, ⟨between, e⟩, he, hholds, hcontract, hbetween,
    haffects⟩ := hcycles
  refine ⟨(input, time), ?_, htime, heq, (between, e), ?_, hholds, hcontract,
    DependencyGraph.affects_mono hedge hbetween, DependencyGraph.affects_mono hedge haffects⟩
  · exact (h.mem_inputs_track_iff hnamed).mpr (Or.inr (mem_inputs_besides.mp hinput))
  · exact (h.mem_entries_record htemplate).mpr (Or.inr ((h.mem_entries_besides htemplate).mp he))

end Cache

namespace Checker

variable {checker after : Checker} {d d' : Disk} {path template : Path} {entry : CacheEntry}
  {errors : List TemplateError}

/-- **The cache after a scan**: what the template names is tracked, and one result is recorded. -/
theorem cache_scanFile (h : checker.scanFile d path = (d', after, errors)) :
    ∃ contract, after.cache = (checker.cache.track d' (after.graph.get path.normalize)).record d'
      path.normalize checker.engine.name errors contract := by
  delta scanFile at h
  dsimp only at h
  split at h
  · obtain ⟨rfl, rfl, rfl⟩ : d = d' ∧ _ = after ∧ _ = errors := by simpa using h
    refine ⟨none, ?_⟩
    show _ = Cache.record (Cache.track _ _ ((checker.graph.clear path.normalize).get _)) _ _ _ _ _
    rw [DependencyGraph.get_clear]
    rfl
  · next source _ =>
    have hbuild : ∃ graph, (checker.build d path.normalize source).2 =
        { checker with graph := graph } := ⟨_, rfl⟩
    generalize checker.build d path.normalize source = built at *
    obtain ⟨built, _⟩ := built
    obtain ⟨graph, rfl⟩ := hbuild
    generalize hask : askEngine _ d _ = outcome at h
    obtain ⟨d'', asked, found⟩ := outcome
    obtain ⟨templates, rfl⟩ := askEngine_eq hask
    obtain ⟨rfl, rfl, rfl⟩ : d'' = d' ∧ _ = after ∧ _ = errors := by simpa using h
    exact ⟨some built.contract, rfl⟩

/-- **What a template is stale for after another one was scanned.** The causes are those that the
cache knows besides the scanned template and what that names now, or that the scanned template is
gone. So what is pending without the scanned template, its edges and the files that it names is sure
to stay. -/
theorem stale_scanFile_iff (hnormal : checker.cache.Normal)
    (hscan : checker.scanFile d path = (d', after, errors))
    (hentry : (template, entry) ∈ checker.cache.entries.entries) (hne : template ≠ path.normalize) :
    (template ∈ (after.cache.sweep d' after.graph).1.staleFiles ↔
      d'.holds template = true ∧
        (Cache.Cause (checker.cache.besides path.normalize (after.graph.get path.normalize)) d'
            after.graph template entry ∨
          d'.holds path.normalize = false ∧ template ∈ after.graph.dependentsOf path.normalize ∨
          after.cache.Cycles d' after.graph template)) ∧
      (template ∈ ((checker.cache.besides path.normalize (after.graph.get path.normalize)).sweep d'
          (checker.graph.clear path.normalize)).1.staleFiles →
        template ∈ (after.cache.sweep d' after.graph).1.staleFiles) := by
  have htemplate := hnormal.entries.of_mem hentry
  have hpath := path.normalize_normalize
  have hstep := scanFile_step checker d path
  obtain ⟨contract, hcache⟩ := cache_scanFile hscan
  simp only [hscan] at hstep
  have hafter : after.cache.Normal := hstep.normal hpath hnormal
  have hnamed : ∀ file ∈ after.graph.get path.normalize, file.normalize = file := fun file hfile =>
    (DependencyGraph.mem_get_iff.mp hfile).right_normal
  generalize after.graph.get path.normalize = named at *
  have hbesides := hnormal.besides path.normalize named
  have hentry' : (template, entry) ∈ after.cache.entries.entries := by
    rw [hcache, hnormal.mem_entries_record hpath]
    exact Or.inr ⟨hne, hentry⟩
  have hcause : Cache.Cause after.cache d' after.graph template entry ↔
      Cache.Cause (checker.cache.besides path.normalize named) d' after.graph template entry ∨
        d'.holds path.normalize = false ∧ template ∈ after.graph.dependentsOf path.normalize := by
    rw [hcache, Cache.cause_record hnormal hpath hnamed, DependencyGraph.affects_iff_mem htemplate]
  have hedge : ∀ a b, (checker.graph.clear path.normalize).Edge a b → after.graph.Edge a b := by
    intro a b h
    rw [DependencyGraph.edge_clear, hpath] at h
    exact hstep.edge h.1 h.2
  have hiff : template ∈ (after.cache.sweep d' after.graph).1.staleFiles ↔
      d'.holds template = true ∧
        ((Cache.Cause (checker.cache.besides path.normalize named) d' after.graph template entry ∨
          d'.holds path.normalize = false ∧ template ∈ after.graph.dependentsOf path.normalize) ∨
          after.cache.Cycles d' after.graph template) := by
    rw [Cache.mem_staleFiles_sweep_iff hafter.entries hentry', Cache.outdated_iff_cause, hcause]
  refine ⟨by rw [hiff, or_assoc], fun hpending => hiff.mpr ?_⟩
  have hkept : (template, entry) ∈ (checker.cache.besides path.normalize named).entries.entries :=
    (hnormal.mem_entries_besides hpath).mpr ⟨hne, hentry⟩
  rw [Cache.mem_staleFiles_sweep_iff hbesides.entries hkept, Cache.outdated_iff_cause] at hpending
  refine ⟨hpending.1, hpending.2.imp (fun h => Or.inl (h.mono hedge)) fun h => ?_⟩
  rw [hcache]
  exact h.record hnormal hpath hnamed hedge

/-! ### A change that is hidden -/

/-- Two templates, and a module with the shared locals that has changed. -/
def pendingDisk : Disk :=
  ⟨[(⟨"/v"⟩, .directory), (⟨"/v/a.pug"⟩, .file ⟨.text "", 7, none⟩),
    (⟨"/v/b.pug"⟩, .file ⟨.text "", 7, none⟩),
    (⟨"/s.d.ts"⟩, .file ⟨.text "type S = {}", 8, none⟩)], 9, none⟩

/-- A result that was recorded before the change. -/
def pendingEntry (file : Path) : CacheEntry :=
  ⟨[], some (.ofTemplate file), 7, "none", false⟩

/-- A checker that has scanned both templates before the change. -/
def pending : Checker where
  config := Config.default
  graph := (DependencyGraph.empty.add ⟨"/v/a.pug"⟩ ⟨"/s.d.ts"⟩).add ⟨"/v/b.pug"⟩ ⟨"/s.d.ts"⟩
  cache := ((Cache.empty.insert ⟨"/v/a.pug"⟩ (pendingEntry ⟨"/v/a.pug"⟩)).insert ⟨"/v/b.pug"⟩
    (pendingEntry ⟨"/v/b.pug"⟩)).insertInput ⟨"/s.d.ts"⟩ 7
  engine := .silent
  shared := some ⟨⟨"/s.d.ts"⟩, "S", []⟩
  reuse := true
  asked := []

/-- The checker after a scan of one of the templates. -/
def pendingScanned : Checker :=
  (pending.scanFile pendingDisk ⟨"/v/b.pug"⟩).2.1

/-- The change is pending for the other template, and the scan hides it. -/
theorem pending_hidden :
    ⟨"/v/a.pug"⟩ ∈ (pending.cache.sweep pendingDisk pending.graph).1.staleFiles ∧
      ⟨"/v/a.pug"⟩ ∉
        (pendingScanned.cache.sweep pendingDisk pendingScanned.graph).1.staleFiles := by
  have hstale : ⟨"/v/a.pug"⟩ ∈ (pending.cache.sweep pendingDisk pending.graph).1.staleFiles := by
    decide +kernel
  refine ⟨hstale, fun hleft => ?_⟩
  have hentries : ∀ file ∈ pending.cache.entries.keys, file.normalize = file := by decide +kernel
  have hinputs : ∀ file ∈ pending.cache.inputs.keys, file.normalize = file := by decide +kernel
  have hdisk : (pending.scanFile pendingDisk ⟨"/v/b.pug"⟩).1 = pendingDisk := by decide +kernel
  have herrors : (pending.scanFile pendingDisk ⟨"/v/b.pug"⟩).2.2 = [] := by decide +kernel
  have hscan : pending.scanFile pendingDisk ⟨"/v/b.pug"⟩ = (pendingDisk, pendingScanned, []) :=
    Prod.ext hdisk (Prod.ext rfl herrors)
  have hentry : (⟨"/v/a.pug"⟩, pendingEntry ⟨"/v/a.pug"⟩) ∈ pending.cache.entries.entries := by
    decide +kernel
  have hne : (⟨"/v/a.pug"⟩ : Path) ≠ (⟨"/v/b.pug"⟩ : Path).normalize := by decide +kernel
  have hcause := (stale_scanFile_iff ⟨hentries, hinputs⟩ hscan hentry hne).1.mp hleft
  revert hcause
  decide +kernel

end Checker

end PugContracts
