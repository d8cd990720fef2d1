import PugContracts.Proofs.Cache.Current
import PugContracts.Proofs.Check.Independence
import PugContracts.Proofs.Check.Pending
import PugContracts.Proofs.Check.Reload
import PugContracts.Proofs.Contract.Lines

/-!
# A second run over an unchanged project

A run scans the templates and saves the cache. If nothing changes, a second run takes over all
results and processes nothing, whatever is wrong with the templates (`scanAll_unchanged`).

Of the project only the files matter of which the cache keeps a time: the templates, and what they
name. A time is recorded after the engine was asked, and each template at its turn, so the engine
must not touch these files on its way (`Engine.Spares`). What else may change is any content, and
any file that no template names.

Nothing changes means more than that nobody edits a file. The run itself writes: programs, the
cache, the file beside it that becomes the cache, and the directories above them. If it writes what
a template names, or makes a way for a root that led nowhere, then the second run has something to
do (`processed_after_detour`).

## Main results

* `Cache.Dated.record`, `dated_scanNeeded` — all times that a run records are those of one disk
* `scanAll_unchanged` — the second run processes nothing and finds the same
-/

namespace PugContracts

open Relation

/-- The roots below which a run looks for templates: those that it is given, or those of the
settings. -/
def Config.searched (config : Config) (roots : List Path) : List Path :=
  if roots.isEmpty then config.templatePaths else roots

namespace Engine

variable {engine : Engine} {d d' : Disk} {templates files : Path → Prop}

/-- Checking programs of some templates, one after the other, leads from one disk to another one. -/
def Leads (engine : Engine) (templates : Path → Prop) : Disk → Disk → Prop :=
  ReflTransGen fun d d' => ∃ program, templates program.template ∧ d' = (engine.check d program).1

/-- Whatever programs of some templates the engine checks, it leaves some files their times. -/
def Spares (engine : Engine) (templates files : Path → Prop) (d : Disk) : Prop :=
  ∀ d', engine.Leads templates d d' → ∀ file, files file → d'.timeOf? file = d.timeOf? file

theorem Spares.inputTime (h : engine.Spares templates files d)
    (hleads : engine.Leads templates d d') {file : Path} (hfile : files file) :
    d'.inputTime file = d.inputTime file := by
  rw [Disk.inputTime_eq, Disk.inputTime_eq, h d' hleads file hfile]

/-- An engine that writes nothing spares all files. -/
theorem Answers.spares {answer : Program → Except Failure (List EngineDiagnostic)}
    (h : engine.Answers answer) (templates files : Path → Prop) (d : Disk) :
    engine.Spares templates files d := by
  intro d' hleads
  induction hleads with
  | refl => exact fun _ _ => rfl
  | tail _ hcheck ih =>
    obtain ⟨program, -, rfl⟩ := hcheck
    rw [h]
    exact ih

end Engine

/-! ### Times of one disk -/

namespace Cache

variable {cache : Cache} {d d' : Disk} {template : Path} {named : List Path} {engine : String}
  {errors : List TemplateError} {contract : Option Contract} {files : Path → Prop}

/-- The cache keeps a time of the file, as that of a template or of an input. -/
def Keeps (cache : Cache) (file : Path) : Prop :=
  file ∈ cache.entries.keys ∨ file ∈ cache.inputs.keys

/-- The results are up to date and made by one engine, and what times are kept of some files are
those that the files have on a disk. -/
structure Dated (cache : Cache) (engine : String) (d : Disk) (files : Path → Prop) : Prop where
  /-- The results are up to date, made by the engine, and have the times of the templates. -/
  entries : ∀ {file entry}, (file, entry) ∈ cache.entries.entries →
    entry.stale = false ∧ entry.engine = engine ∧ (files file → entry.time = d.inputTime file)
  /-- The inputs have their times. -/
  inputs : ∀ {file time}, (file, time) ∈ cache.inputs.entries → files file →
    time = d.inputTime file

theorem dated_empty : empty.Dated engine d files :=
  ⟨fun h => absurd h List.not_mem_nil, fun h => absurd h List.not_mem_nil⟩

/-- **What is recorded later has the same times**, if the files still have them. -/
theorem Dated.record (h : cache.Dated engine d files) (hnormal : cache.Normal)
    (htemplate : template.normalize = template) (hnamed : ∀ file ∈ named, file.normalize = file)
    (hsame : ∀ file, files file → d'.inputTime file = d.inputTime file) :
    ((cache.track d' named).record d' template engine errors contract).Dated engine d files := by
  constructor
  · intro file entry hentry
    rcases (hnormal.mem_entries_record htemplate).mp hentry with ⟨rfl, rfl⟩ | ⟨-, hentry⟩
    · exact ⟨rfl, rfl, hsame file⟩
    · exact h.entries hentry
  · intro file time hinput hfile
    rcases (hnormal.mem_inputs_track_iff hnamed).mp hinput with ⟨-, rfl⟩ | ⟨-, hinput⟩
    · exact hsame file hfile
    · exact h.inputs hinput hfile

end Cache

namespace Checker

variable {checker after : Checker} {d d' start : Disk} {template path : Path}
  {templates roots : List Path} {scanned files : Path → Prop}

/-! ### What a run records -/

theorem template_of_program {source : String} {shared : Option SharedLocals} {program : Program}
    (h : (checker.build d template source).1.program shared = some program) :
    program.template = template := by
  obtain ⟨tree, -, rfl⟩ := Option.map_eq_some_iff.mp h
  exact (Contract.located_extract source template checker.config.viewsRoot).2.1

/-- A scan lets the engine check one program at most, that of the template. -/
theorem leads_scanFile (checker : Checker) (d : Disk) (hpath : scanned path.normalize) :
    checker.engine.Leads scanned d (checker.scanFile d path).1 := by
  delta scanFile
  dsimp only
  split
  · exact .refl
  · next source _ =>
    have hengine : (checker.build d path.normalize source).2.engine = checker.engine := rfl
    have htemplate : ∀ {shared program},
        (checker.build d path.normalize source).1.program shared = some program →
          program.template = path.normalize := template_of_program
    generalize checker.build d path.normalize source = built at *
    obtain ⟨built, asking⟩ := built
    dsimp only at hengine htemplate ⊢
    rw [← hengine]
    cases hprogram : built.program asking.shared with
    | none => exact .refl
    | some program =>
      refine .single ⟨program, (htemplate hprogram).symm ▸ hpath, ?_⟩
      rw [askEngine, typeErrors]
      rcases asking.engine.check d program with ⟨_, _ | _⟩ <;> rfl

/-- **What one scan records** has the times of a disk, if the engine spares the files. -/
theorem dated_scanFile (hspares : checker.engine.Spares scanned files start)
    (hleads : checker.engine.Leads scanned start d) (hnormal : checker.cache.Normal)
    (hdated : checker.cache.Dated checker.engine.name start files)
    (hpath : scanned path.normalize) :
    (checker.scanFile d path).2.1.cache.Dated checker.engine.name start files := by
  have hstep := leads_scanFile checker d hpath
  generalize hscan : checker.scanFile d path = scan at *
  obtain ⟨d', after, errors⟩ := scan
  obtain ⟨contract, hcache⟩ := cache_scanFile hscan
  show after.cache.Dated _ _ _
  rw [hcache]
  refine hdated.record hnormal path.normalize_normalize (fun file hfile => ?_) fun file hfile => ?_
  · exact (DependencyGraph.mem_get_iff.mp hfile).right_normal
  · exact hspares.inputTime (hleads.trans hstep) hfile

/-- **What a run records** has the times of the disk on which it started. -/
theorem dated_scanNeeded (hspares : checker.engine.Spares scanned files start)
    (hleads : checker.engine.Leads scanned start d) (hnormal : checker.cache.Normal)
    (hdated : checker.cache.Dated checker.engine.name start files)
    (hscanned : ∀ template ∈ templates, scanned template.normalize) :
    (checker.scanNeeded d templates).2.1.cache.Dated checker.engine.name start files := by
  -- The disk changes with every check. What carries the run is that the engine leads to it.
  refine (scanNeeded_preserves (P := fun now after => after.engine = checker.engine ∧
    checker.engine.Leads scanned start now ∧ after.cache.Normal ∧
      after.cache.Dated checker.engine.name start files) ?_ ⟨rfl, hleads, hnormal, hdated⟩).2.2.2
  rintro now before template hmem ⟨hengine, hleads, hnormal, hdated⟩
  rw [← hengine] at hspares hleads hdated ⊢
  have hstep := scanFile_step before now template
  exact ⟨hstep.engine, hleads.trans (leads_scanFile before now (hscanned template hmem)),
    hstep.normal template.normalize_normalize hnormal,
    dated_scanFile hspares hleads hnormal hdated (hscanned template hmem)⟩

/-- A run leaves a result for each template that it goes over. -/
theorem contains_scanNeeded (hnormal : ∀ template ∈ templates, template.normalize = template)
    (h : template ∈ templates ∨ checker.cache.entries.contains template = true) :
    (checker.scanNeeded d templates).2.1.cache.entries.contains template = true := by
  induction templates generalizing checker d with
  | nil => exact h.resolve_left List.not_mem_nil
  | cons first rest ih =>
    obtain ⟨hfirst, hrest⟩ := List.forall_mem_cons.mp hnormal
    rw [List.mem_cons, or_assoc] at h
    rw [scanNeeded]
    split
    · next hfresh =>
      refine ih hrest (h.elim (fun heq => Or.inr ?_) id)
      subst heq
      rw [Bool.and_eq_true, Bool.not_eq_true', Cache.needs, Cache.find?] at hfresh
      rw [PathMap.contains]
      revert hfresh
      cases checker.cache.entries.find? template <;> simp
    · have hstep := scanFile_step checker d first
      generalize checker.scanFile d first = scan at *
      obtain ⟨d', scanned, errors⟩ := scan
      obtain ⟨_, _, _, hcache, -, -⟩ := hstep.cache
      dsimp only at hcache ⊢
      refine ih hrest ?_
      rw [hcache, Cache.insert, PathMap.contains_insert, Cache.entries_track, hfirst]
      rcases h with rfl | h | h
      · exact Or.inr (Or.inl Std.ReflCmp.compare_self)
      · exact Or.inl h
      · exact Or.inr (Or.inr h)

/-! ### Nothing to process -/

/-- A run over templates that are up to date does nothing. -/
theorem scanNeeded_of_fresh (hreuse : checker.reuse = true)
    (hfresh : ∀ template ∈ templates, checker.cache.needs template checker.engine.name = false) :
    checker.scanNeeded d templates = (d, checker, []) := by
  induction templates with
  | nil => rfl
  | cons template rest ih =>
    obtain ⟨htemplate, hrest⟩ := List.forall_mem_cons.mp hfresh
    rw [scanNeeded, hreuse, htemplate]
    exact ih hrest

/-- The templates that a run goes over, if it gets that far. -/
def goesOver (config : Config) (d : Disk) (roots : List Path) : Except Failure (List Path) :=
  match d.findTemplates (config.searched roots) with
  | .error failure => .error failure
  | .ok [] => .error (.run (.noTemplates ((config.searched roots).map Path.text)))
  | .ok templates => .ok templates

theorem scanAll_eq (checker : Checker) (d : Disk) (roots : List Path) :
    checker.scanAll d roots =
      match goesOver checker.config d roots with
      | .error failure => (d, checker, .error failure)
      | .ok templates =>
        ((checker.scanNeeded d templates).1, (checker.scanNeeded d templates).2.1,
          .ok ⟨templates.map fun template =>
              (template, (checker.scanNeeded d templates).2.1.recorded template),
            (checker.scanNeeded d templates).2.2⟩) := by
  have hroots : (if roots.isEmpty then checker.config.templatePaths else roots) =
      checker.config.searched roots := rfl
  rw [scanAll, goesOver, hroots]
  cases d.findTemplates (checker.config.searched roots) with
  | error failure => rfl
  | ok templates => cases templates <;> rfl

theorem findTemplates_of_goesOver {config : Config} (h : goesOver config d roots = .ok templates) :
    d.findTemplates (config.searched roots) = .ok templates := by
  rw [goesOver] at h
  split at h
  · cases h
  · cases h
  · next hfound => rw [hfound, Except.ok.inj h]

theorem scanAll_of_error {failure : Failure}
    (h : goesOver checker.config d roots = .error failure) :
    checker.scanAll d roots = (d, checker, .error failure) := by
  rw [scanAll_eq, h]

theorem scanAll_of_ok (h : goesOver checker.config d roots = .ok templates) :
    d.findTemplates (checker.config.searched roots) = .ok templates ∧
      checker.scanAll d roots = ((checker.scanNeeded d templates).1,
        (checker.scanNeeded d templates).2.1,
        .ok ⟨templates.map fun template =>
            (template, (checker.scanNeeded d templates).2.1.recorded template),
          (checker.scanNeeded d templates).2.2⟩) :=
  ⟨findTemplates_of_goesOver h, by rw [scanAll_eq, h]⟩

/-- A template with a result by the same engine need not be processed. -/
theorem needs_eq_false {cache : Cache} {engine : String} (hnormal : cache.Normal)
    (hdated : cache.Dated engine d files) (h : template ∈ cache.entries.keys) :
    cache.needs template engine = false := by
  obtain ⟨entry, hentry⟩ := PathMap.mem_keys_iff.mp h
  obtain ⟨hstale, hengine, -⟩ := hdated.entries hentry
  have hfind := (hnormal.entries.find?_eq_some_iff (hnormal.entries template h)).mpr hentry
  rw [Cache.needs, Cache.find?, hfind]
  simp only [hstale, hengine, Bool.false_or, bne_self_eq_false]

/-- **A run without earlier results has results for the templates that it goes over** afterwards,
and for no others. -/
theorem mem_keys_scanAll_iff {result : Except Failure Report} (hempty : checker.cache = .empty)
    (h : checker.scanAll d roots = (d', after, result))
    (hover : goesOver checker.config d roots = .ok templates) :
    template ∈ after.cache.entries.keys ↔ template ∈ templates := by
  have hafter := normal_scanAll hempty h
  obtain ⟨hfound, hscan⟩ := scanAll_of_ok hover
  obtain ⟨hnormal, hnodup⟩ := normal_findTemplates hfound
  obtain rfl := congrArg (·.2.1) (hscan.symm.trans h)
  constructor
  · have hall : ([] ++ templates).Nodup := hnodup
    exact (covers_scanNeeded hnormal hall (covers_of_empty hempty)).entries template
  · intro hmem
    obtain ⟨key, hkey, hcompare⟩ :=
      PathMap.contains_iff.mp (contains_scanNeeded (d := d) hnormal (Or.inl hmem))
    rwa [(Path.compare_eq_iff (hnormal template hmem) (hafter.entries key hkey)).mp hcompare]

/-- What a run without earlier results records has the times of the disk on which it started, and
the templates are there. -/
theorem dated_scanAll {result : Except Failure Report} (hempty : checker.cache = .empty)
    (h : checker.scanAll d roots = (d', after, result))
    (hspares : checker.engine.Spares (· ∈ after.cache.entries.keys) files d) :
    after.cache.Dated checker.engine.name d files ∧
      ∀ template ∈ after.cache.entries.keys, d.isFile template = true := by
  have hdated : checker.cache.Dated checker.engine.name d files := hempty ▸ Cache.dated_empty
  cases hover : goesOver checker.config d roots with
  | error failure =>
    obtain rfl : checker = after := congrArg (·.2.1) ((scanAll_of_error hover).symm.trans h)
    refine ⟨hdated, ?_⟩
    rw [hempty]
    exact fun _ hmem => absurd hmem List.not_mem_nil
  | ok templates =>
    have hkeys : ∀ template, template ∈ after.cache.entries.keys ↔ template ∈ templates :=
      fun _ => mem_keys_scanAll_iff hempty h hover
    obtain ⟨hfound, hscan⟩ := scanAll_of_ok hover
    have hthere : ∀ template ∈ templates, template.normalize = template ∧
        d.isFile template = true := fun _ => Disk.isFile_of_mem_findTemplates hfound
    refine ⟨?_, fun template hmem => (hthere template ((hkeys template).mp hmem)).2⟩
    obtain rfl := congrArg (·.2.1) (hscan.symm.trans h)
    refine dated_scanNeeded hspares .refl (hempty ▸ Cache.normal_empty) hdated ?_
    intro template hmem
    rw [(hthere template hmem).1]
    exact (hkeys template).mpr hmem

/-- The results of a run are up to date on a disk where all files that it kept a time of still have
theirs. -/
theorem current_of_dated {cache : Cache} {engine : String} {now : Disk}
    (hdated : cache.Dated engine d cache.Keeps)
    (hthere : ∀ template ∈ cache.entries.keys, d.isFile template = true)
    (htimes : ∀ file, cache.Keeps file → now.timeOf? file = d.timeOf? file) :
    cache.Current now := by
  refine ⟨fun hentry => (hdated.entries hentry).1, fun hentry => ?_, fun hinput => ?_⟩
  · have hkey := PathMap.mem_keys_iff.mpr ⟨_, hentry⟩
    rw [htimes _ (Or.inl hkey), Disk.timeOf?_of_isFile (hthere _ hkey),
      (hdated.entries hentry).2.2 (Or.inl hkey)]
  · have hkey := PathMap.mem_keys_iff.mpr ⟨_, hinput⟩
    rw [Disk.inputTime_eq, htimes _ (Or.inr hkey), ← Disk.inputTime_eq]
    exact (hdated.inputs hinput (Or.inr hkey)).symm

/-! ### Two runs -/

/-- A run of another checker that has the same results, all of them up to date, answers the same and
does nothing. -/
theorem scanAll_of_fresh {other : Checker} {now : Disk} {result : Except Failure Report}
    (h : checker.scanAll d roots = (d', after, result)) (hreuse : other.reuse = true)
    (hentries : other.cache.entries = after.cache.entries)
    (hsame : goesOver other.config now roots = goesOver checker.config d roots)
    (hfresh : ∀ templates, goesOver checker.config d roots = .ok templates →
      ∀ template ∈ templates, other.cache.needs template other.engine.name = false) :
    other.scanAll now roots =
      (now, other, result.map fun report => { report with processed := [] }) := by
  cases hover : goesOver checker.config d roots with
  | error failure =>
    obtain rfl : .error failure = result :=
      congrArg (·.2.2) ((scanAll_of_error hover).symm.trans h)
    exact scanAll_of_error (hsame.trans hover)
  | ok templates =>
    obtain ⟨-, hfirst⟩ := scanAll_of_ok hover
    obtain ⟨-, hagain⟩ := scanAll_of_ok (hsame.trans hover)
    have hnothing : other.scanNeeded now templates = (now, other, []) :=
      scanNeeded_of_fresh hreuse (hfresh templates hover)
    rw [hfirst] at h
    obtain ⟨-, rfl, rfl⟩ : _ = d' ∧ _ = after ∧ _ = result := by simpa using h
    have hrecorded : ∀ template, other.recorded template =
        (checker.scanNeeded d templates).2.1.recorded template := by
      intro template
      rw [recorded, recorded, Cache.find?, Cache.find?, hentries]
    rw [hagain, hnothing]
    simp only [hrecorded]
    rfl

/-- **An unchanged project is not processed again.** A run has scanned templates and saved the
cache; since it started, every file that the cache keeps a time of has kept its time, whatever the
engine did, and the same templates are found. Then a new checker with an engine of the same name
takes over all results, of which none is stale, and the same graph. Its run processes no template,
asks the engine nothing, leaves the disk as it is and answers what the first run answered. -/
theorem scanAll_unchanged {start scanned saved now : Disk} {config : Config}
    {engine engine' : Engine} {fresh first second : Checker} {roots : List Path}
    {result : Except Failure Report}
    (hnew : new start config engine = .ok fresh)
    (hscan : fresh.scanAll start roots = (scanned, first, result))
    (hsave : first.saveCache scanned = (saved, .ok ()))
    (hclock : scanned.clock < Text.timeLimit)
    (hfits : (CacheDocument.ofCache first.cache first.graph).fits = true)
    (hspares : engine.Spares (· ∈ first.cache.entries.keys) first.cache.Keeps start)
    (htimes : ∀ file, first.cache.Keeps file → now.timeOf? file = start.timeOf? file)
    (hfound : now.findTemplates (config.searched roots) =
      start.findTemplates (config.searched roots))
    (hcache : now.readText config.cachePath = saved.readText config.cachePath)
    (hagain : new now config engine' = .ok second) (hname : engine'.name = engine.name) :
    (second.loadCache now).cache.staleFiles = [] ∧
      (second.loadCache now).cache.entries = first.cache.entries ∧
      (∀ p q, (second.loadCache now).graph.Edge p q ↔ first.graph.Edge p q) ∧
      (second.loadCache now).graph.adjacency = first.graph.adjacency ∧
      (second.loadCache now).asked = [] ∧
      (second.loadCache now).scanAll now roots = (now, second.loadCache now,
        result.map fun report => { report with processed := [] }) := by
  obtain ⟨hconfig, hengine, -, hempty⟩ := new_spec hnew
  obtain ⟨hconfig', hengine', hreuse', -⟩ := new_spec hagain
  have hasked : second.asked = [] := by rw [(new_eq_ok_iff.mp hagain).2]
  have hnormal := normal_scanAll hempty hscan
  have hsettings : first.config = config := by
    have hkept := (scanAll_keeps fresh start roots).1
    rw [hscan] at hkept
    exact hkept.trans hconfig
  -- What the first run has left is up to date.
  rw [← hengine] at hspares hname
  obtain ⟨hdated, hthere⟩ := dated_scanAll hempty hscan hspares
  have hcurrent := current_of_dated hdated hthere htimes
  -- It is loaded, and the sweep changes nothing.
  have hload := load_of_saveCache hsave hclock hfits
  rw [hsettings, ← CacheDocument.load_congr hcache, ← hconfig'] at hload
  have hedge : ∀ p q, (CacheDocument.ofCache first.cache first.graph).graph.Edge p q ↔
      first.graph.Edge p q := fun _ _ => CacheDocument.edge_graph_ofCache
  generalize (CacheDocument.ofCache first.cache first.graph).graph = graph at *
  obtain ⟨hentries, hgraph⟩ := hcurrent.sweep graph
  rw [loadCache_of_load hreuse' hload, hgraph]
  generalize (first.cache.sweep now graph).1 = loaded at *
  have hstale : loaded.staleFiles = [] := by
    rw [Cache.staleFiles, hentries]
    exact hcurrent.staleFiles
  refine ⟨hstale, hentries, hedge, DependencyGraph.adjacency_congr hedge, hasked, ?_⟩
  have hsame : goesOver second.config now roots = goesOver fresh.config start roots := by
    rw [goesOver, goesOver, hconfig, hconfig', hfound]
  refine scanAll_of_fresh hscan hreuse' hentries hsame fun templates hrun template hmem => ?_
  have hneeds := needs_eq_false hnormal hdated ((mem_keys_scanAll_iff hempty hscan hrun).mpr hmem)
  rwa [Cache.needs, Cache.find?, hentries, hengine', hname]

/-! ### A project with a template that is no text -/

/-- Two templates, of which one cannot be read, and a module with the shared locals. -/
def illegibleDisk : Disk :=
  ⟨[(⟨"/v"⟩, .directory), (⟨"/v/a.pug"⟩, .file ⟨.text "", 7, none⟩),
    (⟨"/v/b.pug"⟩, .file ⟨.binary [255], 8, none⟩),
    (⟨"/s.d.ts"⟩, .file ⟨.text "type S = {}", 6, none⟩)], 9, none⟩

/-- The checker after a run over the project. -/
def illegibleFirst : Checker :=
  (tiny.scanAll illegibleDisk []).2.1

/-- The disk after the cache was saved. -/
def illegibleSaved : Disk :=
  (illegibleFirst.saveCache (tiny.scanAll illegibleDisk []).1).1

/-- What the first run answers. -/
def illegibleReport : Report :=
  ⟨[(⟨"/v/a.pug"⟩, []), (⟨"/v/b.pug"⟩, [.ofFile .missingFile ⟨"/v/b.pug"⟩
      "cannot read template: stream did not contain valid UTF-8"])],
    [⟨"/v/a.pug"⟩, ⟨"/v/b.pug"⟩]⟩

/-- The second run finds the same error, and processes nothing. -/
theorem scanAll_unchanged_illegible :
    (tiny.scanAll illegibleDisk []).2.2 = .ok illegibleReport ∧
      (tiny.loadCache illegibleSaved).scanAll illegibleSaved [] =
        (illegibleSaved, tiny.loadCache illegibleSaved,
          .ok { illegibleReport with processed := [] }) := by
  have hreport : (tiny.scanAll illegibleDisk []).2.2 = .ok illegibleReport := by decide +kernel
  have hscan : tiny.scanAll illegibleDisk [] =
      ((tiny.scanAll illegibleDisk []).1, illegibleFirst, .ok illegibleReport) :=
    Prod.ext rfl (Prod.ext rfl hreport)
  have hdone : (illegibleFirst.saveCache (tiny.scanAll illegibleDisk []).1).2 = .ok () := by
    decide +kernel
  have hsave : illegibleFirst.saveCache (tiny.scanAll illegibleDisk []).1 =
      (illegibleSaved, .ok ()) :=
    Prod.ext rfl hdone
  have hclock : (tiny.scanAll illegibleDisk []).1.clock < Text.timeLimit := by decide +kernel
  have hfits : (CacheDocument.ofCache illegibleFirst.cache illegibleFirst.graph).fits = true := by
    decide +kernel
  have hsilent : Engine.silent.Answers fun _ => .ok [] := fun _ _ => rfl
  have htimes : ∀ file ∈ illegibleFirst.cache.entries.keys ++ illegibleFirst.cache.inputs.keys,
      illegibleSaved.timeOf? file = illegibleDisk.timeOf? file := by decide +kernel
  have hfound : illegibleSaved.findTemplates (tinyConfig.searched []) =
      illegibleDisk.findTemplates (tinyConfig.searched []) := by
    decide +kernel
  have hshared : ∀ d ∈ [illegibleDisk, illegibleSaved],
      loadShared d tinyConfig = .ok (some ⟨⟨"/s.d.ts"⟩, "S", []⟩) := by decide +kernel
  have hnew : ∀ d ∈ [illegibleDisk, illegibleSaved], new d tinyConfig .silent = .ok tiny := by
    intro d hd
    rw [new, hshared d hd]
    rfl
  obtain ⟨-, -, -, -, -, hagain⟩ := scanAll_unchanged (hnew _ (by simp)) hscan hsave hclock hfits
    (hsilent.spares _ _ _) (fun file hfile => htimes file (List.mem_append.mpr hfile)) hfound rfl
    (hnew _ (by simp)) rfl
  exact ⟨hreport, hagain⟩

/-! ### A run that makes a way -/

/-- Two templates in two directories. -/
def detourDisk : Disk :=
  ⟨[(⟨"/v"⟩, .directory), (⟨"/v/a.pug"⟩, .file ⟨.text "", 7, none⟩),
    (⟨"/o"⟩, .directory), (⟨"/o/b.pug"⟩, .file ⟨.text "", 7, none⟩)], 9, none⟩

/-- The settings of the project; the directory of the cache is the one that is not there. -/
def detourConfig : Config :=
  { Config.default with
    projectPath := ⟨"/"⟩, viewsRoot := ⟨"/v"⟩, tmpDir := ⟨"/t"⟩, cachePath := ⟨"/t/c.json"⟩ }

/-- The roots, of which the second one leads through the directory of the cache. -/
def detourRoots : List Path :=
  [⟨"/v"⟩, ⟨"/t/../o"⟩]

/-- A new checker for the project. -/
def detour : Checker :=
  ⟨detourConfig, .empty, .empty, .silent, none, true, []⟩

/-- The checker after its first run. -/
def detourFirst : Checker :=
  (detour.scanAll detourDisk detourRoots).2.1

/-- The disk after the cache was saved. -/
def detourSaved : Disk :=
  (detourFirst.saveCache detourDisk).1

/-- **The second run processes a template**, though no file has changed and the only file that is
new is the cache: with the cache its directory was made, and now the second root leads somewhere. -/
theorem processed_after_detour :
    new detourDisk detourConfig .silent = .ok detour ∧
      detour.scanAll detourDisk detourRoots =
        (detourDisk, detourFirst, .ok ⟨[(⟨"/v/a.pug"⟩, [])], [⟨"/v/a.pug"⟩]⟩) ∧
      detourFirst.saveCache detourDisk = (detourSaved, .ok ()) ∧
      detourDisk.entries ⊆ detourSaved.entries ∧
      detourSaved.filePaths = detourDisk.filePaths ++ [⟨"/t/c.json"⟩] ∧
      new detourSaved detourConfig .silent = .ok detour ∧
      ((detour.loadCache detourSaved).scanAll detourSaved detourRoots).2.2 =
        .ok ⟨[(⟨"/o/b.pug"⟩, []), (⟨"/v/a.pug"⟩, [])], [⟨"/o/b.pug"⟩]⟩ := by
  have hreport : (detour.scanAll detourDisk detourRoots).2.2 =
      .ok ⟨[(⟨"/v/a.pug"⟩, [])], [⟨"/v/a.pug"⟩]⟩ := by decide +kernel
  have hdone : (detourFirst.saveCache detourDisk).2 = .ok () := by decide +kernel
  have hsave : detourFirst.saveCache detourDisk = (detourSaved, .ok ()) := Prod.ext rfl hdone
  have hfits : (CacheDocument.ofCache detourFirst.cache detourFirst.graph).fits = true := by
    decide +kernel
  have hkept : detourDisk.entries ⊆ detourSaved.entries := by decide +kernel
  have hnew : detourSaved.filePaths = detourDisk.filePaths ++ [⟨"/t/c.json"⟩] := by decide +kernel
  have hdisk : (detour.scanAll detourDisk detourRoots).1 = detourDisk := by decide +kernel
  refine ⟨rfl, Prod.ext hdisk (Prod.ext rfl hreport), hsave, hkept, hnew, rfl, ?_⟩
  have hsettings : detourFirst.config = detour.config :=
    (scanAll_keeps detour detourDisk detourRoots).1
  have hload := load_of_saveCache hsave (by decide) hfits
  rw [hsettings] at hload
  rw [loadCache_of_load rfl hload]
  decide +kernel

end Checker

end PugContracts
