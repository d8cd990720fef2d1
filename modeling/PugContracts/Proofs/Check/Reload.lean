import PugContracts.Proofs.Cache.Change
import PugContracts.Proofs.Cache.Document
import PugContracts.Proofs.Check.Scan

/-!
# A second run over a saved cache

One run scans the templates and saves the cache; another one loads it, sweeps it over the disk as it
is by then, and processes what is not up to date. In between a file may have changed. Whether the
second run notices depends on the cache that the first one has saved, and on nothing else: the file
has to be watched (`stale_reload_iff_watches`). The files that a template reads are watched if the
template names them, or if they are scanned as templates themselves. A file further down, which a
layout or a partial outside the scanned directories names, is not: its changes pass unnoticed.

## Main results

* `watches_of_mem_get` — what a scanned template names is watched
* `stale_reload_iff_watches` — which changes a second run notices
-/

namespace PugContracts

namespace CacheDocument

theorem load_congr {d d' : Disk} {file : Path} (h : d'.readText file = d.readText file) :
    load d' file = load d file := by
  rw [load, load, h]

/-- The saved graph has the dependents of the graph that was saved. -/
theorem mem_dependentsOf_graph_ofCache {cache : Cache} {graph : DependencyGraph} {p q : Path} :
    q ∈ (ofCache cache graph).graph.dependentsOf p ↔ q ∈ graph.dependentsOf p := by
  have hedge : (ofCache cache graph).graph.Edge = graph.Edge :=
    funext fun _ => funext fun _ => propext edge_graph_ofCache
  rw [DependencyGraph.mem_dependentsOf_iff, DependencyGraph.mem_dependentsOf_iff, hedge]

end CacheDocument

namespace Checker

variable {checker : Checker} {d : Disk} {config : Config} {engine : Engine} {template file : Path}

/-! ### Loading -/

/-- A new checker is one without results. -/
theorem new_eq_ok_iff :
    new d config engine = .ok checker ↔
      loadShared d config = .ok checker.shared ∧
        checker = ⟨config, .empty, .empty, engine, checker.shared, true, []⟩ := by
  rw [new]
  cases loadShared d config with
  | error failure => simp [Except.map]
  | ok shared =>
    constructor
    · intro h
      cases h
      exact ⟨rfl, rfl⟩
    · rintro ⟨hshared, heq⟩
      rw [heq, Except.ok.inj hshared]
      rfl

/-- A new checker has the settings and the engine that it is given, and nothing to take results
from. -/
theorem new_spec (h : new d config engine = .ok checker) :
    checker.config = config ∧ checker.engine = engine ∧ checker.reuse = true ∧
      checker.cache = .empty := by
  obtain ⟨-, heq⟩ := new_eq_ok_iff.mp h
  rw [heq]
  exact ⟨rfl, rfl, rfl, rfl⟩

/-- What a saved cache is taken over as. -/
theorem loadCache_of_load {cache : Cache} {graph : DependencyGraph} (hreuse : checker.reuse = true)
    (hload : CacheDocument.load d checker.config.cachePath = .ok (some (cache, graph))) :
    checker.loadCache d =
      { checker with cache := (cache.sweep d graph).1, graph := (cache.sweep d graph).2.1 } := by
  rw [loadCache, if_pos hreuse, hload]

/-- What a checker has saved can be loaded. -/
theorem load_of_saveCache {saved : Disk} (hsave : checker.saveCache d = (saved, .ok ()))
    (hclock : d.clock < Text.timeLimit)
    (hfits : (CacheDocument.ofCache checker.cache checker.graph).fits = true) :
    CacheDocument.load saved checker.config.cachePath =
      .ok (some (checker.cache, (CacheDocument.ofCache checker.cache checker.graph).graph)) := by
  rw [CacheDocument.load_of_save hsave, Text.isTimestamp_timestamp hclock, hfits]
  rfl

/-- A checker without results has one that is up to date only if it could load it. -/
theorem load_of_needs_eq_false (hempty : checker.cache = .empty) {name : String}
    (h : (checker.loadCache d).cache.needs template name = false) :
    ∃ loaded, CacheDocument.load d checker.config.cachePath = .ok (some loaded) := by
  have hneeds : checker.cache.needs template name ≠ false := by
    rw [hempty]
    exact Bool.true_eq_false.mp
  rw [loadCache] at h
  split at h
  · split at h
    · next cache graph hload => exact ⟨(cache, graph), hload⟩
    · exact absurd h hneeds
    · exact absurd h hneeds
  · exact absurd h hneeds

/-! ### What is watched -/

/-- What a template names is tracked once the template has been scanned and could be read. -/
theorem Step.tracks {after : Checker} (hstep : Step checker template after)
    (hread : (after.cache.find? template).any (fun entry => entry.contract.isSome) = true)
    (hnamed : after.graph.Edge template file) : after.cache.inputs.contains file = true := by
  obtain ⟨d, files, entry, hcache, -, hfiles⟩ := hstep.cache
  have hentry : after.cache.find? template = some entry := by
    rw [hcache, Cache.find?, Cache.insert, PathMap.find?_insert, if_pos Std.ReflCmp.compare_self]
  rw [hentry, Option.any_some] at hread
  rw [hcache]
  exact Cache.contains_inputs_track (Or.inl (hfiles hread file hnamed))

/-- **What the templates of a run name is watched.** The run scans each of them, since it has no
earlier results, and what a template names that could be read is still tracked at the end. -/
theorem watches_of_mem_get {d' : Disk} {after : Checker} {roots : List Path} {report : Report}
    (hempty : checker.cache = .empty)
    (hscan : checker.scanAll d roots = (d', after, .ok report)) {earlier later : List Path}
    (hlisted : report.results.map Prod.fst = earlier ++ template :: later) :
    let before := checker.scanNeeded d earlier
    let scanned := (before.2.1.scanFile before.1 template).2.1
    (scanned.cache.find? template).any (fun entry => entry.contract.isSome) = true →
      ∀ file ∈ scanned.graph.get template, after.cache.watches file = true := by
  intro before scanned hread file hfile
  obtain ⟨hnormal, hnodup, hrun⟩ := scanAll_report hscan
  rw [hlisted] at hnormal hnodup hrun
  obtain ⟨hearlier, hrest⟩ := List.forall_mem_append.mp hnormal
  obtain ⟨htemplate, -⟩ := List.forall_mem_cons.mp hrest
  have hnew : template ∉ earlier := fun hmem =>
    (List.nodup_append.mp hnodup).2.2 template hmem template List.mem_cons_self rfl
  have hstep := scanFile_step before.2.1 before.1 template
  rw [htemplate] at hstep
  have hnamed := DependencyGraph.mem_get_iff.mp hfile
  rw [htemplate] at hnamed
  have htracked : scanned.cache.inputs.contains file = true := hstep.tracks hread hnamed
  have hneeds : before.2.1.cache.needs template before.2.1.engine.name = true := by
    rw [needs_scanNeeded_of_not_mem hearlier htemplate hnew, hempty]
    rfl
  have hafter : after =
      (scanned.scanNeeded (before.2.1.scanFile before.1 template).1 later).2.1 := by
    have hscanned : (before.2.1.scanNeeded before.1 (template :: later)).2.1 =
        (scanned.scanNeeded (before.2.1.scanFile before.1 template).1 later).2.1 := by
      rw [scanNeeded, if_neg (by simp [hneeds])]
    rw [← hscanned, ← scanNeeded_append, hrun]
  have hkept : after.cache.inputs.contains file = true := by
    rw [hafter]
    exact scanNeeded_preserves (P := fun _ checker => checker.cache.inputs.contains file = true)
      (fun _ _ _ _ => (scanFile_step _ _ _).contains_inputs) htracked
  rw [Cache.watches, Bool.or_eq_true]
  exact Or.inl hkept

/-- **A first run watches nothing else**: what it watches is a template that it has gone over, or is
named by one. -/
theorem mem_or_named_of_watches {d' : Disk} {after : Checker} {roots : List Path} {report : Report}
    (hempty : checker.cache = .empty)
    (hscan : checker.scanAll d roots = (d', after, .ok report)) (hfile : file.normalize = file)
    (hwatches : after.cache.watches file = true) :
    file ∈ report.results.map Prod.fst ∨
      ∃ scanned ∈ report.results.map Prod.fst, file ∈ after.graph.get scanned := by
  have hnormal := normal_scanAll hempty hscan
  have hcovers := covers_scanAll hempty hscan
  rcases (Cache.watches_iff hnormal hfile).mp hwatches with ⟨time, hinput⟩ | ⟨entry, hentry, -⟩
  · obtain ⟨scanned, hscanned, hedge⟩ :=
      hcovers.inputs file (PathMap.mem_keys_iff.mpr ⟨time, hinput⟩)
    refine Or.inr ⟨scanned, hscanned, DependencyGraph.mem_get_iff.mpr ?_⟩
    rwa [hedge.left_normal]
  · exact Or.inl (hcovers.entries file (PathMap.mem_keys_iff.mpr ⟨entry, hentry⟩))

/-! ### Two runs -/

/-- **Which changes a second run notices.** A run has scanned some templates and saved the cache;
then a file changes on which the result for a template depends, and which is up to date otherwise.
The template is stale after the cache is loaded, and is processed by each run that goes over it, if
and only if the file is watched. What a template names is watched if the template could be read when
the first run scanned it, and nothing is watched but what a template of the run names and these
templates themselves. -/
theorem stale_reload_iff_watches {start scanned saved : Disk} {fresh first second : Checker}
    {roots : List Path} {report : Report} {before after : File}
    (hnew : new start config engine = .ok fresh)
    (hscan : fresh.scanAll start roots = (scanned, first, .ok report))
    (hsave : first.saveCache scanned = (saved, .ok ()))
    (hcached : template ∈ first.cache.entries.keys)
    (hread : file ∈ first.graph.dependenciesOf template)
    (hfile : saved.file file = .ok before) (htime : after.time ≠ before.time)
    (hcontent : file = config.cachePath.normalize → after.content = before.content)
    (hagain : new (saved.put file (.file after)) config engine = .ok second)
    (hfresh : (second.loadCache saved).cache.needs template engine.name = false) :
    (template ∈ (second.loadCache (saved.put file (.file after))).cache.staleFiles ↔
        first.cache.watches file = true) ∧
      (∀ {roots' d' third report'},
        (second.loadCache (saved.put file (.file after))).scanAll (saved.put file (.file after))
          roots' = (d', third, .ok report') →
        template ∈ report'.results.map Prod.fst →
        (template ∈ report'.processed ↔ first.cache.watches file = true)) ∧
      (first.cache.watches file = true →
        file ∈ report.results.map Prod.fst ∨
          ∃ scanned ∈ report.results.map Prod.fst, file ∈ first.graph.get scanned) ∧
      ∀ earlier named later, report.results.map Prod.fst = earlier ++ named :: later →
        let run := fresh.scanNeeded start earlier
        let next := (run.2.1.scanFile run.1 named).2.1
        (next.cache.find? named).any (fun entry => entry.contract.isSome) = true →
          file ∈ next.graph.get named → first.cache.watches file = true := by
  obtain ⟨hconfig, -, -, hempty⟩ := new_spec hnew
  obtain ⟨hconfig', hengine', hreuse', hempty'⟩ := new_spec hagain
  have hwatched := @mem_or_named_of_watches fresh start file scanned first roots report hempty hscan
  have hnormal := normal_scanAll hempty hscan
  have hsettings : first.config = second.config := by
    have hkept := (scanAll_keeps fresh start roots).1
    rw [hscan] at hkept
    exact hkept.trans (hconfig.trans hconfig'.symm)
  obtain ⟨entry, hentry⟩ := PathMap.mem_keys_iff.mp hcached
  have hnormalFile : file.normalize = file := by
    obtain ⟨-, hchain⟩ := DependencyGraph.mem_dependenciesOf_iff.mp hread
    exact DependencyGraph.right_normal_of_transGen hchain
  have hdependent : template ∈ first.graph.dependentsOf file :=
    DependencyGraph.mem_dependentsOf_of_mem_dependenciesOf (hnormal.entries.of_mem hentry) hread
  have htouched := Disk.touched_put hnormalFile hfile htime
  -- What is loaded is the saved cache, on the saved disk and after the change.
  obtain ⟨loaded, hload⟩ := load_of_needs_eq_false hempty' hfresh
  rw [saveCache, hsettings] at hsave
  obtain rfl := CacheDocument.eq_of_load_of_save hsave hload
  have hsame : (saved.put file (.file after)).readText second.config.cachePath =
      saved.readText second.config.cachePath := by
    have hplace := Disk.entryAt?_of_file hfile
    rw [hnormalFile] at hplace
    rw [hconfig']
    by_cases hcache : file = config.cachePath.normalize
    · rw [hcache] at hplace ⊢
      exact Disk.readText_put_of_content hplace (hcontent hcache)
    · exact Disk.readText_put_of_ne hplace after (Ne.symm hcache)
  have hreload := (CacheDocument.load_congr hsame).trans hload
  generalize saved.put file (.file after) = now at *
  rw [loadCache_of_load hreuse' hload] at hfresh
  rw [loadCache_of_load hreuse' hreload]
  dsimp only at hfresh ⊢
  obtain ⟨hstale, hneeds⟩ := Cache.stale_sweep_iff_watches hnormal hentry htouched hnormalFile
    (CacheDocument.mem_dependentsOf_graph_ofCache.mpr hdependent) hfresh
  refine ⟨hstale, fun hrun hcovers => ?_, hwatched hnormalFile,
    fun _ _ _ hlisted hlegible => watches_of_mem_get hempty hscan hlisted hlegible file⟩
  rw [mem_processed_iff hrun, and_iff_right hcovers, forall_prop_of_true hreuse', hengine', hneeds]

/-! ### A small project -/

/-- One template, and a module with the shared locals. -/
def tinyDisk : Disk :=
  ⟨[(⟨"/v"⟩, .directory), (⟨"/v/p.pug"⟩, .file ⟨.text "", 7, none⟩),
    (⟨"/s.d.ts"⟩, .file ⟨.text "type S = {}", 7, none⟩)], 9, none⟩

/-- The settings of the project. -/
def tinyConfig : Config :=
  { Config.default with
    projectPath := ⟨"/"⟩, templatePaths := [⟨"/v"⟩], viewsRoot := ⟨"/v"⟩, tmpDir := ⟨"/t"⟩
    cachePath := ⟨"/c"⟩, sharedLocals := some ⟨⟨"/s.d.ts"⟩, "S"⟩ }

/-- A new checker for the project. -/
def tiny : Checker :=
  ⟨tinyConfig, .empty, .empty, .silent, some ⟨⟨"/s.d.ts"⟩, "S", []⟩, true, []⟩

/-- The checker after its first run. -/
def tinyFirst : Checker :=
  (tiny.scanAll tinyDisk []).2.1

/-- The disk after the cache was saved. -/
def tinySaved : Disk :=
  (tinyFirst.saveCache (tiny.scanAll tinyDisk []).1).1

theorem scanAll_tiny : tiny.scanAll tinyDisk [] =
    ((tiny.scanAll tinyDisk []).1, tinyFirst, .ok ⟨[(⟨"/v/p.pug"⟩, [])], [⟨"/v/p.pug"⟩]⟩) := by
  have hreport : (tiny.scanAll tinyDisk []).2.2 =
      .ok ⟨[(⟨"/v/p.pug"⟩, [])], [⟨"/v/p.pug"⟩]⟩ := by decide +kernel
  exact Prod.ext rfl (Prod.ext rfl hreport)

theorem saveCache_tinyFirst :
    tinyFirst.saveCache (tiny.scanAll tinyDisk []).1 = (tinySaved, .ok ()) := by
  have hdone : (tinyFirst.saveCache (tiny.scanAll tinyDisk []).1).2 = .ok () := by decide +kernel
  exact Prod.ext rfl hdone

/-- The cache that was saved can be loaded again. -/
theorem load_tinySaved : CacheDocument.load tinySaved tiny.config.cachePath =
    .ok (some
      (tinyFirst.cache, (CacheDocument.ofCache tinyFirst.cache tinyFirst.graph).graph)) := by
  have hclock : (tiny.scanAll tinyDisk []).1.clock < Text.timeLimit := by decide +kernel
  have hfits : (CacheDocument.ofCache tinyFirst.cache tinyFirst.graph).fits = true := by
    decide +kernel
  have hsettings : tinyFirst.config = tiny.config := (scanAll_keeps tiny tinyDisk []).1
  rw [← hsettings]
  exact load_of_saveCache saveCache_tinyFirst hclock hfits

/-- The template is up to date as long as nothing changes. -/
theorem needs_loadCache_tinySaved :
    (tiny.loadCache tinySaved).cache.needs ⟨"/v/p.pug"⟩ "none" = false := by
  have hnormal := normal_scanAll rfl scanAll_tiny
  have hentries : ∀ entry ∈ tinyFirst.cache.entries.entries, tinySaved.holds entry.1 = true ∧
      tinyFirst.cache.outdated tinySaved
        (CacheDocument.ofCache tinyFirst.cache tinyFirst.graph).graph entry.1 entry.2 = false ∧
      entry.2.engine = "none" := by decide +kernel
  have hcached : (⟨"/v/p.pug"⟩ : Path) ∈ tinyFirst.cache.entries.keys := by decide +kernel
  obtain ⟨entry, hentry⟩ := PathMap.mem_keys_iff.mp hcached
  have hfresh := hentries _ hentry
  rw [loadCache_of_load rfl load_tinySaved]
  dsimp only at hfresh ⊢
  rw [Cache.needs_sweep_eq_false_iff hnormal.entries hentry]
  exact hfresh

/-- A change of the shared locals makes the template stale. -/
theorem stale_reload_tiny : (⟨"/v/p.pug"⟩ : Path) ∈
    (tiny.loadCache (tinySaved.put ⟨"/s.d.ts"⟩
      (.file ⟨.text "type S = {}", 8, none⟩))).cache.staleFiles := by
  have hnew : new tinyDisk tinyConfig .silent = .ok tiny := by rfl
  have hcached : (⟨"/v/p.pug"⟩ : Path) ∈ tinyFirst.cache.entries.keys := by decide +kernel
  have hread : (⟨"/s.d.ts"⟩ : Path) ∈ tinyFirst.graph.dependenciesOf ⟨"/v/p.pug"⟩ := by
    have hne : (⟨"/s.d.ts"⟩ : Path) ≠ (⟨"/v/p.pug"⟩ : Path).normalize := by decide +kernel
    have hedge : tinyFirst.graph.Edge (⟨"/v/p.pug"⟩ : Path).normalize ⟨"/s.d.ts"⟩ := by
      rw [DependencyGraph.Edge]
      decide +kernel
    rw [DependencyGraph.mem_dependenciesOf_iff]
    exact ⟨hne, .single hedge⟩
  have hfile : tinySaved.file ⟨"/s.d.ts"⟩ = .ok ⟨.text "type S = {}", 7, none⟩ := by decide +kernel
  have htime : (⟨.text "type S = {}", 8, none⟩ : File).time ≠
      (⟨.text "type S = {}", 7, none⟩ : File).time := by decide
  have hagain : new (tinySaved.put ⟨"/s.d.ts"⟩ (.file ⟨.text "type S = {}", 8, none⟩)) tinyConfig
      .silent = .ok tiny := by
    have hshared : loadShared (tinySaved.put ⟨"/s.d.ts"⟩ (.file ⟨.text "type S = {}", 8, none⟩))
        tinyConfig = .ok (some ⟨⟨"/s.d.ts"⟩, "S", []⟩) := by decide +kernel
    rw [new, hshared]
    rfl
  have hwatches : tinyFirst.cache.watches ⟨"/s.d.ts"⟩ = true := by decide +kernel
  exact (stale_reload_iff_watches hnew scanAll_tiny saveCache_tinyFirst hcached hread hfile
    htime (fun _ => rfl) hagain needs_loadCache_tinySaved).1.mpr hwatches

end Checker

end PugContracts
