import PugContracts.Contract.Basic
import PugContracts.Disk.Basic
import PugContracts.Graph.Basic

/-!
# The cache of results

The cache remembers for each template what its last check found, when the template had been changed
before that check, and which engine did it. For every other file that some template depends on, an
*input*, it remembers the time of its last change.

`sweep` compares these times with the disk. A template that has changed is stale; one that is gone
is evicted. Whatever depends on a changed input, on an evicted template or on a stale template is
stale too, however long the chain of dependencies. A run then has to process the templates that are
stale or not cached, and no others.
-/

namespace PugContracts

/-- The result of the last check of a template. -/
structure CacheEntry where
  /-- What was found. -/
  errors : List TemplateError
  /-- The contract; absent if the template could not be read. -/
  contract : Option Contract
  /-- When the template had been changed; zero if that is unknown. -/
  time : Nat
  /-- The engine that checked it. -/
  engine : String
  /-- Whether the result may be out of date. -/
  stale : Bool
  deriving DecidableEq, Repr

/-- Results by template, and times of the other files that templates depend on. -/
structure Cache where
  /-- The results. -/
  entries : PathMap CacheEntry
  /-- The times of inputs; zero for one that does not exist. -/
  inputs : PathMap Nat

namespace Cache

/-- The cache without results. -/
def empty : Cache :=
  ⟨.empty, .empty⟩

instance : EmptyCollection Cache := ⟨empty⟩

instance : Inhabited Cache := ⟨empty⟩

/-- The result for a template. -/
def find? (cache : Cache) (file : Path) : Option CacheEntry :=
  cache.entries.find? file

/-- Put a result as it is. -/
def insert (cache : Cache) (file : Path) (entry : CacheEntry) : Cache :=
  { cache with entries := cache.entries.insert file entry }

/-- Forget the result for a template. -/
def erase (cache : Cache) (file : Path) : Cache :=
  { cache with entries := cache.entries.erase file }

/-- Record the result of checking a template now. -/
def record (cache : Cache) (d : Disk) (file : Path) (engine : String) (errors : List TemplateError)
    (contract : Option Contract) : Cache :=
  cache.insert file ⟨errors, contract, d.inputTime file, engine, false⟩

/-- Put the time of an input as it is. -/
def insertInput (cache : Cache) (file : Path) (time : Nat) : Cache :=
  { cache with inputs := cache.inputs.insert file time }

/-- Remember the times of inputs as they are now. -/
def track (cache : Cache) (d : Disk) (files : List Path) : Cache :=
  files.foldl (fun cache file => cache.insertInput file (d.inputTime file)) cache

/-- The number of results. -/
def size (cache : Cache) : Nat :=
  cache.entries.size

/-- The number of errors in all results. -/
def errorCount (cache : Cache) : Nat :=
  (cache.entries.values.flatMap CacheEntry.errors).length

/-! ### Staleness -/

/-- Flag the result for a template as stale. -/
def markStale (cache : Cache) (file : Path) : Cache :=
  { cache with entries := cache.entries.modify file fun entry => { entry with stale := true } }

/-- Flag the results for several templates as stale. -/
def markAll (cache : Cache) (files : List Path) : Cache :=
  files.foldl markStale cache

/-- The templates whose results are stale. -/
def staleFiles (cache : Cache) : List Path :=
  (cache.entries.filter fun _ entry => entry.stale).keys

/-- Whether a template has to be processed by an engine. -/
def needs (cache : Cache) (file : Path) (engine : String) : Bool :=
  match cache.find? file with
  | none => true
  | some entry => entry.stale || entry.engine != engine

/-- Flag what depends on a template that is stale and could be read. -/
def markDependents (cache : Cache) (graph : DependencyGraph) : Cache :=
  let roots := (cache.entries.filter fun _ entry => entry.stale && entry.contract.isSome).keys
  cache.markAll (roots.flatMap graph.dependentsOf)

/-! ### Sweeping -/

/-- Forget the inputs that nothing depends on, note the current times of the others, and flag what
depends on a changed one. -/
def sweepInputs (cache : Cache) (d : Disk) (graph : DependencyGraph) : Cache :=
  let inputs := cache.inputs.filter fun file _ => !(graph.dependentsOf file).isEmpty
  let changed := (inputs.filter fun file time => d.inputTime file != time).keys
  { cache with inputs := inputs.mapValues fun file _ => d.inputTime file }.markAll
    (changed.flatMap graph.dependentsOf)

/-- Flag the results for templates that have changed. -/
def sweepEntries (cache : Cache) (d : Disk) : Cache :=
  { cache with entries := cache.entries.mapValues fun file entry =>
      match d.modified file with
      | .ok time => if time = entry.time then entry else { entry with stale := true }
      | .error _ => entry }

/-- The templates with results that do not exist. -/
def missing (cache : Cache) (d : Disk) : List Path :=
  (cache.entries.filter fun file _ => !d.holds file).keys

/-- Evict a template: flag what depends on it, and forget its result and what it depends on. -/
def evict (cache : Cache) (graph : DependencyGraph) (file : Path) : Cache × DependencyGraph :=
  ((cache.markAll (graph.dependentsOf file)).erase file, graph.clear file)

/-- Evict templates one after the other. -/
def evictAll (cache : Cache) (graph : DependencyGraph) (files : List Path) :
    Cache × DependencyGraph :=
  files.foldl (fun (cache, graph) file => cache.evict graph file) (cache, graph)

/-- Bring the flags up to date with the disk: the cache, the graph, and the templates that were
evicted. -/
def sweep (cache : Cache) (d : Disk) (graph : DependencyGraph) :
    Cache × DependencyGraph × List Path :=
  let cache := (cache.sweepInputs d graph).sweepEntries d
  let gone := cache.missing d
  let (cache, graph) := cache.evictAll graph gone
  (cache.markDependents graph, graph, gone)

end Cache

end PugContracts
