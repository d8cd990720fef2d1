import PugContracts.Cache.Document
import PugContracts.Proofs.Disk.Write
import PugContracts.Proofs.Graph.Dependents
import PugContracts.Proofs.Json.Decode
import PugContracts.Proofs.Text.Timestamp

/-!
# Loading what was saved

A document is written as a JSON value, the value as a text, and the text as a file. Each of these
steps is undone by the one that reads: `decode?_encode` for the value, `parse_print` for the text,
`eq_of_load_of_save` for the file.

The one thing that can be in the way is a number that is too large for the document (`fits`). It is
then refused as a whole, so a cache that is loaded at all is the one that was saved. The graph comes
back with the same edges, in another order.

## Main results

* `CacheDocument.decode?_encode`, `CacheDocument.parse_print` — a document whose numbers fit comes
  back, any other one is refused
* `CacheDocument.load_eq_saved` — what was saved is loaded
* `CacheDocument.eq_of_load_of_save` — what is loaded is what was saved
-/

namespace PugContracts

open Json Contract

/-! ### What fits a document -/

/-- The numbers of an error are numbers that a document can carry. -/
def TemplateError.fits (error : TemplateError) : Bool :=
  error.line.all (· < CacheDocument.wordLimit) && error.code.all (· < CacheDocument.halfWordLimit)

/-- The line of an import is a number that a document can carry. -/
def Contract.Import.fits (record : Import) : Bool :=
  record.line < CacheDocument.wordLimit

/-- The lines of a contract are numbers that a document can carry. -/
def Contract.fits (contract : Contract) : Bool :=
  contract.expectsLine.all (· < CacheDocument.wordLimit) && contract.imports.all Import.fits

/-- The numbers of a result are numbers that a document can carry. -/
def CacheEntry.fits (entry : CacheEntry) : Bool :=
  entry.errors.all TemplateError.fits && entry.contract.all Contract.fits &&
    entry.time < CacheDocument.wordLimit

namespace CacheDocument

/-- The numbers of a document are numbers that it can carry. -/
def fits (document : CacheDocument) : Bool :=
  document.entries.all (·.2.fits) && document.inputs.all (·.2 < wordLimit)

theorem recovers_path : Recovers asPath? ofPath always := fun _ => rfl

/-- What a path is paired with decides whether the pair fits. -/
theorem recovers_keyed {α : Type} {decode : Decoder α} {encode : α → Value} {fits : α → Bool}
    (h : Recovers decode encode fits) :
    Recovers (asPair? asPath? decode) (ofPair ofPath encode) (fun x => fits x.2) := by
  rintro ⟨file, x⟩
  show ((asPath? (ofPath file)).bind fun a => (decode (encode x)).bind fun b => some (a, b)) = _
  rw [recovers_path file, h x]
  simp [Option.guard, bind_guarded]

theorem recovers_error : Recovers asError? ofError TemplateError.fits := by
  intro error
  obtain ⟨kind, file, line, message, code⟩ := error
  have hkind : asKind? (.text kind.tag) = some kind := ErrorKind.ofTag?_tag kind
  have hline := fun n => (recovers_count wordLimit).optional (by simp) (some n)
  have hcode := fun n => (recovers_count halfWordLimit).optional (by simp) (some n)
  simp only [Value.optional] at hline hcode
  rcases line with _ | line <;> rcases code with _ | code
  all_goals
    rw [asError?, ofError, Record.read?_object (by simp) (by simp)]
    simp [Record.required?, Record.defaulted?, List.lookup_cons, hkind, asText?, asPath?, ofPath,
      hline, hcode, TemplateError.fits, Option.guard, bind_guarded, ite_and]

theorem recovers_field : Recovers asField? ofField always := by
  intro field
  rw [asField?, ofField, Record.read?_object (by simp) (by simp)]
  simp [Record.required?, List.lookup_cons, asText?, asTruth?, Option.guard]

theorem recovers_shape : Recovers asShape? ofShape always := by
  intro shape
  have hfields := recovers_field.listOf shape.fields
  rw [asShape?, ofShape, Record.read?_object (by simp) (by simp)]
  simp [Record.required?, List.lookup_cons, asTruth?, hfields, Option.guard]

theorem recovers_import : Recovers asImport? ofImport Import.fits := by
  intro record
  have hsymbols := recovers_text.listOf record.symbols
  have hline := recovers_count wordLimit record.line
  rw [asImport?, ofImport, Record.read?_object (by simp) (by simp)]
  simp [Record.required?, List.lookup_cons, asText?, asTruth?, asPath?, ofPath, hsymbols, hline,
    Import.fits, Option.guard, bind_guarded]

theorem recovers_contract : Recovers asContract? ofContract Contract.fits := by
  intro contract
  have hline := (recovers_count wordLimit).optional (by simp) contract.expectsLine
  have hshape := recovers_shape contract.shape
  have himports := recovers_import.listOf contract.imports
  have hextends := recovers_text.listOf contract.rawExtends
  have hparents := recovers_path.listOf contract.parents
  have hincludes := recovers_text.listOf contract.rawIncludes
  have hincluded := recovers_path.listOf contract.includes
  rw [asContract?, ofContract, Record.read?_object (by simp) (by simp)]
  simp [Record.required?, Record.defaulted?, List.lookup_cons, asText?, asPath?, ofPath, hline,
    hshape, himports, hextends, hparents, hincludes, hincluded, Contract.fits, Option.guard,
    bind_guarded, ite_and]

theorem recovers_entry : Recovers asEntry? ofEntry CacheEntry.fits := by
  intro entry
  have herrors := recovers_error.listOf entry.errors
  have hcontract := recovers_contract.optional (by simp [ofContract]) entry.contract
  have htime := recovers_count wordLimit entry.time
  rw [ asEntry?, ofEntry, Record.read?_object (by simp) (by simp)]
  simp [Record.required?, Record.defaulted?, Record.optional?, List.lookup_cons, asText?, asTruth?,
    herrors, hcontract, htime, CacheEntry.fits, Option.guard, bind_guarded, ite_and]

/-- **A document is recovered if its numbers fit** and the time of its writing is one. -/
theorem decode?_encode (document : CacheDocument) (now : String) :
    decode? (document.encode now) =
      if Text.isTimestamp now && document.fits then some (version, document) else none := by
  have hentries := (recovers_keyed recovers_entry).listOf document.entries
  have hadjacency := (recovers_keyed recovers_path.listOf).listOf document.adjacency
  have hinputs := (recovers_keyed (recovers_count wordLimit)).listOf document.inputs
  have hversion : asCount? halfWordLimit (.count version) = some version := rfl
  have hnow : asOptional? asTimestamp? (.text now) =
      if Text.isTimestamp now then some (some now) else none := by
    by_cases h : Text.isTimestamp now <;> simp [asOptional?, asTimestamp?, asText?, h]
  rw [decode?, encode, Record.read?_object (by simp) (by simp)]
  simp [Record.required?, Record.defaulted?, List.lookup_cons, hversion, hnow, hentries, hadjacency,
    hinputs, Option.guard, bind_guarded]
  simp only [fits, Bool.and_eq_true, ite_and]

/-! ### Texts -/

theorem legible_path (p : Path) : Legible (ofPath p) := .text _

theorem legible_error (error : TemplateError) : Legible (ofError error) := by
  obtain ⟨kind, file, line, message, code⟩ := error
  refine .object ?_
  cases line <;> cases code <;> simp [Legible.text, Legible.count, legible_path]

theorem legible_field (field : ShapeField) : Legible (ofField field) :=
  .object (by simp [Legible.text, Legible.truth])

theorem legible_shape (shape : Shape) : Legible (ofShape shape) :=
  .object (by simp [Legible.listOf legible_field, Legible.truth])

theorem legible_import (record : Import) : Legible (ofImport record) :=
  .object (by simp [Legible.text, Legible.truth, Legible.count, Legible.listOf Legible.text,
    legible_path])

theorem legible_contract (contract : Contract) : Legible (ofContract contract) :=
  .object (by simp [Legible.text, Legible.optional Legible.count, Legible.listOf Legible.text,
    Legible.listOf legible_path, Legible.listOf legible_import, legible_shape, legible_path])

theorem legible_entry (entry : CacheEntry) : Legible (ofEntry entry) :=
  .object (by simp [Legible.text, Legible.truth, Legible.count, Legible.listOf legible_error,
    Legible.optional legible_contract])

theorem legible_pair {α β : Type} {first : α → Value} {second : β → Value}
    (h : ∀ x, Legible (first x)) (h' : ∀ y, Legible (second y)) (pair : α × β) :
    Legible (ofPair first second pair) :=
  .list (by simp [h, h'])

theorem legible_encode (document : CacheDocument) (now : String) :
    Legible (document.encode now) :=
  .object (by simp [Legible.text, Legible.count,
    Legible.listOf (legible_pair legible_path legible_entry),
    Legible.listOf (legible_pair legible_path (Legible.listOf legible_path)),
    Legible.listOf (legible_pair legible_path Legible.count)])

/-- **What is parsed from a printed document is the document.** -/
theorem parse_print (file : Path) (cache : Cache) (graph : DependencyGraph) (now : Nat) :
    parse file (print cache graph now) =
      if Text.isTimestamp (Text.timestamp now) && (ofCache cache graph).fits then
        .ok ((ofCache cache graph).cache, (ofCache cache graph).graph)
      else .error (.run (.cacheRead file "not a cache document")) := by
  rw [parse, print, Value.read?_print (legible_encode _ _), Option.bind_some, decode?_encode]
  cases Text.isTimestamp (Text.timestamp now) && (ofCache cache graph).fits <;> rfl

/-! ### Files -/

@[simp] theorem cache_ofCache (cache : Cache) (graph : DependencyGraph) :
    (ofCache cache graph).cache = cache := by
  rw [CacheDocument.cache, ofCache, PathMap.ofList_entries, PathMap.ofList_entries]

@[simp] theorem edge_graph_ofCache {cache : Cache} {graph : DependencyGraph} {p q : Path} :
    (ofCache cache graph).graph.Edge p q ↔ graph.Edge p q :=
  DependencyGraph.edge_ofAdjacency_adjacency

/-- What was saved can be loaded if every number in it fits, and its time can be written. -/
theorem load_of_save {d d' : Disk} {cache : Cache} {graph : DependencyGraph} {file : Path}
    (hsave : save d cache graph file = (d', .ok ())) :
    load d' file =
      if Text.isTimestamp (Text.timestamp d.clock) && (ofCache cache graph).fits then
        .ok (some (cache, (ofCache cache graph).graph))
      else .error (.run (.cacheRead file "not a cache document")) := by
  have hwrite : d.atomicWrite file (print cache graph d.clock) = (d', .ok ()) := by
    rw [save] at hsave
    revert hsave
    rcases d.atomicWrite file (print cache graph d.clock) with ⟨written, _ | _⟩ <;>
      simp [Except.mapError]
  rw [load, Disk.readText_atomicWrite hwrite]
  show (parse file (print cache graph d.clock)).map some = _
  rw [parse_print, cache_ofCache]
  split <;> rfl

/-- **Loading undoes saving.** A document that could be written, at a time that can be told and with
numbers that fit, gives back the cache that was saved and a graph with the same edges, which are
listed in the same way. -/
theorem load_eq_saved {d d' : Disk} {cache : Cache} {graph : DependencyGraph} {file : Path}
    (hsave : save d cache graph file = (d', .ok ())) (hclock : d.clock < Text.timeLimit)
    (hfits : (ofCache cache graph).fits = true) :
    ∃ graph', load d' file = .ok (some (cache, graph')) ∧
      (∀ p q, graph'.Edge p q ↔ graph.Edge p q) ∧ graph'.adjacency = graph.adjacency := by
  have hedge : ∀ p q, (ofCache cache graph).graph.Edge p q ↔ graph.Edge p q := fun _ _ =>
    edge_graph_ofCache
  have htime := Text.isTimestamp_timestamp hclock
  refine ⟨(ofCache cache graph).graph, ?_, hedge, DependencyGraph.adjacency_congr hedge⟩
  rw [load_of_save hsave, htime, hfits]
  rfl

/-- A cache with the largest numbers that fit. -/
def brimful : Cache :=
  ⟨.ofList [(⟨"/v/p.pug"⟩,
      ⟨[⟨.typeCheck, ⟨"/v/p.pug"⟩, none, "\"bad\"\n", some (halfWordLimit - 1)⟩],
      some { Contract.ofTemplate ⟨"/v/p.pug"⟩ with expectsLine := some (wordLimit - 1) },
      wordLimit - 1, "tsc", true⟩)],
    .ofList [(⟨"/s.d.ts"⟩, wordLimit - 1)]⟩

/-- A graph of a file that depends on itself. -/
def loop : DependencyGraph :=
  DependencyGraph.empty.add ⟨"/v/p.pug"⟩ ⟨"/v/p.pug"⟩

/-- Both come back. -/
theorem load_brimful :
    ∃ d' graph', save (.blank 9) brimful loop ⟨"/c.json"⟩ = (d', .ok ()) ∧
      load d' ⟨"/c.json"⟩ = .ok (some (brimful, graph')) ∧
      graph'.adjacency = [(⟨"/v/p.pug"⟩, [⟨"/v/p.pug"⟩])] := by
  have hdone : (save (.blank 9) brimful loop ⟨"/c.json"⟩).2 = .ok () := by decide +kernel
  have hsave : save (.blank 9) brimful loop ⟨"/c.json"⟩ =
      ((save (.blank 9) brimful loop ⟨"/c.json"⟩).1, .ok ()) := Prod.ext rfl hdone
  have hfits : (ofCache brimful loop).fits = true := by decide +kernel
  have hlisted : loop.adjacency = [(⟨"/v/p.pug"⟩, [⟨"/v/p.pug"⟩])] := by decide +kernel
  obtain ⟨graph', hload, -, hadjacency⟩ := load_eq_saved hsave (by decide) hfits
  exact ⟨_, graph', hsave, hload, hadjacency.trans hlisted⟩

/-- **What is loaded is what was saved.** -/
theorem eq_of_load_of_save {d d' : Disk} {cache : Cache} {graph : DependencyGraph} {file : Path}
    {loaded : Cache × DependencyGraph} (hsave : save d cache graph file = (d', .ok ()))
    (hload : load d' file = .ok (some loaded)) :
    loaded = (cache, (ofCache cache graph).graph) := by
  rw [load_of_save hsave] at hload
  split at hload
  · exact (Option.some.inj (Except.ok.inj hload)).symm
  · exact absurd hload (by simp)

end CacheDocument

end PugContracts
