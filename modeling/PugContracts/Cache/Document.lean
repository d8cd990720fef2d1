import PugContracts.Cache.Basic
import PugContracts.Json.Decode
import PugContracts.Json.Reader
import PugContracts.Text.Timestamp

/-!
# The cache on disk

The cache and the dependency graph are saved together as one JSON document. It is written
atomically. On loading, results come back as they were saved; whether they are stale is for
`Cache.sweep` to tell.

A document has the number of its format. One with another number is refused, and so is a text that
is no such document.
-/

namespace PugContracts

/-- What is saved. -/
structure CacheDocument where
  /-- The results. -/
  entries : List (Path × CacheEntry)
  /-- What each file depends on. -/
  adjacency : List (Path × List Path)
  /-- The times of inputs. -/
  inputs : List (Path × Nat)
  deriving DecidableEq, Repr

namespace CacheDocument

open Json Contract

/-- The number of the format. -/
def version : Nat := 2

/-- The limit for counts and times. -/
def wordLimit : Nat := 0x10000000000000000

/-- The limit for numbers of errors and formats. -/
def halfWordLimit : Nat := 0x100000000

/-! ### Writing -/

/-- A path as a value. -/
def ofPath (p : Path) : Value :=
  .text p.text

/-- An error as a value; what is not known of it is left out. -/
def ofError (error : TemplateError) : Value :=
  .object
    ([("kind", .text error.kind.tag), ("file", ofPath error.file)] ++
      (error.line.map fun line => ("line", Value.count line)).toList ++
      [("message", .text error.message)] ++
      (error.code.map fun code => ("code", Value.count code)).toList)

/-- A member of a shape as a value. -/
def ofField (field : ShapeField) : Value :=
  .object [("name", .text field.name), ("type_text", .text field.typeText),
    ("optional", .truth field.optional)]

/-- A shape as a value. -/
def ofShape (shape : Shape) : Value :=
  .object [("fields", .listOf ofField shape.fields), ("object_literal", .truth shape.objectLiteral)]

/-- An import as a value. -/
def ofImport (record : Import) : Value :=
  .object [("raw", .text record.raw), ("clause", .text record.clause),
    ("symbols", .listOf .text record.symbols), ("module", .text record.source),
    ("type_only", .truth record.typeOnly), ("file", ofPath record.file),
    ("line", .count record.line)]

/-- A contract as a value. -/
def ofContract (contract : Contract) : Value :=
  .object [("template_path", ofPath contract.template), ("raw_expects", .text contract.rawExpects),
    ("expects_line", .optional .count contract.expectsLine), ("shape", ofShape contract.shape),
    ("imports", .listOf ofImport contract.imports),
    ("raw_extends", .listOf .text contract.rawExtends),
    ("extends", .listOf ofPath contract.parents),
    ("raw_includes", .listOf .text contract.rawIncludes),
    ("includes", .listOf ofPath contract.includes)]

/-- A result as a value. -/
def ofEntry (entry : CacheEntry) : Value :=
  .object [("errors", .listOf ofError entry.errors),
    ("contract", .optional ofContract entry.contract), ("mtime_ms", .count entry.time),
    ("engine", .text entry.engine), ("stale", .truth entry.stale)]

/-- A pair as a value. -/
def ofPair {α β : Type} (first : α → Value) (second : β → Value) (pair : α × β) : Value :=
  .list [first pair.1, second pair.2]

/-- A document as a value; `now` is the time of its writing. -/
def encode (document : CacheDocument) (now : String) : Value :=
  .object [("version", .count version), ("saved_at", .text now),
    ("parse_results", .listOf (ofPair ofPath ofEntry) document.entries),
    ("dependency_graph", .listOf (ofPair ofPath (.listOf ofPath)) document.adjacency),
    ("input_times", .listOf (ofPair ofPath .count) document.inputs)]

/-! ### Reading -/

/-- Read a path. -/
def asPath? : Decoder Path :=
  fun value => (asText? value).map Path.mk

/-- Read a kind of errors: its word, or an object with the word as its one member. -/
def asKind? : Decoder ErrorKind
  | .text word | .object [(word, .null)] => ErrorKind.ofTag? word
  | _ => none

/-- Read an error. -/
def asError? : Decoder TemplateError := fun value => do
  let record ← Record.read? ["kind", "file", "line", "message", "code"] value
  return {
    kind := ← record.required? "kind" asKind?
    file := ← record.required? "file" asPath?
    line := ← record.defaulted? "line" none (asOptional? (asCount? wordLimit))
    message := ← record.required? "message" asText?
    code := ← record.defaulted? "code" none (asOptional? (asCount? halfWordLimit)) }

/-- Read a member of a shape. -/
def asField? : Decoder ShapeField := fun value => do
  let record ← Record.read? ["name", "type_text", "optional"] value
  return {
    name := ← record.required? "name" asText?
    typeText := ← record.required? "type_text" asText?
    optional := ← record.required? "optional" asTruth? }

/-- Read a shape. -/
def asShape? : Decoder Shape := fun value => do
  let record ← Record.read? ["fields", "object_literal"] value
  return {
    fields := ← record.required? "fields" (asList? asField?)
    objectLiteral := ← record.required? "object_literal" asTruth? }

/-- Read an import. -/
def asImport? : Decoder Import := fun value => do
  let record ← Record.read?
    ["raw", "clause", "symbols", "module", "type_only", "file", "line"] value
  return {
    raw := ← record.required? "raw" asText?
    clause := ← record.required? "clause" asText?
    symbols := ← record.required? "symbols" (asList? asText?)
    source := ← record.required? "module" asText?
    typeOnly := ← record.required? "type_only" asTruth?
    file := ← record.required? "file" asPath?
    line := ← record.required? "line" (asCount? wordLimit) }

/-- Read a contract. -/
def asContract? : Decoder Contract := fun value => do
  let record ← Record.read?
    ["template_path", "raw_expects", "expects_line", "shape", "imports", "raw_extends", "extends",
      "raw_includes", "includes"] value
  return {
    template := ← record.required? "template_path" asPath?
    rawExpects := ← record.required? "raw_expects" asText?
    expectsLine := ← record.defaulted? "expects_line" none (asOptional? (asCount? wordLimit))
    shape := ← record.defaulted? "shape" .opaqueType asShape?
    imports := ← record.defaulted? "imports" [] (asList? asImport?)
    rawExtends := ← record.defaulted? "raw_extends" [] (asList? asText?)
    parents := ← record.defaulted? "extends" [] (asList? asPath?)
    rawIncludes := ← record.defaulted? "raw_includes" [] (asList? asText?)
    includes := ← record.defaulted? "includes" [] (asList? asPath?) }

/-- Read a result. -/
def asEntry? : Decoder CacheEntry := fun value => do
  let record ← Record.read? ["errors", "contract", "mtime_ms", "engine", "stale"] value
  return {
    errors := ← record.required? "errors" (asList? asError?)
    contract := ← record.optional? "contract" asContract?
    time := ← record.required? "mtime_ms" (asCount? wordLimit)
    engine := ← record.defaulted? "engine" "" asText?
    stale := ← record.defaulted? "stale" false asTruth? }

/-- Read a point in time. -/
def asTimestamp? : Decoder String :=
  fun value => (asText? value).filter Text.isTimestamp

/-- Read a document and the number of its format. -/
def decode? : Decoder (Nat × CacheDocument) := fun value => do
  let record ← Record.read?
    ["version", "saved_at", "parse_results", "dependency_graph", "input_times"] value
  let found ← record.defaulted? "version" version (asCount? halfWordLimit)
  let _ ← record.defaulted? "saved_at" none (asOptional? asTimestamp?)
  return (found, {
    entries := ← record.required? "parse_results" (asList? (asPair? asPath? asEntry?))
    adjacency := ←
      record.required? "dependency_graph" (asList? (asPair? asPath? (asList? asPath?)))
    inputs := ← record.defaulted? "input_times" []
      (asList? (asPair? asPath? (asCount? wordLimit))) })

/-! ### Documents and caches -/

/-- The document of a cache and a graph. -/
def ofCache (cache : Cache) (graph : DependencyGraph) : CacheDocument :=
  ⟨cache.entries.entries, graph.adjacency, cache.inputs.entries⟩

/-- The cache of a document. -/
def cache (document : CacheDocument) : Cache :=
  ⟨.ofList document.entries, .ofList document.inputs⟩

/-- The graph of a document. -/
def graph (document : CacheDocument) : DependencyGraph :=
  .ofAdjacency document.adjacency

/-! ### Files -/

/-- The text of the document of a cache and a graph that is saved at the time `now`. -/
def print (cache : Cache) (graph : DependencyGraph) (now : Nat) : String :=
  ((ofCache cache graph).encode (Text.timestamp now)).print

/-- The cache and the graph of a document's text. -/
def parse (file : Path) (text : String) : Except Failure (Cache × DependencyGraph) :=
  match (Value.read? text).bind decode? with
  | none => .error (.run (.cacheRead file "not a cache document"))
  | some (found, document) =>
    if found = version then .ok (document.cache, document.graph)
    else .error (.run (.cacheVersion found version))

/-- Save a cache and a graph. -/
def save (d : Disk) (cache : Cache) (graph : DependencyGraph) (file : Path) :
    Disk × Except Failure Unit :=
  let (d, result) := d.atomicWrite file (print cache graph d.clock)
  (d, result.mapError (Failure.within ("Failed to save cache to " ++ file.text)))

/-- Load the cache and the graph that were saved; nothing if there is no such file. -/
def load (d : Disk) (file : Path) : Except Failure (Option (Cache × DependencyGraph)) :=
  match d.readText file with
  | .ok text => (parse file text).map some
  | .error .notFound => .ok none
  | .error e => .error (.run (.cacheRead file e.message))

end CacheDocument

end PugContracts
