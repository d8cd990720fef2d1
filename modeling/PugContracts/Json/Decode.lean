import PugContracts.Json.Value

/-!
# Reading documents

A document is read by small readers, one for each kind of value, which answer nothing for a value of
another kind. A record may be written as an object or as an array:

* in an object the members that the record does not know are skipped, and a member that it knows may
  stand once only;
* in an array the values stand in the order of the record's members; those at the end may be left
  out if they have a default.
-/

namespace PugContracts.Json

/-- A reader for values of a type. -/
abbrev Decoder (α : Type) := Value → Option α

/-- Read a truth value. -/
def asTruth? : Decoder Bool
  | .truth value => some value
  | _ => none

/-- Read a text. -/
def asText? : Decoder String
  | .text value => some value
  | _ => none

/-- Read a number below `limit`. -/
def asCount? (limit : Nat) : Decoder Nat
  | .count value => if value < limit then some value else none
  | _ => none

/-- Read an array of values. -/
def asList? {α : Type} (decode : Decoder α) : Decoder (List α)
  | .list items => items.mapM decode
  | _ => none

/-- Read an array of two values. -/
def asPair? {α β : Type} (first : Decoder α) (second : Decoder β) : Decoder (α × β)
  | .list [a, b] => do return (← first a, ← second b)
  | _ => none

/-- Read a value that may be `null`. -/
def asOptional? {α : Type} (decode : Decoder α) : Decoder (Option α)
  | .null => some none
  | value => (decode value).map some

/-! ### Records -/

/-- What a value holds of a record. -/
structure Record where
  /-- Whether it is written as an array. -/
  positional : Bool
  /-- The members that are there, by name. -/
  members : List (String × Value)

namespace Record

/-- Read a record with the given members. -/
def read? (names : List String) : Decoder Record
  | .object members =>
    let known := members.filter fun (name, _) => names.contains name
    let found := known.map Prod.fst
    if found.eraseDups.length = found.length then some ⟨false, known⟩ else none
  | .list items => if items.length ≤ names.length then some ⟨true, names.zip items⟩ else none
  | _ => none

/-- Read a member that has to be there. -/
def required? {α : Type} (record : Record) (name : String) (decode : Decoder α) : Option α :=
  (record.members.lookup name).bind decode

/-- Read a member that has a default. -/
def defaulted? {α : Type} (record : Record) (name : String) (default : α) (decode : Decoder α) :
    Option α :=
  match record.members.lookup name with
  | some value => decode value
  | none => some default

/-- Read a member that may be `null`, and may be left out of an object. -/
def optional? {α : Type} (record : Record) (name : String) (decode : Decoder α) :
    Option (Option α) :=
  match record.members.lookup name with
  | some value => asOptional? decode value
  | none => if record.positional then none else some none

end Record

end PugContracts.Json
