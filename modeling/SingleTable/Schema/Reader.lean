import SingleTable.Json.Document
import SingleTable.Schema.Basic

/-! Reading a schema from JSON.

A record is an object of its fields or an array of their values in order; trailing
values may be missing. Unknown members of an object are skipped unread, a known
one may not be repeated. Names of attributes and of indexes may be repeated: the
last declaration counts, in the place of the first. -/
namespace SingleTable

namespace Document

/-! ### Records -/

/-- The known members, unless a name is unreadable or a known one is repeated. -/
def knownMembers? (fields : List String) :
    List (Option String × Document) → Option (List (String × Document))
  | [] => some []
  | (none, _) :: _ => none
  | (some key, value) :: rest =>
    match knownMembers? fields rest with
    | none => none
    | some known =>
      if key ∈ fields then
        if key ∈ known.map Prod.fst then none else some ((key, value) :: known)
      else some known

def record? (fields : List String) : Document → Option (List (String × Document))
  | .object members => knownMembers? fields members
  | .array items => if items.length ≤ fields.length then some (fields.zip items) else none
  | _ => none

/-! ### Values -/

def string? : Document → Option String
  | .string value => value
  | _ => none

def bool? : Document → Option Bool
  | .bool value => some value
  | _ => none

def strings? : Document → Option (List String)
  | .array items => items.mapM string?
  | _ => none

def member? {α : Type} (value? : Document → Option α) (member : Option String × Document) :
    Option (String × α) :=
  match member.1, value? member.2 with
  | some key, some value => some (key, value)
  | _, _ => none

def map? {α : Type} (value? : Document → Option α) : Document → Option (Dict α)
  | .object members => (members.mapM (member? value?)).map Dict.ofList
  | _ => none

/-! ### Fields of a record -/

/-- A field that must be there. -/
def required? {α : Type} (record : List (String × Document)) (key : String)
    (value? : Document → Option α) : Option α :=
  (Assoc.lookup key record).bind value?

/-- A field that may be missing or null. -/
def optional? {α : Type} (record : List (String × Document)) (key : String)
    (value? : Document → Option α) : Option (Option α) :=
  match Assoc.lookup key record with
  | none | some .null => some none
  | some document => (value? document).map some

/-- A field that has a default but may not be null. -/
def defaulted? {α : Type} (record : List (String × Document)) (key : String) (default : α)
    (value? : Document → Option α) : Option α :=
  match Assoc.lookup key record with
  | none => some default
  | some document => value? document

end Document

/-! ### Declarations -/

def Scalar.ofName? : String → Option Scalar
  | "string" => some .string
  | "number" => some .number
  | "boolean" => some .boolean
  | _ => none

/-- A scalar's name, alone or as the only name of an object with null under it,
or the list of accepted strings. -/
def Kind.ofDocument? : Document → Option Kind
  | .string (some name) => (Scalar.ofName? name).map .scalar
  | .object [(some name, .null)] => (Scalar.ofName? name).map .scalar
  | .array items => (Document.strings? (.array items)).map .oneOf
  | _ => none

def KeyField.ofDocument? (document : Document) : Option KeyField := do
  let record ← document.record? ["field", "facets"]
  let field ← Document.required? record "field" Document.string?
  let facets ← Document.defaulted? record "facets" [] Document.strings?
  some ⟨field, facets⟩

/-- A text nests at most 127 arrays and objects in one another, three of which
are around a default. -/
def defaultDepth : Nat := 124

def AttributeDeclaration.ofDocument? (document : Document) : Option AttributeDeclaration := do
  let record ← document.record? ["default", "field", "label", "readOnly", "required", "type"]
  let default ← Document.optional? record "default" fun value =>
    if value.depth ≤ defaultDepth then value.toJson? else none
  let field ← Document.optional? record "field" Document.string?
  let label ← Document.optional? record "label" Document.string?
  let readOnly ← Document.defaulted? record "readOnly" false Document.bool?
  let required ← Document.defaulted? record "required" false Document.bool?
  let kind ← Document.defaulted? record "type" (.scalar .string) Kind.ofDocument?
  some ⟨default, field, label, readOnly, required, kind⟩

def IndexDeclaration.ofDocument? (document : Document) : Option IndexDeclaration := do
  let record ← document.record? ["index", "pk", "sk"]
  let id ← Document.optional? record "index" Document.string?
  let partition ← Document.required? record "pk" KeyField.ofDocument?
  let sort ← Document.optional? record "sk" KeyField.ofDocument?
  some ⟨id, partition, sort⟩

namespace Schema

def ofDocument? (document : Document) : Option Schema := do
  let record ← document.record? ["attributes", "entity", "indexes", "service", "table", "version"]
  let attributes ← Document.required? record "attributes"
    (Document.map? AttributeDeclaration.ofDocument?)
  let entity ← Document.required? record "entity" Document.string?
  let indexes ← Document.required? record "indexes" (Document.map? IndexDeclaration.ofDocument?)
  let service ← Document.required? record "service" Document.string?
  let table ← Document.required? record "table" Document.string?
  let version ← Document.required? record "version" Document.string?
  some ⟨service, entity, table, version, attributes, indexes, .empty⟩

def ofText (text : String) : Except Fault Schema :=
  match (Document.read? text).bind ofDocument? with
  | some schema => .ok schema
  | none => .error .unreadableSchema

def ofJson (value : Json) : Except Fault Schema :=
  match ofDocument? (.ofJson value) with
  | some schema => .ok schema
  | none => .error .unreadableSchema

end Schema

end SingleTable
