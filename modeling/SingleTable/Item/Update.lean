import SingleTable.Entity
import SingleTable.Store.Call
import SingleTable.Store.Response

/-! Changing some attributes of one item.

Besides the attributes themselves, an update writes the key fields of secondary
indexes that a set attribute is composed into, but only those whose facets are
all known, from the primary key or from what is set: a key that cannot be
composed whole is left alone. -/
namespace SingleTable

structure Update where
  entity : Entity
  key : Dict Json
  facets : Facets
  set : Facets
  clauses : Clauses

/-- A field that gets a value, by placeholders. -/
structure Assignment where
  name : String
  value : String
deriving DecidableEq

structure UpdateParams where
  table : String
  key : Dict Json
  assignments : List Assignment
  expressions : Expressions

def Assignment.text (a : Assignment) : String := a.name ++ " = " ++ a.value

def Entity.update (e : Entity) (input : Json) : Except Fault Update :=
  match e.facets input with
  | .error fault => .error fault
  | .ok facets =>
    match e.primaryKey facets with
    | .error fault => .error fault
    | .ok key =>
      (facets.require e.registry.primary.facetNames Facets.defaultLabel).map fun facets =>
        ⟨e, key, facets, .empty, .empty⟩

namespace Update

/-! ### Steps -/

/-- Set entries one after another. Unknown names are passed over; a read-only
attribute may not be named at all; a null sets the default, if there is one. -/
def setAll (e : Entity) : List (String × Json) → Facets → Except Fault Facets
  | [], set => .ok set
  | (name, value) :: rest, set =>
    match e.attributes.get? name with
    | none => setAll e rest set
    | some a =>
      if a.readOnly then .error (.chain (.readOnly name))
      else
        match a.resolve (some value) with
        | .error fault => .error fault
        | .ok none => setAll e rest set
        | .ok (some value) => setAll e rest (set.insert name value)

def setValues (u : Update) (input : Json) : Except Fault Update :=
  match u.entity.facets input with
  | .error fault => .error fault
  | .ok values => (setAll u.entity values.entries u.set).map fun set => { u with set := set }

def condition (u : Update) (condition : Condition) : Except Fault Update :=
  (u.clauses.apply u.entity.surface condition).map fun clauses => { u with clauses := clauses }

/-! ### What is written -/

/-- The facets known of the item after the update. -/
def known (u : Update) : Facets := u.facets.override u.set

/-- Whether a key field is touched by the update and can be composed whole. -/
def recomposes (u : Update) (key : KeyField) : Bool :=
  key.facets.any u.set.contains && key.facets.all u.known.has

/-- The key fields of one index that the update recomposes, with their keys. -/
def indexKeys (u : Update) (i : Index) : List (String × String) :=
  let r := u.entity.registry
  (if u.recomposes i.partition then [(i.partition.field, r.partitionKey i u.known)] else []) ++
    (i.sort.toList.filter u.recomposes).map fun sort => (sort.field, r.sortKey i u.known)

/-- What is written: identifier, field and value, attributes before keys. -/
def writes (u : Update) : List (String × String × Json) :=
  (u.entity.attributes.values.filterMap fun a =>
      (u.set.get? a.name).map fun value => (a.name, a.field, value)) ++
    ((u.entity.registry.indexes.filter fun i => !i.isPrimary).flatMap u.indexKeys).map
      fun entry => (entry.1, entry.1, .string entry.2)

/-- Bind the placeholders of writes one after another. -/
def assign (taken : Bindings) : List (String × String × Json) → Dict String → Dict Json →
    List Assignment × Dict String × Dict Json
  | [], names, values => ([], names, values)
  | (identifier, field, value) :: rest, names, values =>
    let (name, names) := Placeholder.bindName names taken.names (Placeholder.ofName identifier) field
    let (placeholder, values) :=
      Placeholder.bindValue values taken.values (Placeholder.ofValue identifier) value
    let (assignments, names, values) := assign taken rest names values
    (⟨name, placeholder⟩ :: assignments, names, values)

def params (u : Update) : Except Fault UpdateParams :=
  if u.set.isEmpty then .error (.chain .nothingToUpdate)
  else
    let (assignments, names, values) := assign u.clauses.bindings u.writes .empty .empty
    .ok ⟨u.entity.table, u.key, assignments, .join names values u.clauses⟩

end Update

def UpdateParams.expression (p : UpdateParams) : String :=
  "SET " ++ ", ".intercalate (p.assignments.map Assignment.text)

def UpdateParams.toJson (encode : Json → Json) (p : UpdateParams) : Json :=
  .object (("TableName", .string p.table) :: ("Key", valueMap encode p.key) ::
    ("UpdateExpression", .string p.expression) :: p.expressions.members encode)

namespace Update

def call (u : Update) : Except Fault Call :=
  match u.params with
  | .error fault => .error fault
  | .ok p => Call.make u.entity.table "UpdateItem" (p.toJson Json.toWire)

def receive (_ : Update) (response : Response) : Except Fault Unit :=
  response.done

end Update

end SingleTable
