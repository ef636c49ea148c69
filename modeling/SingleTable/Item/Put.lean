import SingleTable.Entity
import SingleTable.Store.Call
import SingleTable.Store.Response

/-! Writing a whole item.

Every attribute resolves to a value, given or default, or to none if it is not
required; every facet of every index needs one. The stored item has the resolved
attributes under their fields and the key fields of all indexes. -/
namespace SingleTable

structure Put where
  entity : Entity
  attributes : Facets
  item : Dict Json
  clauses : Clauses

structure PutParams where
  table : String
  item : Dict Json
  expressions : Expressions

namespace Entity

/-- Resolve attributes one after another. -/
def resolveAll (supplied : Facets) : List Attribute → Facets → Except Fault Facets
  | [], resolved => .ok resolved
  | a :: rest, resolved =>
    match a.resolve (supplied.get? a.name) with
    | .error fault => .error fault
    | .ok none => resolveAll supplied rest resolved
    | .ok (some value) => resolveAll supplied rest (resolved.insert a.name value)

/-- The fields of resolved attributes, and then the key fields of each index. -/
def itemEntries (e : Entity) (resolved : Facets) : List (String × Json) :=
  (e.attributes.values.filterMap fun a =>
      (resolved.get? a.name).map fun value => (a.field, value)) ++
    e.registry.indexes.flatMap fun i => e.registry.keyEntries i resolved

def put (e : Entity) (input : Json) : Except Fault Put :=
  match e.facets input with
  | .error fault => .error fault
  | .ok supplied =>
    match resolveAll supplied e.attributes.values .empty with
    | .error fault => .error fault
    | .ok resolved =>
      match resolved.require e.registry.facetNames Facets.defaultLabel with
      | .error fault => .error fault
      | .ok _ => .ok ⟨e, resolved, Dict.ofList (e.itemEntries resolved), .empty⟩

end Entity

def PutParams.toJson (encode : Json → Json) (p : PutParams) : Json :=
  .object (("TableName", .string p.table) :: ("Item", valueMap encode p.item) ::
    p.expressions.members encode)

namespace Put

def condition (p : Put) (condition : Condition) : Except Fault Put :=
  (p.clauses.apply p.entity.surface condition).map fun clauses => { p with clauses := clauses }

def params (p : Put) : PutParams :=
  ⟨p.entity.table, p.item, .join .empty .empty p.clauses⟩

def call (p : Put) : Except Fault Call :=
  Call.make p.entity.table "PutItem" (p.params.toJson Json.toWire)

/-- The attributes that were written. -/
def receive (p : Put) (response : Response) : Except Fault Facets :=
  response.done.map fun _ => p.attributes

end Put

end SingleTable
