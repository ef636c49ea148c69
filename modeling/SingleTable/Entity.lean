import SingleTable.Schema.Check

/-! Entities: schemas that have passed every check.

All requests start from an entity. It reads the values a caller supplies, and
composes the primary key that addresses one item. -/
namespace SingleTable

structure Entity where
  table : String
  attributes : Dict Attribute
  filters : Dict Filter
  registry : Registry

namespace Entity

def checked (s : Schema) : Except SchemaFault Entity :=
  if s.hasReservedFilter then .error .reservedFilter
  else
    match s.indexList.findSome? s.undefinedFacet? with
    | some fault => .error fault
    | none =>
      match s.registry with
      | .error fault => .error fault
      | .ok registry =>
        let attributes := s.attributes.map (Attribute.ofDeclaration registry.primary.facetNames)
        let fields := Schema.attributeFields attributes ++ Schema.keyFields registry.indexes
        match Schema.sharedField? [] fields with
        | some fault => .error fault
        | none => .ok ⟨s.table, attributes, s.filters, registry⟩

def ofSchema (s : Schema) : Except Fault Entity := (checked s).mapError .schema

def surface (e : Entity) : Surface := ⟨e.attributes⟩

/-! ### Values from the caller -/

/-- What an attribute's kind has against an entry; nulls and unknown names pass. -/
def entryFault? (e : Entity) (entry : String × Json) : Option Fault :=
  if entry.2.isNull then none
  else
    (e.attributes.get? entry.1).bind fun a =>
      (a.kind.refusal? entry.2).map fun reason => .attribute entry.1 (.refused reason)

/-- The facet values that a caller's value denotes, all of their kinds. -/
def facets (e : Entity) (input : Json) : Except Fault Facets :=
  match Facets.ofJson input with
  | .error fault => .error fault
  | .ok facets =>
    match facets.entries.findSome? e.entryFault? with
    | some fault => .error fault
    | none => .ok facets

/-! ### The primary key -/

def partitionLabel : String := "partition keys"

def sortLabel : String := "sort keys"

/-- The key fields of the primary index, for which all its facets are needed. -/
def primaryKey (e : Entity) (facets : Facets) : Except Fault (Dict Json) :=
  let primary := e.registry.primary
  match facets.require primary.partition.facets partitionLabel with
  | .error fault => .error fault
  | .ok _ =>
    match facets.require primary.sortFacets sortLabel with
    | .error fault => .error fault
    | .ok _ => .ok (Dict.ofList (e.registry.keyEntries primary facets))

end Entity

end SingleTable
