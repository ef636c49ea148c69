import SingleTable.Facets
import SingleTable.Index.Basic
import SingleTable.Json.Printer

/-! Composed keys.

A key is a scope followed by one segment `#facet_value` for each facet, in the
order of the index, up to the first facet without a value. Strings stand in a
segment as they are, other values as JSON text. -/
namespace SingleTable

def Json.keyText : Json → String
  | .string value => value
  | other => other.render

namespace Facets

/-- The facets before the first one without a value, each with its value. -/
def leading (values : Facets) : List String → List (String × Json)
  | [] => []
  | name :: rest =>
    match values.value? name with
    | some value => (name, value) :: leading values rest
    | none => []

end Facets

def segment (facet : String) (value : Json) : String := "#" ++ facet ++ "_" ++ value.keyText

def composeKey (scope : String) (facets : List String) (values : Facets) : String :=
  ((values.leading facets).map fun pair => segment pair.1 pair.2).foldl (· ++ ·) scope

structure ComposedKey where
  partition : String
  sorts : List String
deriving DecidableEq

namespace Registry

def partitionKey (r : Registry) (i : Index) (values : Facets) : String :=
  composeKey r.partitionScope i.partition.facets values

def sortKey (r : Registry) (i : Index) (values : Facets) : String :=
  composeKey r.sortScope i.sortFacets values

/-- The partition key of some values and one sort key for each partial map. -/
def compose (r : Registry) (id : String) (values : Facets) (partials : List Facets) :
    Except Fault ComposedKey :=
  (r.get id).map fun i => ⟨r.partitionKey i values, partials.map (r.sortKey i)⟩

/-- The key fields of an index with the keys that the values compose. -/
def keyEntries (r : Registry) (i : Index) (values : Facets) : List (String × Json) :=
  (i.partition.field, .string (r.partitionKey i values)) ::
    i.sort.toList.map fun sort => (sort.field, .string (r.sortKey i values))

end Registry

end SingleTable
