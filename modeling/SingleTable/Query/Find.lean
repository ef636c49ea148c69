import SingleTable.Index.Route
import SingleTable.Query.Chain

/-! Finding items by any attributes.

The attributes choose the index: those that it matches go into its keys, and the
others into a filter that asks for their equality. -/
namespace SingleTable.Entity

/-- The condition that every entry holds. -/
def equalities (entries : List (String × Json)) : Condition :=
  .all (entries.map fun entry => .eq entry.1 entry.2)

def find (e : Entity) (input : Json) : Except Fault Query :=
  match e.facets input with
  | .error fault => .error fault
  | .ok supplied =>
    match e.registry.route? supplied.present.keys with
    | none =>
      .error (.incompleteFacets partitionLabel
        (supplied.missing e.registry.primary.partition.facets))
    | some route =>
      let matched := supplied.present.filter fun name _ => name ∈ route.facets
      let remaining := supplied.present.filter fun name _ => name ∉ route.facets
      match Query.start e route.index matched with
      | .error fault => .error fault
      | .ok query =>
        if remaining.isEmpty then .ok query else query.filter (equalities remaining.entries)

end SingleTable.Entity
