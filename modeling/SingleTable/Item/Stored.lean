import SingleTable.Entity
import SingleTable.Store.Value

/-! Items as they come back from the store. -/
namespace SingleTable.Entity

/-- The JSON values of all fields; one unreadable field spoils the item. -/
def readFields (item : StoredItem) : Except Fault (Dict Json) :=
  match StoredValue.toMembers? item.entries with
  | some members => .ok (Dict.ofList members)
  | none => .error .unreadableItem

/-- The attributes of an item in the order of their declaration. Fields that are
no attribute's are dropped. -/
def format (e : Entity) (item : StoredItem) : Except Fault Facets :=
  (readFields item).map fun fields =>
    Dict.ofList (e.attributes.values.filterMap fun a =>
      (fields.get? a.field).map fun value => (a.name, value))

def formatAll (e : Entity) : List StoredItem → Except Fault (List Facets)
  | [] => .ok []
  | item :: rest =>
    match e.format item with
    | .error fault => .error fault
    | .ok facets => (e.formatAll rest).map fun others => facets :: others

end SingleTable.Entity
