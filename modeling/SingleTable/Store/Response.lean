import SingleTable.Fault
import SingleTable.Store.Shape

/-! Responses of the store. -/
namespace SingleTable

structure Response where
  status : Nat
  body : Json

namespace Response

/-- The body, if the store has done what it was asked and the body has the shape
of the operation. -/
def accepted (r : Response) (shape : Shape) : Except Fault Json :=
  if r.status = 200 ∧ shape.admits r.body then .ok r.body else .error .failedCall

def itemOf? : Json → Option StoredItem
  | .object members => (StoredValue.ofWireMembers? members).map Dict.ofList
  | _ => none

def itemsOf? : Json → Option (List StoredItem)
  | .array items => items.mapM itemOf?
  | _ => none

/-- Everything of the shape of an item is read as one. -/
theorem isSome_itemOf? (value : Json) : (itemOf? value).isSome = Shape.item.admits value := by
  cases value <;> simp [itemOf?, Shape.item, Shape.admits, StoredValue.isSome_ofWireMembers?]

/-- The item of the response, if it has one. -/
def item (r : Response) : Except Fault (Option StoredItem) :=
  (r.accepted .ofGet).map fun body => (body.member? "Item").bind itemOf?

/-- The items of the response, none if it does not speak of any. -/
def items (r : Response) : Except Fault (List StoredItem) :=
  (r.accepted .ofQuery).map fun body => ((body.member? "Items").bind itemsOf?).getD []

/-- Whether a write was done. -/
def done (r : Response) : Except Fault Unit := (r.accepted .ofWrite).map fun _ => ()

end Response

end SingleTable
