import SingleTable.Item.Stored
import SingleTable.Store.Call
import SingleTable.Store.Response

/-! Reading one item by its primary key. -/
namespace SingleTable

structure Get where
  entity : Entity
  key : Dict Json

structure GetParams where
  table : String
  key : Dict Json

def Entity.get (e : Entity) (input : Json) : Except Fault Get :=
  match e.facets input with
  | .error fault => .error fault
  | .ok facets => (e.primaryKey facets).map fun key => ⟨e, key⟩

def GetParams.toJson (encode : Json → Json) (p : GetParams) : Json :=
  .object [("TableName", .string p.table), ("Key", valueMap encode p.key)]

namespace Get

def params (g : Get) : GetParams := ⟨g.entity.table, g.key⟩

def call (g : Get) : Except Fault Call :=
  Call.make g.entity.table "GetItem" (g.params.toJson Json.toWire)

/-- The attributes of the item, if there is one. -/
def receive (g : Get) (response : Response) : Except Fault (Option Facets) :=
  match response.item with
  | .error fault => .error fault
  | .ok none => .ok none
  | .ok (some item) => (g.entity.format item).map some

end Get

end SingleTable
