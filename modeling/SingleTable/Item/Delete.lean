import SingleTable.Entity
import SingleTable.Store.Call
import SingleTable.Store.Response

/-! Deleting one item by its primary key, on conditions. -/
namespace SingleTable

structure Delete where
  entity : Entity
  key : Dict Json
  clauses : Clauses

structure DeleteParams where
  table : String
  key : Dict Json
  expressions : Expressions

def Entity.delete (e : Entity) (input : Json) : Except Fault Delete :=
  match e.facets input with
  | .error fault => .error fault
  | .ok facets => (e.primaryKey facets).map fun key => ⟨e, key, .empty⟩

def DeleteParams.toJson (encode : Json → Json) (p : DeleteParams) : Json :=
  .object (("TableName", .string p.table) :: ("Key", valueMap encode p.key) ::
    p.expressions.members encode)

namespace Delete

def condition (d : Delete) (condition : Condition) : Except Fault Delete :=
  (d.clauses.apply d.entity.surface condition).map fun clauses => { d with clauses := clauses }

def params (d : Delete) : DeleteParams :=
  ⟨d.entity.table, d.key, .join .empty .empty d.clauses⟩

def call (d : Delete) : Except Fault Call :=
  Call.make d.entity.table "DeleteItem" (d.params.toJson Json.toWire)

def receive (_ : Delete) (response : Response) : Except Fault Unit :=
  response.done

end Delete

end SingleTable
