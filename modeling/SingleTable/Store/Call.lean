import SingleTable.Condition.Clauses
import SingleTable.Store.Value
import SingleTable.Text.Blank

/-! Calls to the store. -/
namespace SingleTable

/-- An operation of the store with the body that is sent. -/
structure Call where
  operation : String
  body : Json

namespace Call

/-- A call on a table, with the members of its body sorted. The name of the table
must not be blank: nothing is sent to such a table. -/
def make (table operation : String) (body : Json) : Except Fault Call :=
  if Text.isBlank table then .error .failedCall else .ok ⟨operation, body.sorted⟩

theorem make_eq_error_iff {table operation : String} {body : Json} {fault : Fault} :
    make table operation body = .error fault ↔ Text.isBlank table = true ∧ fault = .failedCall := by
  cases h : Text.isBlank table <;> simp [make, h, eq_comm]

def target (c : Call) : String := "DynamoDB_20120810." ++ c.operation

end Call

/-- A JSON value as it is sent. -/
def Json.toWire (value : Json) : Json := (StoredValue.ofJson value).toWire

/-! ### Expressions of a request -/

/-- The condition of a request and the maps that resolve its placeholders. -/
structure Expressions where
  condition : Option Phrase
  names : Dict String
  values : Dict Json

namespace Expressions

/-- Clauses joined to placeholders already bound; without a clause these stay alone. -/
def join (names : Dict String) (values : Dict Json) (clauses : Clauses) : Expressions :=
  match clauses.phrase? with
  | none => ⟨none, names, values⟩
  | some phrase => ⟨some phrase, names.extend clauses.names, values.extend clauses.values⟩

end Expressions

/-! ### Members of a request -/

/-- A member that is left out when it has no value. -/
def optionalMember (key : String) (value : Option Json) : List (String × Json) :=
  value.toList.map fun v => (key, v)

def nameMap (names : Dict String) : Json := .ofDict (names.map fun _ field => .string field)

def valueMap (encode : Json → Json) (values : Dict Json) : Json :=
  .ofDict (values.map fun _ value => encode value)

/-- The members of a write request that come from its expressions; empty maps
are left out. -/
def Expressions.members (encode : Json → Json) (e : Expressions) : List (String × Json) :=
  optionalMember "ConditionExpression" (e.condition.map fun phrase => .string phrase.text) ++
    (if e.names.isEmpty then [] else [("ExpressionAttributeNames", nameMap e.names)]) ++
    (if e.values.isEmpty then [] else [("ExpressionAttributeValues", valueMap encode e.values)])

end SingleTable
