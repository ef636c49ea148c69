import SingleTable.Item.Stored
import SingleTable.Query.Chain
import SingleTable.Store.Call
import SingleTable.Store.Response

/-! The request that a query chain stands for. -/
namespace SingleTable

/-! ### Key conditions -/

/-- A test of the sort key, by placeholders. -/
inductive SortPhrase where
  | beginsWith (name start : String)
  | between (name low high : String)
  | compare (name : String) (comparison : Comparison) (bound : String)
deriving DecidableEq

/-- The condition on the keys of an index, by placeholders. -/
structure KeyPhrase where
  name : String
  value : String
  sort : Option SortPhrase
deriving DecidableEq

def SortPhrase.text : SortPhrase → String
  | .beginsWith name start => "begins_with(" ++ name ++ ", " ++ start ++ ")"
  | .between name low high => name ++ " BETWEEN " ++ low ++ " AND " ++ high
  | .compare name comparison bound => name ++ " " ++ comparison.symbol ++ " " ++ bound

def KeyPhrase.text (k : KeyPhrase) : String :=
  k.name ++ " = " ++ k.value ++
    match k.sort with
    | some sort => " and " ++ sort.text
    | none => ""

/-! ### Parameters -/

structure QueryParams where
  table : String
  index : Option String
  key : KeyPhrase
  filter : Option Phrase
  names : Dict String
  values : Dict Json

namespace Query

open Placeholder (bindName bindValue)

/-- The phrase of a range, with the maps that its placeholders extend. A range
between two bounds reserves a second name for the sort field. -/
def rangePhrase (q : Query) (name field : String) (names : Dict String) (values : Dict Json) :
    SortPhrase × Dict String × Dict Json :=
  match q.sortRange with
  | .beginsWith start =>
    let (start, values) := bindValue values q.clauses.values ":sk1" (.string start)
    (.beginsWith name start, names, values)
  | .compare comparison bound =>
    let (bound, values) := bindValue values q.clauses.values ":sk1" (.string bound)
    (.compare name comparison bound, names, values)
  | .between low high =>
    let (low, values) := bindValue values q.clauses.values ":sk1" (.string low)
    let (high, values) := bindValue values q.clauses.values ":sk2" (.string high)
    let (_, names) := bindName names q.clauses.names "#sk2" field
    (.between name low high, names, values)

/-- The key condition and the maps that resolve it, apart from the placeholders
of the clauses. -/
def keyPhrase (q : Query) : KeyPhrase × Dict String × Dict Json :=
  let (name, names) := bindName .empty q.clauses.names "#pk" q.index.partition.field
  let (value, values) := bindValue .empty q.clauses.values ":pk" (.string q.partitionKey)
  match q.index.sort with
  | none => (⟨name, value, none⟩, names, values)
  | some sort =>
    let (sortName, names) := bindName names q.clauses.names "#sk1" sort.field
    let (phrase, names, values) := q.rangePhrase sortName sort.field names values
    (⟨name, value, some phrase⟩, names, values)

def params (q : Query) : QueryParams :=
  let (key, names, values) := q.keyPhrase
  let expressions := Expressions.join names values q.clauses
  { table := q.entity.table
    index := if q.index.isPrimary then none else some q.index.id
    key := key
    filter := expressions.condition
    names := expressions.names
    values := expressions.values }

end Query

def QueryParams.toJson (encode : Json → Json) (p : QueryParams) : Json :=
  .object (
    ("TableName", .string p.table) ::
    optionalMember "IndexName" (p.index.map .string) ++
    [("KeyConditionExpression", .string p.key.text)] ++
    optionalMember "FilterExpression" (p.filter.map fun phrase => .string phrase.text) ++
    [("ExpressionAttributeNames", nameMap p.names),
      ("ExpressionAttributeValues", valueMap encode p.values)])

/-! ### Running the query -/

def Query.call (q : Query) : Except Fault Call :=
  Call.make q.entity.table "Query" (q.params.toJson Json.toWire)

/-- The attributes of the items found. -/
def Query.receive (q : Query) (response : Response) : Except Fault (List Facets) :=
  match response.items with
  | .error fault => .error fault
  | .ok items => q.entity.formatAll items

end SingleTable
