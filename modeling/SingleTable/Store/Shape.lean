import SingleTable.Store.Value

/-! Shapes of the bodies that the store responds with.

The members that an operation's response may have are of fixed shapes, whether
the library reads them or not: a response with one member out of shape is of no
use. A member that is null counts as missing, but the items of a list and the
members of a map may not be null. Members that a shape does not name are free. -/
namespace SingleTable

inductive Shape where
  | count
  | measure
  | text
  | value
  | list (items : Shape)
  | map (members : Shape)
  | record (members : List (String × Shape))

namespace Shape

/-- From `-2^31` up to, but not including, `2^31`. -/
def isCount (n : Number) : Bool := n.integer?.any fun i => -2147483648 ≤ i && i < 2147483648

/-- A measure that is not finite is a text. -/
def isNonFinite (text : String) : Bool := StoredValue.readNumber? text == some .null

mutual
def admits : Shape → Json → Bool
  | .count, .number n => isCount n
  | .measure, .number _ => true
  | .measure, .string s => isNonFinite s
  | .text, .string _ => true
  | .value, json => (StoredValue.ofWire? json).isSome
  | .list shape, .array elements => elements.all fun element => admits shape element
  | .map shape, .object entries => entries.all fun entry => admits shape entry.2
  | .record shapes, .object entries =>
    entries.all fun entry => entry.2.isNull || admitsMember shapes entry.1 entry.2
  | _, _ => false

def admitsMember : List (String × Shape) → String → Json → Bool
  | [], _, _ => true
  | (known, shape) :: rest, name, json =>
    if known = name then admits shape json else admitsMember rest name json
end

/-! ### Parts of responses -/

def item : Shape := .map .value

def capacityUnits : List (String × Shape) :=
  [("CapacityUnits", .measure), ("ReadCapacityUnits", .measure), ("WriteCapacityUnits", .measure)]

def vectorBytes : List (String × Shape) :=
  [("VectorSearchRequestBytes", .measure), ("VectorWriteRequestBytes", .measure)]

/-- What a call used of the capacity of its table and of each index. -/
def capacity : Shape :=
  .record (capacityUnits ++
    [("TableName", .text), ("Table", .record capacityUnits),
      ("LocalSecondaryIndexes", .map (.record capacityUnits)),
      ("GlobalSecondaryIndexes", .map (.record capacityUnits)),
      ("VectorIndexes", .map (.record vectorBytes))])

/-- How large the collection of an item is. -/
def collection : Shape :=
  .record [("ItemCollectionKey", item), ("SizeEstimateRangeGB", .list .measure)]

/-! ### Responses -/

def ofGet : Shape := .record [("Item", item), ("ConsumedCapacity", capacity)]

def ofQuery : Shape :=
  .record [("Items", .list item), ("Count", .count), ("ScannedCount", .count),
    ("LastEvaluatedKey", item), ("ConsumedCapacity", capacity)]

/-- The response to a put, an update or a deletion. -/
def ofWrite : Shape :=
  .record [("Attributes", item), ("ConsumedCapacity", capacity), ("ItemCollectionMetrics", collection)]

end Shape

end SingleTable
