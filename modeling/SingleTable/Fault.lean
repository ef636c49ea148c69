import SingleTable.Attribute.Kind
import SingleTable.Condition.Operator
import SingleTable.Json.Printer

/-! What can go wrong, and how it is reported.

A fault names its cause; `Fault.message` is the only place where causes become
text. Three faults are reported without a text of their own: a schema that
cannot be read, a stored item that holds no readable value, and a call to
the store that failed. -/
namespace SingleTable

/-- Whose physical field a name is. -/
inductive Owner where
  | attribute (name : String)
  | index (name : String)
deriving DecidableEq

inductive SchemaFault where
  | reservedFilter
  | undefinedFacet (facet index : String)
  | duplicatePrimary (index : String)
  | duplicateIndex (id : String)
  | noPartitionFacets (index : String)
  | repeatedFacet (facet index : String)
  | missingPrimary
  | sharedField (field : String) (first second : Owner)
deriving DecidableEq

inductive ChainFault where
  | notAnObject (received : Json)
  | noSortKey (index : String)
  | secondRange
  | rangeAfterFilter
  | partitionChanged (index : String)
  | unknownFilter (name : String)
  | readOnly (name : String)
  | nothingToUpdate
deriving DecidableEq

inductive AttributeFault where
  | refused (reason : Refusal)
  | required
  | undefined
  | operandCount (operator : Operator) (received : Nat)
deriving DecidableEq

inductive Fault where
  | unknownIndex (name : String)
  | incompleteFacets (label : String) (missing : List String)
  | chain (cause : ChainFault)
  | schema (cause : SchemaFault)
  | attribute (name : String) (cause : AttributeFault)
  | unreadableSchema
  | unreadableItem
  | failedCall
deriving DecidableEq

/-- A result that was mapped comes from a result. -/
theorem Fault.map_ok {α β : Type} {f : α → β} {x : Except Fault α} {y : β} (h : x.map f = .ok y) :
    ∃ a, x = .ok a ∧ y = f a := by
  cases x with
  | error fault => exact nomatch h
  | ok a => exact ⟨a, rfl, (Except.ok.inj h).symm⟩

theorem Fault.ok_of_toOption {α : Type} {x : Except Fault α} {a : α} (h : x.toOption = some a) : x = .ok a := by
  cases x with
  | error fault => exact nomatch h
  | ok b => exact congrArg _ (Option.some.inj h)

/-! ### Texts -/

def quoted (name : String) : String := "\"" ++ name ++ "\""

def Owner.describe : Owner → String
  | .attribute name => "attribute " ++ quoted name
  | .index name => "index " ++ quoted name

def SchemaFault.message : SchemaFault → String
  | .reservedFilter => "Invalid filter name. Filter cannot be named \"go\", \"params\", or \"filter\""
  | .undefinedFacet facet index =>
    "Facet " ++ quoted facet ++ " of index " ++ quoted index ++ " is not a defined attribute"
  | .duplicatePrimary index =>
    "Duplicate primary index: " ++ quoted index ++ ". Only one index may omit the \"index\" property"
  | .duplicateIndex id => "Duplicate index identifier: " ++ quoted id
  | .noPartitionFacets index => "Index " ++ quoted index ++ " has no partition key facets"
  | .repeatedFacet facet index =>
    "Facet " ++ quoted facet ++ " is used more than once in index " ++ quoted index
  | .missingPrimary => "Missing primary index. Exactly one index must omit the \"index\" property"
  | .sharedField field first second =>
    "Duplicate field " ++ quoted field ++ ": " ++
      (if first = second then "used twice by " ++ second.describe
        else "used by " ++ first.describe ++ " and " ++ second.describe)

def ChainFault.message : ChainFault → String
  | .notAnObject received => "Expected an object of attribute values, received " ++ received.render
  | .noSortKey index => "Index " ++ quoted index ++ " has no sort key"
  | .secondRange =>
    "Only one sort key condition may be applied: between, gt, gte, lt, lte or begins_with"
  | .rangeAfterFilter => "Sort key conditions must be applied before filters"
  | .partitionChanged index =>
    "Sort key conditions cannot change the partition key of index " ++ quoted index
  | .unknownFilter name => "Unknown filter " ++ quoted name
  | .readOnly name => "Attribute " ++ name ++ " is Read-Only and cannot be updated"
  | .nothingToUpdate => "Nothing to update: set at least one attribute"

def AttributeFault.message : AttributeFault → String
  | .refused reason => reason.message
  | .required => "Value is required"
  | .undefined => "not defined in the entity schema"
  | .operandCount operator received =>
    operator.name ++ " takes " ++ toString operator.arity ++ " operands, received " ++ toString received

def Fault.message : Fault → Option String
  | .unknownIndex name => some ("Invalid index: " ++ name)
  | .incompleteFacets label missing =>
    some ("Incomplete or invalid " ++ label ++ " supplied. Missing properties: " ++
      ", ".intercalate missing)
  | .chain cause => some cause.message
  | .schema cause => some cause.message
  | .attribute name cause => some ("Invalid attribute " ++ name ++ ": " ++ cause.message)
  | .unreadableSchema | .unreadableItem | .failedCall => none

end SingleTable
