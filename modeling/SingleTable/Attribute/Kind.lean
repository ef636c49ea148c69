import SingleTable.Json.Basic

/-! Kinds of attributes and the values they take.

An attribute holds strings, numbers or booleans, or one of a list of accepted
strings. Arrays, objects and null are of no kind. -/
namespace SingleTable

inductive Scalar where
  | string
  | number
  | boolean
deriving DecidableEq

def Scalar.name : Scalar → String
  | .string => "string"
  | .number => "number"
  | .boolean => "boolean"

inductive Kind where
  | scalar (type : Scalar)
  | oneOf (accepted : List String)
deriving DecidableEq

def Json.typeName : Json → String
  | .null => "null"
  | .bool _ => "boolean"
  | .number _ => "number"
  | .string _ => "string"
  | .array _ => "array"
  | .object _ => "object"

/-- Why a value is not of a kind. -/
inductive Refusal where
  | wrongType (received : String) (expected : Scalar)
  | notAccepted (accepted : List String)
deriving DecidableEq

def Refusal.message : Refusal → String
  | .wrongType received expected =>
    "Received value of type " ++ received ++ ", expected value of type " ++ expected.name
  | .notAccepted accepted =>
    "Value not found in set of acceptable values: " ++ ", ".intercalate accepted

def Scalar.admits : Scalar → Json → Bool
  | .string, .string _ => true
  | .number, .number _ => true
  | .boolean, .bool _ => true
  | _, _ => false

namespace Kind

/-- What a kind has against a value, if anything. -/
def refusal? : Kind → Json → Option Refusal
  | .scalar type, value => if type.admits value then none else some (.wrongType value.typeName type)
  | .oneOf accepted, .string value => if value ∈ accepted then none else some (.notAccepted accepted)
  | .oneOf accepted, _ => some (.notAccepted accepted)

/-- Null is of no kind. -/
theorem refusal?_null (kind : Kind) : kind.refusal? .null ≠ none := by
  cases kind with
  | scalar type => cases type <;> decide
  | oneOf accepted => simp [refusal?]

end Kind

end SingleTable
