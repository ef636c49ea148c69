/-! The tests a condition can make of one attribute. -/
namespace SingleTable

inductive Operator where
  | beginsWith
  | between
  | contains
  | eq
  | exists
  | gt
  | gte
  | lt
  | lte
  | ne
  | notContains
  | notExists
deriving DecidableEq

namespace Operator

def name : Operator → String
  | .beginsWith => "BeginsWith"
  | .between => "Between"
  | .contains => "Contains"
  | .eq => "Eq"
  | .exists => "Exists"
  | .gt => "Gt"
  | .gte => "Gte"
  | .lt => "Lt"
  | .lte => "Lte"
  | .ne => "Ne"
  | .notContains => "NotContains"
  | .notExists => "NotExists"

/-- How many operands a test compares its attribute with. -/
def arity : Operator → Nat
  | .exists | .notExists => 0
  | .between => 2
  | _ => 1

end Operator

end SingleTable
