import SingleTable.Condition.Operator
import SingleTable.Json.Basic

/-! Conditions on the attributes of an item.

A condition is a tree of tests. `and` and `or` extend a conjunction or a
disjunction on their left in place of nesting it. -/
namespace SingleTable

inductive Connective where
  | and
  | or
deriving DecidableEq

inductive Condition where
  | test (name : String) (operator : Operator) (operands : List Json)
  | group (inner : Condition)
  | join (connective : Connective) (parts : List Condition)

namespace Condition

instance : Inhabited Condition := ⟨.join .and []⟩

/-! ### Tests of one attribute -/

def eq (name : String) (value : Json) : Condition := .test name .eq [value]

def ne (name : String) (value : Json) : Condition := .test name .ne [value]

def gt (name : String) (value : Json) : Condition := .test name .gt [value]

def gte (name : String) (value : Json) : Condition := .test name .gte [value]

def lt (name : String) (value : Json) : Condition := .test name .lt [value]

def lte (name : String) (value : Json) : Condition := .test name .lte [value]

def between (name : String) (low high : Json) : Condition := .test name .between [low, high]

def beginsWith (name : String) (value : Json) : Condition := .test name .beginsWith [value]

def contains (name : String) (value : Json) : Condition := .test name .contains [value]

def notContains (name : String) (value : Json) : Condition := .test name .notContains [value]

def «exists» (name : String) : Condition := .test name .exists []

def notExists (name : String) : Condition := .test name .notExists []

/-! ### Combinations -/

def combine (connective : Connective) (left right : Condition) : Condition :=
  match left with
  | .join other parts =>
    if other = connective then .join connective (parts ++ [right])
    else .join connective [left, right]
  | _ => .join connective [left, right]

def and (left right : Condition) : Condition := combine .and left right

def or (left right : Condition) : Condition := combine .or left right

def all (parts : List Condition) : Condition := .join .and parts

def any (parts : List Condition) : Condition := .join .or parts

end Condition

end SingleTable
