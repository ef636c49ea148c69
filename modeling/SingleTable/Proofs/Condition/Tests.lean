import SingleTable.Condition.Phrase

/-! The tests that conditions and phrases make, from left to right. -/
namespace SingleTable

/-- A test by attribute, as a condition asks for it. -/
structure Condition.Test where
  name : String
  operator : Operator
  operands : List Json
deriving DecidableEq

/-- A test by placeholders, as a phrase writes it. -/
structure Phrase.Test where
  operator : Operator
  name : String
  values : List String
deriving DecidableEq

/-! ### Lists of tests -/

namespace Condition

mutual
def tests : Condition → List Test
  | .test name operator operands => [⟨name, operator, operands⟩]
  | .group inner => tests inner
  | .join _ parts => testsOf parts

def testsOf : List Condition → List Test
  | [] => []
  | part :: rest => tests part ++ testsOf rest
end

theorem testsOf_eq_flatMap (parts : List Condition) : testsOf parts = parts.flatMap tests := by
  induction parts with
  | nil => rfl
  | cons part rest ih => rw [testsOf, ih, List.flatMap_cons]

end Condition

namespace Phrase

mutual
def tests : Phrase → List Test
  | .test operator name values => [⟨operator, name, values⟩]
  | .parens inner => tests inner
  | .chain _ parts => testsOf parts

def testsOf : List Phrase → List Test
  | [] => []
  | part :: rest => tests part ++ testsOf rest
end

theorem testsOf_append (xs ys : List Phrase) : testsOf (xs ++ ys) = testsOf xs ++ testsOf ys := by
  induction xs with
  | nil => rfl
  | cons x rest ih => rw [List.cons_append, testsOf, ih, testsOf, List.append_assoc]

end Phrase

/-! ### Negated tests -/

/-- The operator whose outcome decides a test: only "does not contain" is written
as the negation of another test. -/
def Operator.positive : Operator → Operator
  | .notContains => .contains
  | operator => operator

def Operator.negated : Operator → Bool
  | .notContains => true
  | _ => false

def Condition.Test.positive (t : Condition.Test) : Condition.Test := { t with operator := t.operator.positive }

def Phrase.Test.positive (t : Phrase.Test) : Phrase.Test := { t with operator := t.operator.positive }

end SingleTable
