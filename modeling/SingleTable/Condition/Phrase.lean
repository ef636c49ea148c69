import SingleTable.Condition.Basic

/-! Conditions as they are written in an expression.

A phrase is a condition with placeholders for its names and values, with every
pair of parentheses explicit and no empty part. Its text is what the store
reads; there AND binds tighter than OR. -/
namespace SingleTable

inductive Phrase where
  | test (operator : Operator) (name : String) (values : List String)
  | parens (inner : Phrase)
  | chain (connective : Connective) (parts : List Phrase)

def Connective.text : Connective → String
  | .and => " AND "
  | .or => " OR "

def Operator.text (operator : Operator) (name : String) (values : List String) : String :=
  match operator with
  | .beginsWith => "begins_with(" ++ name ++ ", " ++ ", ".intercalate values ++ ")"
  | .between => "(" ++ name ++ " between " ++ " and ".intercalate values ++ ")"
  | .contains => "contains(" ++ name ++ ", " ++ ", ".intercalate values ++ ")"
  | .eq => name ++ " = " ++ ", ".intercalate values
  | .gt => name ++ " > " ++ ", ".intercalate values
  | .gte => name ++ " >= " ++ ", ".intercalate values
  | .lt => name ++ " < " ++ ", ".intercalate values
  | .lte => name ++ " <= " ++ ", ".intercalate values
  | .ne => name ++ " <> " ++ ", ".intercalate values
  | .notContains => "not contains(" ++ name ++ ", " ++ ", ".intercalate values ++ ")"
  | .exists => "attribute_exists(" ++ name ++ ")"
  | .notExists => "attribute_not_exists(" ++ name ++ ")"

namespace Phrase

mutual
def text : Phrase → String
  | .test operator name values => operator.text name values
  | .parens inner => "(" ++ text inner ++ ")"
  | .chain connective parts => textParts connective parts

def textParts (connective : Connective) : List Phrase → String
  | [] => ""
  | [part] => text part
  | part :: rest => text part ++ connective.text ++ textParts connective rest
end

/-- The phrase of a list of parts, unless the list is empty. -/
def chain? (connective : Connective) : List Phrase → Option Phrase
  | [] => none
  | parts => some (.chain connective parts)

end Phrase

end SingleTable
