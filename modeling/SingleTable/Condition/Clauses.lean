import SingleTable.Attribute.Basic
import SingleTable.Condition.Phrase
import SingleTable.Placeholder

/-! Compiling conditions into the clauses of one request.

Clauses are applied one after another and share their placeholders: an attribute
`a` has the name placeholder `#a`, and its operands are numbered `:a1`, `:a2`, …
through all clauses, past any number that another attribute's placeholder has
taken. -/
namespace SingleTable

/-- The attributes that a condition can speak of. -/
structure Surface where
  attributes : Dict Attribute

namespace Surface

def names (s : Surface) : List String := s.attributes.keys

def field (s : Surface) (name : String) : Except Fault String :=
  match s.attributes.get? name with
  | some a => .ok a.field
  | none => .error (.attribute name .undefined)

end Surface

/-! ### Bindings -/

/-- The placeholders in use, and the last number given out for each attribute. -/
structure Bindings where
  names : Dict String
  values : Dict Json
  counts : Dict Nat

namespace Bindings

def empty : Bindings := ⟨.empty, .empty, .empty⟩

def count (b : Bindings) (name : String) : Nat := (b.counts.get? name).getD 0

def numbered (name : String) (n : Nat) : String := Placeholder.ofValue (name ++ toString n)

/-- Bind the next free placeholder of an attribute to an operand. -/
def mint (b : Bindings) (name : String) (operand : Json) : String × Bindings :=
  let n := firstFree (fun n => !b.values.contains (numbered name n)) b.values.size (b.count name + 1)
  (numbered name n,
    { b with values := b.values.insert (numbered name n) operand, counts := b.counts.insert name n })

/-- Bind all operands of a test from left to right. -/
def mintAll (b : Bindings) (name : String) : List Json → List String × Bindings
  | [] => ([], b)
  | operand :: rest =>
    let (placeholder, b) := b.mint name operand
    let (placeholders, b) := b.mintAll name rest
    (placeholder :: placeholders, b)

/-- Bind the name placeholder of an attribute to its field, once. -/
def bindName (b : Bindings) (name field : String) : Bindings :=
  { b with names := b.names.insertNew (Placeholder.ofName name) field }

end Bindings

/-! ### Compilation -/

namespace Condition

/-- A part of several parts under the other connective keeps its parentheses. -/
def needsParens (outer : Connective) : Condition → Bool
  | .join inner parts => inner != outer && 1 < parts.length
  | _ => false

mutual
/-- The phrase of a condition; none if the condition makes no test. -/
def compile (surface : Surface) : Condition → Bindings → Except Fault (Option Phrase × Bindings)
  | .test name operator operands, b =>
    match surface.field name with
    | .error fault => .error fault
    | .ok field =>
      if operands.length ≠ operator.arity then
        .error (.attribute name (.operandCount operator operands.length))
      else
        let (placeholders, b) := (b.bindName name field).mintAll name operands
        .ok (some (.test operator (Placeholder.ofName name) placeholders), b)
  | .group inner, b =>
    match compile surface inner b with
    | .error fault => .error fault
    | .ok (phrase, b) => .ok (phrase.map .parens, b)
  | .join connective parts, b =>
    match compileParts surface connective parts b with
    | .error fault => .error fault
    | .ok (phrases, b) => .ok (Phrase.chain? connective phrases, b)

/-- The phrases of those parts that make a test. -/
def compileParts (surface : Surface) (connective : Connective) :
    List Condition → Bindings → Except Fault (List Phrase × Bindings)
  | [], b => .ok ([], b)
  | part :: rest, b =>
    match compile surface part b with
    | .error fault => .error fault
    | .ok (phrase, b) =>
      match compileParts surface connective rest b with
      | .error fault => .error fault
      | .ok (phrases, b) =>
        .ok ((phrase.map fun p => if part.needsParens connective then .parens p else p).toList ++ phrases, b)
end

end Condition

/-! ### Clauses -/

structure Clauses where
  bindings : Bindings
  phrases : List Phrase

namespace Clauses

def empty : Clauses := ⟨.empty, []⟩

/-- Add a condition; one that makes no test adds no clause. -/
def apply (c : Clauses) (surface : Surface) (condition : Condition) : Except Fault Clauses :=
  match condition.compile surface c.bindings with
  | .error fault => .error fault
  | .ok (phrase, bindings) => .ok ⟨bindings, c.phrases ++ phrase.toList⟩

def isEmpty (c : Clauses) : Bool := c.phrases.isEmpty

/-- A single clause as it is; several in parentheses, all to hold. -/
def phrase? (c : Clauses) : Option Phrase :=
  match c.phrases with
  | [] => none
  | [phrase] => some phrase
  | phrases => some (.chain .and (phrases.map .parens))

def expression? (c : Clauses) : Option String := c.phrase?.map Phrase.text

def names (c : Clauses) : Dict String := c.bindings.names

def values (c : Clauses) : Dict Json := c.bindings.values

end Clauses

/-- A condition with parameters. It is given the surface and its arguments. -/
abbrev Filter := Surface → List Json → Condition

end SingleTable
