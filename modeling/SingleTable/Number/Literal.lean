import SingleTable.Number.Basic

/-! Decimal literals.

`Literal.scan` splits a text into sign, digits before and after the point, and
exponent; which of these parts a format asks for is the format's own rule. A
literal denotes an integer when it is written as one and fits, and otherwise the
nearest double, if there is one. -/
namespace SingleTable

inductive Sign where
  | plus
  | minus
deriving DecidableEq

/-- The parts of a decimal literal. A fraction is there when a point is. -/
structure Literal where
  sign : Option Sign
  whole : List Char
  fraction : Option (List Char)
  exponent : Option Int
deriving DecidableEq

namespace Literal

def naturalOf (digits : List Char) : Nat :=
  digits.foldl (fun n c => 10 * n + (c.toNat - '0'.toNat)) 0

def scanSign : List Char → Option Sign × List Char
  | '+' :: rest => (some .plus, rest)
  | '-' :: rest => (some .minus, rest)
  | text => (none, text)

/-- A signed run of at least one digit, up to the end. -/
def scanExponent (text : List Char) : Option Int :=
  let (sign, digits) := scanSign text
  if digits ≠ [] ∧ digits.all Char.isDigit then
    some (if sign = some .minus then -(naturalOf digits : Int) else naturalOf digits)
  else none

def scanFraction : List Char → Option (List Char) × List Char
  | '.' :: rest => (some (rest.takeWhile Char.isDigit), rest.dropWhile Char.isDigit)
  | text => (none, text)

/-- The parts of a text made of an optional sign, digits, an optional point and
more digits, and an optional exponent. -/
def scan (text : List Char) : Option Literal :=
  let (sign, afterSign) := scanSign text
  let whole := afterSign.takeWhile Char.isDigit
  let (fraction, afterFraction) := scanFraction (afterSign.dropWhile Char.isDigit)
  match afterFraction with
  | [] => some ⟨sign, whole, fraction, none⟩
  | 'e' :: rest | 'E' :: rest => (scanExponent rest).map fun e => ⟨sign, whole, fraction, some e⟩
  | _ => none

def negative (l : Literal) : Bool := l.sign = some .minus

/-- The integer that a literal without point and exponent is written as. -/
def integer? (l : Literal) : Option Int :=
  if l.fraction = none ∧ l.exponent = none then
    some (if l.negative then -(naturalOf l.whole : Int) else naturalOf l.whole)
  else none

/-- The double nearest to the literal's value, with the literal's sign. -/
def double? (l : Literal) : Option Binary64 :=
  let fraction := l.fraction.getD []
  Binary64.ofDecimal l.negative (naturalOf (l.whole ++ fraction)) (l.exponent.getD 0 - fraction.length)

end Literal

/-- An integer as a number, if a 64-bit word holds it. -/
def Number.ofInt? (value : Int) : Option Number :=
  if h : FitsWord value then some (.integer value h) else none

end SingleTable
