/-! Base64 texts.

A text is base64 if it is made of groups of four digits, of which the last may
end in one or two padding signs; the bits of its last digit that belong to no
byte must be zero. So every sequence of bytes has exactly one text. -/
namespace SingleTable.Base64

/-- The six bits that a digit stands for. -/
def digit? (c : Char) : Option Nat :=
  if 'A' ≤ c ∧ c ≤ 'Z' then some (c.toNat - 'A'.toNat)
  else if 'a' ≤ c ∧ c ≤ 'z' then some (c.toNat - 'a'.toNat + 26)
  else if '0' ≤ c ∧ c ≤ '9' then some (c.toNat - '0'.toNat + 52)
  else if c = '+' then some 62
  else if c = '/' then some 63
  else none

def isDigit (c : Char) : Bool := (digit? c).isSome

/-- Whether a character is a digit whose value is a multiple of `unit`. -/
def isDigitOf (unit : Nat) (c : Char) : Bool := (digit? c).any fun n => n % unit == 0

/-- A padded group holds two bytes, or one; four or two bits of it are left over. -/
def isCanonical : List Char → Bool
  | [] => true
  | [a, b, '=', '='] => isDigit a && isDigitOf 16 b
  | [a, b, c, '='] => isDigit a && isDigit b && isDigitOf 4 c
  | a :: b :: c :: d :: rest =>
    isDigit a && isDigit b && isDigit c && isDigit d && isCanonical rest
  | _ => false

end SingleTable.Base64
