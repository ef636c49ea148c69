import SingleTable.Number.Shortest

/-! Numbers and how they are written.

A number is an integer that fits a signed or an unsigned 64-bit word, or a
finite binary64 number; `1` and `1.0` are different numbers. Integers are
written as their decimal digits. A double is written as its shortest digits,
laid out as a `NumberStyle` says: that record is all in which two formats
differ. -/
namespace SingleTable

/-- From `-2^63` up to, but not including, `2^64`. -/
def FitsWord (value : Int) : Prop := -9223372036854775808 ≤ value ∧ value < 18446744073709551616

instance (value : Int) : Decidable (FitsWord value) := inferInstanceAs (Decidable (_ ∧ _))

inductive Number where
  | integer (value : Int) (fits : FitsWord value)
  | double (value : Binary64)
deriving DecidableEq

/-- The value as an integer, if it is whole. -/
def Number.integer? : Number → Option Int
  | .integer value _ => some value
  | .double value => value.integer?

/-- The decisions of a format on how a double is written. `positional p` asks
whether digits are written around the point when the point stands `p` places
after the first digit's left side; otherwise an exponent is written. -/
structure NumberStyle where
  tie : Tie
  positional : Int → Bool
  /-- Whether a whole number ends in `.0`. -/
  wholeFraction : Bool

namespace NumberStyle

def zeros (n : Nat) : String := String.ofList (List.replicate n '0')

/-- Digits around a point that stands `point` places after their left side. -/
def writePositional (style : NumberStyle) (digits : List Char) (point : Int) : String :=
  if point ≤ 0 then
    "0." ++ zeros (-point).toNat ++ String.ofList digits
  else if digits.length ≤ point.toNat then
    String.ofList digits ++ zeros (point.toNat - digits.length) ++
      (if style.wholeFraction then ".0" else "")
  else
    String.ofList (digits.take point.toNat) ++ "." ++ String.ofList (digits.drop point.toNat)

/-- One digit, the others as a fraction, and a signed exponent. -/
def writeScientific (digits : List Char) (exponent : Int) : String :=
  let fraction := digits.drop 1
  String.ofList (digits.take 1) ++
    (if fraction.isEmpty then "" else "." ++ String.ofList fraction) ++
    (if exponent < 0 then "e-" else "e+") ++ toString exponent.natAbs

def writeDecimal (style : NumberStyle) (d : Decimal) : String :=
  let digits := (toString d.coefficient).toList
  let point := digits.length + d.exponent
  if style.positional point then style.writePositional digits point
  else writeScientific digits (point - 1)

def writeDouble (style : NumberStyle) (d : Binary64) : String :=
  (if d.negative then "-" else "") ++ style.writeDecimal (d.shortest style.tie)

end NumberStyle

def Number.write (style : NumberStyle) : Number → String
  | .integer value _ => toString value
  | .double value => style.writeDouble value

end SingleTable
