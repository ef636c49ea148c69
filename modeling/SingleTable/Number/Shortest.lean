import SingleTable.Number.Binary64

/-! The shortest decimal that reads back as a given binary64 number.

In units of `10^-1076` every finite number, and both ends of the interval of
reals that round to it, are whole. Among the decimal grids `10^0, 10^1, …` of
that unit the search takes the coarsest one with a point in the interval, which
leaves the fewest digits, and of two such points the nearer. -/
namespace SingleTable

/-- The value `coefficient · 10^exponent`. -/
structure Decimal where
  coefficient : Nat
  exponent : Int
deriving DecidableEq

/-- Which neighbour an exact half goes to. -/
inductive Tie where
  | toEven
  | up
deriving DecidableEq

/-- The reals that round to one number, with that number inside. -/
structure Interval where
  low : Nat
  value : Nat
  high : Nat
  closed : Bool
deriving DecidableEq

namespace Interval

def holds (i : Interval) (x : Nat) : Bool :=
  if i.closed then i.low ≤ x && x ≤ i.high else i.low < x && x < i.high

/-- Of two neighbours on a grid, whether the upper one is written. -/
def takesUpper (tie : Tie) (value unit lower : Nat) : Bool :=
  let doubled := 2 * (value - lower * unit)
  match tie with
  | .toEven => unit < doubled || (doubled == unit && lower % 2 == 1)
  | .up => unit ≤ doubled

/-- The point of one grid to write, if one of the value's two neighbours there
lies in the interval. -/
def onGrid? (tie : Tie) (i : Interval) (unit : Nat) : Option Nat :=
  let lower := i.value / unit
  match i.holds (lower * unit), i.holds ((lower + 1) * unit) with
  | true, true => some (if takesUpper tie i.value unit lower then lower + 1 else lower)
  | true, false => some lower
  | false, true => some (lower + 1)
  | false, false => none

/-- The coarsest grid up to `10^places` with a hit, and the point there. -/
def coarsest (tie : Tie) (i : Interval) : Nat → Nat × Nat
  | 0 => (i.value, 0)
  | places + 1 =>
    match i.onGrid? tie (Nat.pow 10 (places + 1)) with
    | some point => (point, places + 1)
    | none => coarsest tie i places

end Interval

namespace Binary64

/-- The interval of a number's magnitude, in units of `10^-1076`. Below a power
of two the neighbour is half as far as above. -/
def interval (d : Binary64) : Interval :=
  let unit := Nat.pow 2 d.scale * Nat.pow 5 1076
  let below := if d.significand = leastNormal ∧ d.scale ≠ 0 then 1 else 2
  { low := (4 * d.significand - below) * unit
    value := 4 * d.significand * unit
    high := (4 * d.significand + 2) * unit
    closed := d.significand % 2 == 0 }

/-- The shortest decimal that reads back as the magnitude of `d`. A value of
binary length `l + 1` is below `10^(l/3+1)`, so no coarser grid has a hit. -/
def shortest (tie : Tie) (d : Binary64) : Decimal :=
  if d.significand = 0 then ⟨0, 0⟩
  else
    let i := d.interval
    let (coefficient, places) := i.coarsest tie (i.value.log2 / 3 + 1)
    ⟨coefficient, places - 1076⟩

end Binary64

end SingleTable
