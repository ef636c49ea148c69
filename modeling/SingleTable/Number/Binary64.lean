/-! Finite binary64 numbers and correct rounding to them.

A number is a significand times a power of two, counted in units of `2^-1074`,
the smallest positive value, so that all arithmetic is on naturals. `ofRatio`
rounds an exact quotient to the nearest number, a tie to the even significand;
past the largest number there is none. `ofDecimal` does the same for a decimal. -/
namespace SingleTable

/-- `2^52`, the least significand of a number that uses all 53 digits. -/
def leastNormal : Nat := 4503599627370496

/-- The number `significand · 2^scale · 2^-1074`, with a sign. Each value but
zero has one representation. -/
structure Binary64 where
  negative : Bool
  significand : Nat
  scale : Nat
  significand_lt : significand < 2 * leastNormal
  scale_le : scale ≤ 2045
  normal : scale = 0 ∨ leastNormal ≤ significand
deriving DecidableEq

/-! ### Rounding -/

/-- The natural number nearest to `num / den`, a half to the even one. -/
def roundDiv (num den : Nat) : Nat :=
  let quotient := num / den
  let rest := num % den
  if 2 * rest < den ∨ (2 * rest = den ∧ quotient % 2 = 0) then quotient else quotient + 1

theorem div_le_roundDiv (num den : Nat) : num / den ≤ roundDiv num den := by
  simp only [roundDiv]
  split <;> omega

namespace Binary64

def zero (negative : Bool) : Binary64 :=
  ⟨negative, 0, 0, by decide, by decide, Or.inl rfl⟩

/-- The value as an integer, if it is whole. -/
def integer? (d : Binary64) : Option Int :=
  let units := d.significand * Nat.pow 2 d.scale
  let magnitude := units / Nat.pow 2 1074
  if units % Nat.pow 2 1074 = 0 then
    some (if d.negative then -(magnitude : Int) else magnitude)
  else none

/-- The scale that leaves 53 binary digits to a quotient of `units`. -/
def scaleOf (units : Nat) : Nat := units.log2 - 52

/-- Past the least scale, a quotient of `units` has 53 binary digits. -/
theorem le_of_scaleOf {units : Nat} (h : scaleOf units ≠ 0) : leastNormal * Nat.pow 2 (scaleOf units) ≤ units := by
  have hlog : 52 + scaleOf units = units.log2 := by
    unfold scaleOf at h ⊢
    omega
  have hne : units ≠ 0 := by
    intro hzero
    rw [hzero] at h
    exact h rfl
  refine Nat.le_trans ?_ (Nat.log2_self_le hne)
  rw [← hlog, Nat.pow_add]
  exact Nat.le_refl _

theorem normal_roundDiv (num den : Nat) :
    scaleOf (num / den) = 0 ∨
      leastNormal ≤ roundDiv num (den * Nat.pow 2 (scaleOf (num / den))) := by
  rcases Nat.eq_zero_or_pos (scaleOf (num / den)) with h | h
  · exact Or.inl h
  · right
    refine Nat.le_trans ?_ (div_le_roundDiv _ _)
    rw [← Nat.div_div_eq_div_mul]
    exact (Nat.le_div_iff_mul_le (Nat.two_pow_pos _)).mpr (le_of_scaleOf (Nat.ne_zero_of_lt h))

/-- The number nearest to `num / den`, unless that lies past the largest one. -/
def ofRatio (negative : Bool) (num den : Nat) : Option Binary64 :=
  let units := num * Nat.pow 2 1074
  let scale := scaleOf (units / den)
  if hs : scale ≤ 2045 then
    if hm : roundDiv units (den * Nat.pow 2 scale) < 2 * leastNormal then
      some ⟨negative, roundDiv units (den * Nat.pow 2 scale), scale, hm, hs, normal_roundDiv units den⟩
    else if hn : scale + 1 ≤ 2045 then
      some ⟨negative, leastNormal, scale + 1, by decide, hn, Or.inr (Nat.le_refl _)⟩
    else none
  else none

/-- The number nearest to `coefficient · 10^exponent`. The first two tests
settle values far outside the range, whose powers of ten are not worth writing
out: `10^(l/4) ≤ 2^l` and `2^(l+1) ≤ 10^(l/3+1)`. -/
def ofDecimal (negative : Bool) (coefficient : Nat) (exponent : Int) : Option Binary64 :=
  if coefficient = 0 then some (zero negative)
  else if 310 < (coefficient.log2 / 4 : Nat) + exponent then none
  else if (coefficient.log2 / 3 : Nat) + 1 + exponent < -330 then some (zero negative)
  else if 0 ≤ exponent then ofRatio negative (coefficient * Nat.pow 10 exponent.toNat) 1
  else ofRatio negative coefficient (Nat.pow 10 (-exponent).toNat)

end Binary64

end SingleTable
