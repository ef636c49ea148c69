import SingleTable.Proofs.Number.Shortest

/-! Rounding leads back to the number whose interval a decimal lies in.

Quotients are compared with the ends of an interval on whole numbers: `x`, in units of
`10^-1076`, is the quotient `num / den` if `x · den = num · 10^1076`. The significand
is the one nearest to the quotient, at the scale that leaves it 53 binary digits, so the
quotient lies in the interval of the rounded number (`Rounds.holds`). Two intervals have
no point in common, and so `ofDecimal_of_holds`: every decimal in the interval of a number
is read as that number. -/
namespace SingleTable

/-! ### The nearest natural number -/

/-- A quotient is at most a half away from the number it is rounded to, and less if that is odd. -/
theorem roundDiv_near (num : Nat) {den : Nat} (hden : 0 < den) :
    2 * (roundDiv num den * den) ≤ 2 * num + den ∧ 2 * num ≤ 2 * (roundDiv num den * den) + den ∧
      (roundDiv num den % 2 = 1 →
        2 * (roundDiv num den * den) < 2 * num + den ∧ 2 * num < 2 * (roundDiv num den * den) + den) := by
  have hsplit : num / den * den + num % den = num := Nat.div_add_mod' num den
  have hrest : num % den < den := Nat.mod_lt num hden
  have hnext : (num / den + 1) * den = num / den * den + den := Nat.succ_mul ..
  unfold roundDiv
  simp only
  split
  · omega
  · rw [hnext]
    omega

namespace Binary64

/-! ### The scale of a quotient -/

/-- At its scale a quotient has at most 53 binary digits. -/
theorem lt_num_of_scaleOf (num : Nat) {den : Nat} (hden : 0 < den) :
    num < 2 * leastNormal * (den * Nat.pow 2 (scaleOf (num / den))) := by
  have hlog : num / den < 2 ^ ((num / den).log2 + 1) := Nat.lt_log2_self
  have hscale : (num / den).log2 + 1 ≤ 53 + scaleOf (num / den) := by
    unfold scaleOf
    omega
  have hquotient := Nat.lt_of_lt_of_le hlog (Nat.pow_le_pow_right (by decide) hscale)
  rw [Nat.pow_add, Nat.div_lt_iff_lt_mul hden] at hquotient
  calc num < 2 ^ 53 * 2 ^ scaleOf (num / den) * den := hquotient
    _ = 2 * leastNormal * (den * Nat.pow 2 (scaleOf (num / den))) := by
      rw [Nat.mul_assoc, Nat.mul_comm den]
      rfl

/-- And it has as many, unless the scale is the least one. -/
theorem le_num_of_scaleOf {num den : Nat} (hscale : scaleOf (num / den) ≠ 0) :
    leastNormal * (den * Nat.pow 2 (scaleOf (num / den))) ≤ num := by
  calc leastNormal * (den * Nat.pow 2 (scaleOf (num / den)))
      = leastNormal * Nat.pow 2 (scaleOf (num / den)) * den := by rw [Nat.mul_comm den, ← Nat.mul_assoc]
    _ ≤ num / den * den := Nat.mul_le_mul_right den (le_of_scaleOf hscale)
    _ ≤ num := Nat.div_mul_le_self num den

/-! ### Points that are quotients -/

variable {x num units den : Nat}

/-- `x`, in units of `10^-1076`, is the quotient of `num` and `den`. -/
def IsQuotient (x num den : Nat) : Prop := x * den = num * 10 ^ 1076

/-- The same in quarters of `2^-1074`, the units that numbers are counted in. -/
def IsPoint (x units den : Nat) : Prop := x * den = 4 * units * quarter

theorem IsQuotient.point (h : IsQuotient x num den) : IsPoint x (num * Nat.pow 2 1074) den := by
  have hpower : 10 ^ 1076 = 4 * Nat.pow 2 1074 * quarter := by decide +kernel
  unfold IsQuotient at h
  rw [IsPoint, h, hpower]
  ring

theorem IsPoint.le_iff (h : IsPoint x units den) (hden : 0 < den) (k power : Nat) :
    k * (power * quarter) ≤ x ↔ k * (den * power) ≤ 4 * units := by
  have hside : k * (power * quarter) * den = k * (den * power) * quarter := by ring
  rw [← Nat.mul_le_mul_right_iff hden, hside, h, Nat.mul_le_mul_right_iff quarter_pos]

theorem IsPoint.ge_iff (h : IsPoint x units den) (hden : 0 < den) (k power : Nat) :
    x ≤ k * (power * quarter) ↔ 4 * units ≤ k * (den * power) := by
  have hside : k * (power * quarter) * den = k * (den * power) * quarter := by ring
  rw [← Nat.mul_le_mul_right_iff hden, hside, h, Nat.mul_le_mul_right_iff quarter_pos]

/-- A point lies in the interval of a number if the quotient does, with the ends only if the
significand is even. -/
theorem IsPoint.holds (h : IsPoint x units den) (hden : 0 < den) {d : Binary64}
    (hlow : (4 * d.significand - d.below) * (den * Nat.pow 2 d.scale) ≤ 4 * units)
    (hhigh : 4 * units ≤ (4 * d.significand + 2) * (den * Nat.pow 2 d.scale))
    (hodd : d.significand % 2 = 1 → (4 * d.significand - d.below) * (den * Nat.pow 2 d.scale) < 4 * units ∧
      4 * units < (4 * d.significand + 2) * (den * Nat.pow 2 d.scale)) : d.interval.holds x = true := by
  rw [Interval.holds_iff, interval_eq]
  simp only [beq_iff_eq, unit]
  split
  · exact ⟨(h.le_iff hden ..).mpr hlow, (h.ge_iff hden ..).mpr hhigh⟩
  · next hne =>
    obtain ⟨hlow, hhigh⟩ := hodd (by omega)
    rw [← Nat.not_le, ← Nat.not_le, h.ge_iff hden, h.le_iff hden]
    omega

/-! ### Quotients rounded -/

/-- The significand of a quotient at its scale, which is one too many when it is rounded up to a power of two. -/
def roundedAt (units den : Nat) : Nat := roundDiv units (den * Nat.pow 2 (scaleOf (units / den)))

/-- A number has the rounded significand of a quotient, or the least one at the next scale. -/
def Rounds (units den : Nat) (d : Binary64) : Prop :=
  roundedAt units den < 2 * leastNormal ∧ d.significand = roundedAt units den ∧ d.scale = scaleOf (units / den) ∨
    2 * leastNormal ≤ roundedAt units den ∧ d.significand = leastNormal ∧ d.scale = scaleOf (units / den) + 1

/-- A quotient is rounded unless it needs a scale past the largest one. -/
theorem ofRatio_cases (negative : Bool) (num den : Nat) :
    (∃ d, ofRatio negative num den = some d ∧ d.negative = negative ∧ Rounds (num * Nat.pow 2 1074) den d) ∨
      2045 < scaleOf (num * Nat.pow 2 1074 / den) ∨
        scaleOf (num * Nat.pow 2 1074 / den) = 2045 ∧ 2 * leastNormal ≤ roundedAt (num * Nat.pow 2 1074) den := by
  unfold ofRatio
  simp only
  split
  · split
    · next hscale hless => exact .inl ⟨_, rfl, rfl, .inl ⟨hless, rfl, rfl⟩⟩
    · next hscale hmore =>
      split
      · exact .inl ⟨_, rfl, rfl, .inr ⟨Nat.le_of_not_lt hmore, rfl, rfl⟩⟩
      · next hlast => exact .inr (.inr ⟨by omega, Nat.le_of_not_lt hmore⟩)
  · next hscale => exact .inr (.inl (Nat.lt_of_not_le hscale))

theorem roundedAt_near (units : Nat) (hden : 0 < den) {power : Nat}
    (hpower : den * Nat.pow 2 (scaleOf (units / den)) = power) :
    0 < power ∧ 2 * (roundedAt units den * power) ≤ 2 * units + power ∧
      2 * units ≤ 2 * (roundedAt units den * power) + power ∧
      (roundedAt units den % 2 = 1 → 2 * (roundedAt units den * power) < 2 * units + power ∧
        2 * units < 2 * (roundedAt units den * power) + power) := by
  have hpos : 0 < den * Nat.pow 2 (scaleOf (units / den)) := Nat.mul_pos hden (Nat.two_pow_pos _)
  have hnear := roundDiv_near units hpos
  rw [hpower] at hpos
  unfold roundedAt
  rw [hpower] at hnear ⊢
  exact ⟨hpos, hnear⟩

theorem IsPoint.holds_rounded {d : Binary64} (hx : IsPoint x units den) (hden : 0 < den)
    (hsignificand : d.significand = roundedAt units den) (hscale : d.scale = scaleOf (units / den)) :
    d.interval.holds x = true := by
  obtain ⟨power, hpower⟩ : ∃ power, den * Nat.pow 2 (scaleOf (units / den)) = power := ⟨_, rfl⟩
  obtain ⟨hpos, hnear⟩ := roundedAt_near units hden hpower
  have hsmall := @le_num_of_scaleOf units den
  rw [hpower, ← hscale] at hsmall
  rw [← hsignificand] at hnear
  rw [← hscale] at hpower
  -- Below the least significand of a scale the quotient does not reach.
  have hbelow : d.below = 2 ∨ d.below = 1 ∧ d.significand * power ≤ units := by
    unfold below
    split
    · next hleast => exact .inr ⟨rfl, hleast.1 ▸ hsmall hleast.2⟩
    · exact .inl rfl
  have hone : d.significand % 2 = 1 → power ≤ d.significand * power := fun hodd =>
    Nat.le_mul_of_pos_left power (by omega)
  have hlow : (4 * d.significand - d.below) * power ≤ 4 * units ∧
      (d.significand % 2 = 1 → (4 * d.significand - d.below) * power < 4 * units) := by
    rcases hbelow with hbelow | ⟨hbelow, hleast⟩ <;> rw [hbelow, Nat.sub_mul, Nat.mul_assoc] <;> omega
  have hhigh : 4 * units ≤ (4 * d.significand + 2) * power ∧
      (d.significand % 2 = 1 → 4 * units < (4 * d.significand + 2) * power) := by
    rw [Nat.add_mul, Nat.mul_assoc]
    omega
  rw [← hpower] at hlow hhigh
  exact hx.holds hden hlow.1 hhigh.1 fun hodd => ⟨hlow.2 hodd, hhigh.2 hodd⟩

/-- A quotient that is rounded up to a power of two lies just below it. -/
theorem IsPoint.holds_power {d : Binary64} (hx : IsPoint x units den) (hden : 0 < den)
    (hmore : 2 * leastNormal ≤ roundedAt units den) (hsignificand : d.significand = leastNormal)
    (hscale : d.scale = scaleOf (units / den) + 1) : d.interval.holds x = true := by
  obtain ⟨power, hpower⟩ : ∃ power, den * Nat.pow 2 (scaleOf (units / den)) = power := ⟨_, rfl⟩
  obtain ⟨-, hnear, -⟩ := roundedAt_near units hden hpower
  have hlarge := lt_num_of_scaleOf units hden
  rw [hpower] at hlarge
  have hbelow : d.below = 1 := if_pos ⟨hsignificand, by omega⟩
  have hnext : den * Nat.pow 2 (scaleOf (units / den) + 1) = power * 2 := by
    rw [← hpower, Nat.mul_assoc]
    rfl
  have htwice : 2 * leastNormal * power ≤ roundedAt units den * power := Nat.mul_le_mul_right power hmore
  unfold leastNormal at hsignificand hlarge htwice
  have hlow : (4 * d.significand - d.below) * (power * 2) ≤ 4 * units := by
    rw [hbelow, hsignificand]
    omega
  have hhigh : 4 * units ≤ (4 * d.significand + 2) * (power * 2) := by
    rw [hsignificand]
    omega
  rw [← hnext, ← hscale] at hlow hhigh
  exact hx.holds hden hlow hhigh fun hodd => absurd hodd (by rw [hsignificand]; decide)

/-- **The point of a quotient lies in the interval of the rounded number.** -/
theorem Rounds.holds {d : Binary64} (h : Rounds units den d) (hden : 0 < den) (hx : IsPoint x units den) :
    d.interval.holds x = true := by
  rcases h with ⟨-, hsignificand, hscale⟩ | ⟨hmore, hsignificand, hscale⟩
  · exact hx.holds_rounded hden hsignificand hscale
  · exact hx.holds_power hden hmore hsignificand hscale

/-! ### The largest number -/

/-- The end of the interval of the largest number of a scale, which does not hold it. -/
def overflow (scale : Nat) : Nat := (8 * leastNormal - 2) * (Nat.pow 2 scale * quarter)

theorem lt_overflow {d : Binary64} {scale : Nat} (hscale : d.scale ≤ scale) (h : d.interval.holds x = true) :
    x < overflow scale := by
  have hm := d.significand_lt
  have hunit : d.unit ≤ Nat.pow 2 scale * quarter := Nat.mul_le_mul_right quarter (two_pow_le hscale)
  have hpos := d.unit_pos
  rw [Interval.holds_iff, interval_eq] at h
  simp only [beq_iff_eq] at h
  apply Nat.lt_of_lt_of_le ?_ (Nat.mul_le_mul_left (8 * leastNormal - 2) hunit)
  unfold leastNormal at hm ⊢
  split at h
  · next heven =>
    refine Nat.lt_of_le_of_lt h.2 (Nat.mul_lt_mul_of_pos_right ?_ hpos)
    omega
  · next hodd =>
    refine Nat.lt_of_lt_of_le h.2 (Nat.mul_le_mul_right _ ?_)
    omega

/-- A quotient that needs a scale past some scale lies past the numbers of this scale. -/
theorem IsPoint.overflow_le {scale : Nat} (hx : IsPoint x units den) (hden : 0 < den)
    (h : scale < scaleOf (units / den) ∨ scaleOf (units / den) = scale ∧ 2 * leastNormal ≤ roundedAt units den) :
    overflow scale ≤ x := by
  unfold overflow
  rw [hx.le_iff hden]
  rcases h with hscale | ⟨rfl, hmore⟩
  · have hsmall := le_num_of_scaleOf (Nat.ne_zero_of_lt hscale)
    have hpower : Nat.pow 2 (scale + 1) ≤ Nat.pow 2 (scaleOf (units / den)) := two_pow_le hscale
    have hstep : den * (Nat.pow 2 scale * 2) ≤ den * Nat.pow 2 (scaleOf (units / den)) :=
      Nat.mul_le_mul_left den hpower
    rw [← Nat.mul_assoc] at hstep
    unfold leastNormal at hsmall ⊢
    omega
  · have hpos : 0 < den * Nat.pow 2 (scaleOf (units / den)) := Nat.mul_pos hden (Nat.two_pow_pos _)
    have hnear := (roundDiv_near units hpos).1
    have htwice := Nat.mul_le_mul_right (den * Nat.pow 2 (scaleOf (units / den))) hmore
    unfold roundedAt leastNormal at htwice
    unfold leastNormal
    omega

/-- **A quotient in the interval of a number is rounded to this number.** -/
theorem ofRatio_of_holds {d : Binary64} (hden : 0 < den) (hx : IsQuotient x num den)
    (h : d.interval.holds x = true) : ofRatio d.negative num den = some d := by
  rcases ofRatio_cases d.negative num den with ⟨e, he, hsign, hrounds⟩ | hpast
  · rw [he, eq_of_sign_of_holds hsign (hrounds.holds hden hx.point) h]
  · exact absurd (lt_overflow d.scale_le h) (Nat.not_lt.mpr (hx.point.overflow_le hden hpast))

/-! ### Decimals read -/

/-- The first test of `ofDecimal` fails only past the largest number. -/
theorem overflow_le_units {coefficient : Nat} {exponent : Int} (hne : coefficient ≠ 0)
    (h : 310 < (coefficient.log2 / 4 : Nat) + exponent) (hexponent : -1076 ≤ exponent) :
    overflow 2045 ≤ (⟨coefficient, exponent⟩ : Decimal).units := by
  have hlog : 10 ^ (coefficient.log2 / 4) ≤ coefficient :=
    calc 10 ^ (coefficient.log2 / 4) ≤ 16 ^ (coefficient.log2 / 4) := Nat.pow_le_pow_left (by decide) _
      _ = 2 ^ (4 * (coefficient.log2 / 4)) := by rw [Nat.pow_mul]
      _ ≤ 2 ^ coefficient.log2 := Nat.pow_le_pow_right (by decide) (by omega)
      _ ≤ coefficient := Nat.log2_self_le hne
  calc overflow 2045 ≤ 10 ^ 1387 := by decide +kernel
    _ ≤ 10 ^ (coefficient.log2 / 4 + (exponent + 1076).toNat) := Nat.pow_le_pow_right (by decide) (by omega)
    _ = 10 ^ (coefficient.log2 / 4) * 10 ^ (exponent + 1076).toNat := Nat.pow_add ..
    _ ≤ coefficient * 10 ^ (exponent + 1076).toNat := Nat.mul_le_mul_right _ hlog

theorem zero_holds (negative : Bool) (h : x ≤ 2 * quarter) : (zero negative).interval.holds x = true := by
  have hunit : (zero negative).unit = quarter := Nat.one_mul _
  rw [Interval.holds_iff, interval_eq, hunit]
  simp only [zero, Nat.zero_mod, beq_self_eq_true, if_true, Nat.mul_zero, Nat.zero_sub, Nat.zero_mul, Nat.zero_add]
  exact ⟨Nat.zero_le x, h⟩

/-- The second one fails only in the interval of zero. -/
theorem zero_holds_units {coefficient : Nat} {exponent : Int} (negative : Bool)
    (h : (coefficient.log2 / 3 : Nat) + 1 + exponent < -330) (hexponent : -1076 ≤ exponent) :
    (zero negative).interval.holds (⟨coefficient, exponent⟩ : Decimal).units = true := by
  have hlog : coefficient ≤ 10 ^ (coefficient.log2 / 3 + 1) :=
    calc coefficient ≤ 2 ^ (coefficient.log2 + 1) := Nat.le_of_lt Nat.lt_log2_self
      _ ≤ 2 ^ (3 * (coefficient.log2 / 3 + 1)) := Nat.pow_le_pow_right (by decide) (by omega)
      _ = 8 ^ (coefficient.log2 / 3 + 1) := by rw [Nat.pow_mul]
      _ ≤ 10 ^ (coefficient.log2 / 3 + 1) := Nat.pow_le_pow_left (by decide) _
  apply zero_holds
  calc coefficient * 10 ^ (exponent + 1076).toNat
      ≤ 10 ^ (coefficient.log2 / 3 + 1) * 10 ^ (exponent + 1076).toNat := Nat.mul_le_mul_right _ hlog
    _ = 10 ^ (coefficient.log2 / 3 + 1 + (exponent + 1076).toNat) := (Nat.pow_add ..).symm
    _ ≤ 10 ^ 745 := Nat.pow_le_pow_right (by decide) (by omega)
    _ ≤ 2 * quarter := by decide +kernel

theorem isQuotient_of_whole (coefficient : Nat) {exponent : Int} (h : 0 ≤ exponent) :
    IsQuotient (⟨coefficient, exponent⟩ : Decimal).units (coefficient * Nat.pow 10 exponent.toNat) 1 := by
  have hle : exponent.toNat ≤ (exponent + 1076).toNat := by omega
  have hpower : (exponent + 1076).toNat - exponent.toNat = 1076 := by omega
  rw [IsQuotient, ← hpower, Decimal.units, Nat.pow_eq, Nat.mul_one, Nat.mul_assoc, ← Nat.pow_add,
    Nat.add_sub_cancel' hle]

theorem isQuotient_of_fraction (coefficient : Nat) {exponent : Int} (hexponent : -1076 ≤ exponent)
    (h : ¬ 0 ≤ exponent) :
    IsQuotient (⟨coefficient, exponent⟩ : Decimal).units coefficient (Nat.pow 10 (-exponent).toNat) := by
  have hpower : (exponent + 1076).toNat + (-exponent).toNat = 1076 := by omega
  rw [IsQuotient, ← hpower, Nat.pow_add, Decimal.units, Nat.pow_eq, Nat.mul_assoc]

/-- **A decimal in the interval of a number is read as this number**, with the sign that it has. -/
theorem ofDecimal_of_holds {d : Binary64} {coefficient : Nat} {exponent : Int} (hexponent : -1076 ≤ exponent)
    (h : d.interval.holds (⟨coefficient, exponent⟩ : Decimal).units = true) :
    ofDecimal d.negative coefficient exponent = some d := by
  have hzero (hzero : (zero d.negative).interval.holds (⟨coefficient, exponent⟩ : Decimal).units = true) :
      some (zero d.negative) = some d := congrArg some (eq_of_sign_of_holds rfl hzero h)
  unfold ofDecimal
  split
  · next hcoefficient =>
    apply hzero
    rw [Decimal.units, hcoefficient, Nat.zero_mul]
    exact zero_holds d.negative (Nat.zero_le _)
  next hne =>
  split
  · next hlarge => exact absurd (lt_overflow d.scale_le h) (Nat.not_lt.mpr (overflow_le_units hne hlarge hexponent))
  split
  · next hsmall => exact hzero (zero_holds_units d.negative hsmall hexponent)
  split
  · next hwhole => exact ofRatio_of_holds Nat.one_pos (isQuotient_of_whole coefficient hwhole) h
  · next hfraction =>
    exact ofRatio_of_holds (Nat.pow_pos (by decide)) (isQuotient_of_fraction coefficient hexponent hfraction) h

end Binary64

end SingleTable
