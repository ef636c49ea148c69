import SingleTable.Number.Shortest
import Mathlib.Tactic.Ring

/-! The shortest decimal of a number tells which number it is.

It lies in the interval of the number, on whatever grid the search finds it, and
the intervals of two numbers have no point in common: where they touch, one of the
two significands is odd and its interval is open. -/
namespace SingleTable

/-- The value of a decimal, in units of `10^-1076`. -/
def Decimal.units (d : Decimal) : Nat := d.coefficient * 10 ^ (d.exponent + 1076).toNat

/-! ### The search stays in the interval -/

namespace Interval

variable {i : Interval} {tie : Tie}

theorem holds_iff {x : Nat} :
    i.holds x = true ↔ if i.closed then i.low ≤ x ∧ x ≤ i.high else i.low < x ∧ x < i.high := by
  unfold holds
  split <;> simp

theorem onGrid?_holds {unit point : Nat} (h : i.onGrid? tie unit = some point) :
    i.holds (point * unit) = true := by
  unfold onGrid? at h
  simp only at h
  split at h
  · next hlower hupper =>
    obtain rfl := Option.some.inj h
    split
    · exact hupper
    · exact hlower
  · next hlower _ => exact Option.some.inj h ▸ hlower
  · next _ hupper => exact Option.some.inj h ▸ hupper
  · exact nomatch h

/-- The point that is found lies in the interval. -/
theorem coarsest_holds (hvalue : i.holds i.value = true) (places : Nat) :
    i.holds ((i.coarsest tie places).1 * 10 ^ (i.coarsest tie places).2) = true := by
  induction places with
  | zero =>
    rw [coarsest, Nat.pow_zero, Nat.mul_one]
    exact hvalue
  | succ places ih =>
    rw [coarsest]
    split
    · next point hpoint => exact onGrid?_holds hpoint
    · exact ih

/-- The decimal of the point that is found. -/
def decimal (tie : Tie) (i : Interval) : Decimal :=
  let (coefficient, places) := i.coarsest tie (i.value.log2 / 3 + 1)
  ⟨coefficient, places - 1076⟩

/-- Stated for any interval: that of a number is too large for the kernel to unfold. -/
theorem decimal_eq (tie : Tie) (i : Interval) :
    (let j := i
      let (coefficient, places) := j.coarsest tie (j.value.log2 / 3 + 1)
      (⟨coefficient, places - 1076⟩ : Decimal)) = i.decimal tie := rfl

theorem decimal_units (tie : Tie) (i : Interval) :
    (i.decimal tie).units = (i.coarsest tie (i.value.log2 / 3 + 1)).1 *
      10 ^ (i.coarsest tie (i.value.log2 / 3 + 1)).2 := by
  rw [decimal, Decimal.units, Int.sub_add_cancel, Int.toNat_natCast]

theorem le_decimal_exponent (tie : Tie) (i : Interval) : -1076 ≤ (i.decimal tie).exponent :=
  Int.le_sub_right_of_add_le (by omega)

theorem decimal_holds (hvalue : i.holds i.value = true) : i.holds (i.decimal tie).units = true := by
  rw [decimal_units]
  exact coarsest_holds hvalue _

end Interval

namespace Binary64

/-! ### The interval of a number -/

/-- A quarter of the smallest positive number, in units of `10^-1076`. -/
def quarter : Nat := Nat.pow 5 1076

theorem quarter_pos : 0 < quarter := by
  unfold quarter
  generalize 1076 = n
  exact Nat.pow_pos (by decide)

/-- A quarter of the distance to the next number. -/
def unit (d : Binary64) : Nat := Nat.pow 2 d.scale * quarter

theorem unit_pos (d : Binary64) : 0 < d.unit := Nat.mul_pos (Nat.two_pow_pos d.scale) quarter_pos

theorem two_pow_le {m n : Nat} (h : m ≤ n) : Nat.pow 2 m ≤ Nat.pow 2 n := Nat.pow_le_pow_right (by decide) h

/-- How far the interval reaches below the number: half as far under a power of two. -/
def below (d : Binary64) : Nat := if d.significand = leastNormal ∧ d.scale ≠ 0 then 1 else 2

theorem interval_eq (d : Binary64) :
    d.interval = ⟨(4 * d.significand - d.below) * d.unit, 4 * d.significand * d.unit,
      (4 * d.significand + 2) * d.unit, d.significand % 2 == 0⟩ := by
  unfold unit quarter
  rfl

theorem interval_value_zero {d : Binary64} (h : d.significand = 0) : d.interval.value = 0 := by
  rw [interval_eq, h, Nat.mul_zero, Nat.zero_mul]

theorem below_pos (d : Binary64) : 0 < d.below := by
  unfold below
  split <;> decide

theorem interval_holds_value (d : Binary64) : d.interval.holds d.interval.value = true := by
  rw [Interval.holds_iff, interval_eq]
  have hunit := d.unit_pos
  have hbelow := d.below_pos
  simp only [beq_iff_eq]
  split
  · exact ⟨Nat.mul_le_mul_right _ (Nat.sub_le _ _), Nat.mul_le_mul_right _ (Nat.le_add_right _ _)⟩
  · next hodd =>
    exact ⟨Nat.mul_lt_mul_of_pos_right (by omega) hunit, Nat.mul_lt_mul_of_pos_right (by omega) hunit⟩

theorem shortest_of_ne_zero (tie : Tie) {d : Binary64} (h : d.significand ≠ 0) :
    d.shortest tie = d.interval.decimal tie := by
  unfold shortest
  rw [if_neg h]
  exact Interval.decimal_eq tie d.interval

/-- No digit of a number lies below the smallest units. -/
theorem shortest_exponent (tie : Tie) (d : Binary64) : -1076 ≤ (d.shortest tie).exponent := by
  by_cases hzero : d.significand = 0
  · rw [shortest, if_pos hzero]
    decide
  · rw [shortest_of_ne_zero tie hzero]
    exact Interval.le_decimal_exponent tie d.interval

/-- **The shortest decimal lies in the interval of its number.** -/
theorem shortest_holds (tie : Tie) (d : Binary64) : d.interval.holds (d.shortest tie).units = true := by
  have hvalue := d.interval_holds_value
  by_cases hzero : d.significand = 0
  · rw [interval_value_zero hzero] at hvalue
    rwa [shortest, if_pos hzero, Decimal.units, Nat.zero_mul]
  · rw [shortest_of_ne_zero tie hzero]
    exact Interval.decimal_holds hvalue

/-! ### Intervals apart -/

/-- A smaller scale, or a smaller significand of the same scale. -/
def Precedes (d e : Binary64) : Prop :=
  d.scale < e.scale ∨ d.scale = e.scale ∧ d.significand < e.significand

theorem precedes_or (d e : Binary64) :
    d.Precedes e ∨ e.Precedes d ∨ d.significand = e.significand ∧ d.scale = e.scale := by
  unfold Precedes
  omega

theorem two_mul_unit_le {d e : Binary64} (h : d.scale < e.scale) : 2 * d.unit ≤ e.unit := by
  have hpow : Nat.pow 2 (d.scale + 1) ≤ Nat.pow 2 e.scale := two_pow_le h
  have hsucc : Nat.pow 2 (d.scale + 1) = Nat.pow 2 d.scale * 2 := Nat.pow_succ 2 d.scale
  unfold unit
  rw [← Nat.mul_assoc, Nat.mul_comm 2, ← hsucc]
  exact Nat.mul_le_mul_right quarter hpow

/-- An interval ends where that of a later number begins, if not before; and an end that both
share belongs to an odd significand. -/
theorem high_le_low {d e : Binary64} (h : d.Precedes e) :
    d.interval.high ≤ e.interval.low ∧
      (d.interval.high = e.interval.low → d.interval.closed = true → e.interval.closed = false) := by
  have hunit := d.unit_pos
  have hm := d.significand_lt
  rw [interval_eq, interval_eq]
  simp only [beq_iff_eq, beq_eq_false_iff_ne]
  rcases h with hscale | ⟨hscale, hless⟩
  · -- The units of `e` are at least twice as large, and its significand has all 53 digits.
    have hlarge : leastNormal ≤ e.significand := e.normal.resolve_left (by omega)
    have hbelow : 4 * leastNormal - 1 ≤ 4 * e.significand - e.below := by
      unfold below
      split <;> omega
    have hsecond : (4 * leastNormal - 1) * (2 * d.unit) ≤ (4 * e.significand - e.below) * e.unit :=
      Nat.mul_le_mul hbelow (two_mul_unit_le hscale)
    rw [← Nat.mul_assoc] at hsecond
    have hfirst : (4 * d.significand + 2) * d.unit ≤ (4 * leastNormal - 1) * 2 * d.unit :=
      Nat.mul_le_mul_right _ (by omega)
    refine ⟨Nat.le_trans hfirst hsecond, fun hequal heven => ?_⟩
    have hsame : (4 * leastNormal - 1) * 2 * d.unit ≤ (4 * d.significand + 2) * d.unit := by omega
    have hlast := Nat.le_of_mul_le_mul_right hsame hunit
    omega
  · have hsame : e.unit = d.unit := by rw [unit, unit, hscale]
    have hbelow : e.below ≤ 2 := by
      unfold below
      split <;> decide
    rw [hsame]
    refine ⟨Nat.mul_le_mul_right _ (by omega), fun hequal heven => ?_⟩
    have hlast := Nat.eq_of_mul_eq_mul_right hunit hequal
    omega

theorem not_holds_of_precedes {d e : Binary64} (h : d.Precedes e) {x : Nat} (hd : d.interval.holds x = true) :
    e.interval.holds x = false := by
  obtain ⟨hle, htouch⟩ := high_le_low h
  rw [Interval.holds_iff] at hd
  rw [← Bool.not_eq_true, Interval.holds_iff]
  intro he
  -- The point is at most the end of the one and at least that of the other, so it is both.
  have hhigh : x ≤ d.interval.high := by
    split at hd <;> omega
  have hlow : e.interval.low ≤ x := by
    split at he <;> omega
  have hx : x = d.interval.high := by omega
  have hclosed : d.interval.closed = true := by
    by_contra hopen
    rw [if_neg hopen] at hd
    omega
  rw [htouch (by omega) hclosed] at he
  simp only [Bool.false_eq_true, if_false] at he
  omega

/-- **Two numbers have no point of their intervals in common.** -/
theorem eq_of_holds {d e : Binary64} {x : Nat} (hd : d.interval.holds x = true) (he : e.interval.holds x = true) :
    d.significand = e.significand ∧ d.scale = e.scale := by
  rcases d.precedes_or e with h | h | h
  · rw [not_holds_of_precedes h hd] at he
    exact nomatch he
  · rw [not_holds_of_precedes h he] at hd
    exact nomatch hd
  · exact h

/-- Numbers of one sign with a common point are the same. -/
theorem eq_of_sign_of_holds {d e : Binary64} {x : Nat} (hsign : d.negative = e.negative)
    (hd : d.interval.holds x = true) (he : e.interval.holds x = true) : d = e := by
  obtain ⟨hsignificand, hscale⟩ := eq_of_holds hd he
  cases d
  cases e
  simp_all

/-- **Numbers of one sign with the same shortest decimal are the same.** -/
theorem eq_of_shortest {d e : Binary64} {tie : Tie} (hsign : d.negative = e.negative)
    (h : (d.shortest tie).units = (e.shortest tie).units) : d = e := by
  have hd := d.shortest_holds tie
  rw [h] at hd
  exact eq_of_sign_of_holds hsign hd (e.shortest_holds tie)

end Binary64

end SingleTable
