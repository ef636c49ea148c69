import SingleTable.Store.Value
import SingleTable.Proofs.Number.Literal
import SingleTable.Proofs.Number.Rounding

/-! Numbers that come back from the store.

The store keeps a number as decimal text. An integer comes back as it was, and so does a
double whose digits go on behind the point. One whose digits end before it is kept without a
point, so it reads as an integer, and comes back as one if a 64-bit word holds that integer:
`readNumber?_write` says which number comes back, and `reread_eq_iff` when it is the same. -/
namespace SingleTable

/-! ### What comes back -/

/-- The integer that the digits of a double denote, if none of them stands behind the point. -/
def Binary64.whole? (d : Binary64) : Option Int :=
  let digits := d.shortest StoredValue.numberStyle.tie
  if 0 ≤ digits.exponent then
    some (if d.negative then -(digits.coefficient * 10 ^ digits.exponent.toNat : Nat)
      else (digits.coefficient * 10 ^ digits.exponent.toNat : Nat))
  else none

theorem Binary64.not_le_exponent {d : Binary64} (h : d.whole? = none) :
    ¬ 0 ≤ (d.shortest StoredValue.numberStyle.tie).exponent := by
  intro hexponent
  rw [whole?, if_pos hexponent] at h
  exact nomatch h

namespace Number

/-- The number that the store gives back. -/
def reread : Number → Number
  | .integer value fits => .integer value fits
  | .double d => (d.whole?.bind Number.ofInt?).getD (.double d)

/-- No integer that a word holds has the digits of the number. -/
def Stable : Number → Prop
  | .integer _ _ => True
  | .double d => ∀ value ∈ d.whole?, ¬ FitsWord value

theorem ofInt?_of_fits {value : Int} (h : FitsWord value) : ofInt? value = some (.integer value h) := dif_pos h

theorem ofInt?_of_not_fits {value : Int} (h : ¬ FitsWord value) : ofInt? value = none := dif_neg h

/-- **A number comes back as itself exactly when it is stable.** -/
theorem reread_eq_iff (x : Number) : x.reread = x ↔ x.Stable := by
  cases x with
  | integer value fits => exact iff_of_true rfl trivial
  | double d =>
    rw [reread, Stable]
    cases hwhole : d.whole? with
    | none => exact iff_of_true rfl fun _ h => absurd h (Option.not_mem_none _)
    | some value =>
      rw [Option.bind_some]
      by_cases hfits : FitsWord value
      · rw [ofInt?_of_fits hfits]
        refine iff_of_false (fun h => ?_) fun h => h value rfl hfits
        cases h
      · rw [ofInt?_of_not_fits hfits]
        exact iff_of_true rfl fun other hother => Option.some.inj hother ▸ hfits

end Number

/-! ### Texts read as numbers -/

theorem toLower_of_isDigit {c : Char} (h : c.isDigit = true) : c.toLower = c := by
  have hdigit : c.val ≤ '9'.val := of_decide_eq_true (Bool.and_eq_true_iff.mp h).2
  refine dif_neg fun hupper => ?_
  exact absurd (UInt32.le_trans hupper.1 hdigit) (by decide)

namespace Literal

/-- The text of a literal begins, behind its sign, with a digit, and so with no name. -/
theorem namesNonFinite_text {l : Literal} (h : l.Regular) : StoredValue.namesNonFinite l.text = false := by
  obtain ⟨c, rest, hwhole⟩ := List.exists_cons_of_ne_nil h.nonempty
  have hdigit : c.isDigit = true := h.whole c (hwhole ▸ List.mem_cons_self ..)
  have hn : c ≠ 'n' := by
    rintro rfl
    exact absurd hdigit (by decide)
  have hi : c ≠ 'i' := by
    rintro rfl
    exact absurd hdigit (by decide)
  unfold StoredValue.namesNonFinite text
  rw [scanSign_text l.sign (h.whole.head? h.nonempty _), hwhole]
  simp [toLower_of_isDigit hdigit, hn, hi]

/-- The text of a literal is read as the integer it is written as, or else as its double. -/
theorem readNumber?_text {l : Literal} (h : l.Regular) {text : String} (htext : l.text = text.toList) {x : Number}
    (hx : (l.integer?.bind Number.ofInt?).or (l.double?.map .double) = some x) :
    StoredValue.readNumber? text = some (.number x) := by
  have hdigits : (l.whole != [] || l.fraction.getD [] != []) = true := by
    rw [bne_iff_ne.mpr h.nonempty, Bool.true_or]
  unfold StoredValue.readNumber?
  rw [← htext, namesNonFinite_text h, scan_text h, Option.filter_some, if_pos hdigits]
  simp only [Bool.false_eq_true, if_false]
  cases hinteger : l.integer?.bind Number.ofInt? with
  | some n =>
    rw [hinteger, Option.some_or] at hx
    rw [Option.some.inj hx]
  | none =>
    rw [hinteger, Option.none_or] at hx
    obtain ⟨d, hd, rfl⟩ := Option.map_eq_some_iff.mp hx
    rw [hd]

/-- A literal with the sign of a double and the value of its digits is the double's. -/
theorem double?_of_units (tie : Tie) {l : Literal} {d : Binary64} (hsign : l.negative = d.negative)
    (hunits : l.decimal.units = (d.shortest tie).units) (hexponent : -1076 ≤ l.decimal.exponent) :
    l.double? = some d := by
  have hholds := d.shortest_holds tie
  rw [← hunits] at hholds
  rw [Literal.double?, hsign]
  exact Binary64.ofDecimal_of_holds hexponent hholds

end Literal

/-! ### Written and read -/

namespace StoredValue

/-- Digits that end before the point are filled up to it with zeros. -/
theorem writeDecimal_whole {d : Decimal} (h : 0 ≤ d.exponent) :
    (numberStyle.writeDecimal d).toList = (toString d.coefficient).toList ++ List.replicate d.exponent.toNat '0' := by
  obtain ⟨coefficient, exponent⟩ := d
  simp only at h ⊢
  have hlength : 0 < (toString coefficient).toList.length := List.length_pos_iff.mpr (toString_ne_nil coefficient)
  have hpositional (point : Int) : numberStyle.positional point = true := rfl
  unfold NumberStyle.writeDecimal NumberStyle.writePositional
  simp only
  rw [if_pos (hpositional _), if_neg (by omega), if_pos (by omega)]
  have hplaces : ((toString coefficient).toList.length + exponent).toNat - (toString coefficient).toList.length =
      exponent.toNat := by omega
  rw [hplaces]
  simp [numberStyle, NumberStyle.zeros]

/-- So they are written as those of an integer, which denotes the double as well. -/
theorem write_whole {d : Binary64} {value : Int} (h : d.whole? = some value) :
    ∃ l : Literal, l.Regular ∧ l.text = ((Number.double d).write numberStyle).toList ∧ l.integer? = some value ∧
      l.double? = some d := by
  obtain ⟨digits, hdigits⟩ : ∃ digits, d.shortest numberStyle.tie = digits := ⟨_, rfl⟩
  unfold Binary64.whole? at h
  rw [hdigits] at h
  simp only at h
  split at h
  · next hexponent =>
    obtain ⟨text, htext⟩ : ∃ text, text = (toString digits.coefficient).toList ++
      List.replicate digits.exponent.toNat '0' := ⟨_, rfl⟩
    have hvalue : Literal.naturalOf text = digits.coefficient * 10 ^ digits.exponent.toNat := by
      rw [htext, Literal.naturalOf_append_zeros, Literal.naturalOf_toString]
    refine ⟨⟨if d.negative then some .minus else none, text, none, none⟩, ⟨?_, ?_, ?_⟩, ?_, ?_, ?_⟩
    · exact htext ▸ (digits_toString _).append (digits_zeros _)
    · exact htext ▸ List.append_ne_nil_of_left_ne_nil (toString_ne_nil _) _
    · intro _ h
      cases h
    · rw [Number.write, NumberStyle.writeDouble, hdigits, String.toList_append, writeDecimal_whole hexponent,
        ← htext, Literal.text]
      cases d.negative <;> simp [Literal.signText, Literal.fractionText, Literal.exponentText]
    · rw [Literal.integer?, if_pos ⟨rfl, rfl⟩, hvalue, ← h]
      cases d.negative <;> rfl
    · have hpower : (digits.exponent + 1076).toNat = digits.exponent.toNat + ((0 : Int) - 0 + 1076).toNat := by omega
      refine Literal.double?_of_units numberStyle.tie ?_ ?_ (show -1076 ≤ (0 : Int) - 0 by decide)
      · cases d.negative <;> rfl
      · show Literal.naturalOf (text ++ []) * 10 ^ ((0 : Int) - 0 + 1076).toNat = _
        rw [List.append_nil, hvalue, hdigits, Decimal.units, hpower, Nat.pow_add, Nat.mul_assoc]
  · cases h

/-- **What the store gives back for a number**, from the text that it keeps. -/
theorem readNumber?_write (x : Number) : readNumber? (x.write numberStyle) = some (.number x.reread) := by
  cases x with
  | integer value fits =>
    obtain ⟨l, hregular, htext, hvalue⟩ := @Number.write_integer numberStyle value fits
    refine Literal.readNumber?_text hregular htext ?_
    rw [hvalue, Option.bind_some, Number.ofInt?_of_fits fits, Option.some_or, Number.reread]
  | double d =>
    cases hwhole : d.whole? with
    | some value =>
      obtain ⟨l, hregular, htext, hvalue, hdouble⟩ := write_whole hwhole
      refine Literal.readNumber?_text hregular htext ?_
      rw [hvalue, hdouble, Number.reread, hwhole]
      cases (some value).bind Number.ofInt? <;> rfl
    | none =>
      obtain ⟨l, hregular, htext, hinteger, hsign, hunits, hexponent⟩ :=
        @Number.write_double numberStyle d fun h => absurd h (Binary64.not_le_exponent hwhole)
      refine Literal.readNumber?_text hregular htext ?_
      rw [hinteger, Literal.double?_of_units numberStyle.tie hsign hunits hexponent, Number.reread, hwhole]
      rfl

end StoredValue

end SingleTable
