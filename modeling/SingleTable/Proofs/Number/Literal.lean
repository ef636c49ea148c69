import SingleTable.Number.Literal
import SingleTable.Proofs.Number.Shortest

/-! Written numbers, read back.

The text of a number is a literal that a scan takes apart again. An integer is
written as one; a double, in a style that marks whole numbers, with a point or an
exponent, and its literal denotes its shortest decimal. So `Number.write_injective`:
two numbers with one text are the same number. -/
namespace SingleTable

/-! ### Runs of digits -/

def Digits (text : List Char) : Prop := ∀ c ∈ text, c.isDigit = true

/-- A text whose first character is no digit. -/
def Stops (text : List Char) : Prop := ∀ c ∈ text.head?, c.isDigit = false

theorem takeWhile_digits {digits rest : List Char} (h : Digits digits) (hrest : Stops rest) :
    (digits ++ rest).takeWhile Char.isDigit = digits := by
  rw [List.takeWhile_append_of_pos h]
  cases rest with
  | nil => simp
  | cons c rest => simp [hrest c rfl]

theorem dropWhile_digits {digits rest : List Char} (h : Digits digits) (hrest : Stops rest) :
    (digits ++ rest).dropWhile Char.isDigit = rest := by
  rw [List.dropWhile_append_of_pos h]
  cases rest with
  | nil => rfl
  | cons c rest => simp [hrest c rfl]

theorem digits_toString (n : Nat) : Digits (toString n).toList := by
  intro c hc
  rw [Nat.toString_eq_repr, Nat.toList_repr] at hc
  exact Nat.isDigit_of_mem_toDigits (by decide) (by decide) hc

theorem toString_ne_nil (n : Nat) : (toString n).toList ≠ [] := by
  rw [Nat.toString_eq_repr, Nat.toList_repr]
  exact Nat.toDigits_ne_nil

theorem digits_zeros (n : Nat) : Digits (List.replicate n '0') := by
  intro c hc
  rw [List.eq_of_mem_replicate hc]
  decide

theorem Digits.append {a b : List Char} (ha : Digits a) (hb : Digits b) : Digits (a ++ b) := by
  intro c hc
  exact (List.mem_append.mp hc).elim (ha c) (hb c)

/-- A text that begins with digits begins with a digit. -/
theorem Digits.head? {digits : List Char} (h : Digits digits) (hne : digits ≠ []) (rest : List Char) :
    ∀ c ∈ (digits ++ rest).head?, c.isDigit = true := by
  obtain ⟨c, others, rfl⟩ := List.exists_cons_of_ne_nil hne
  intro d hd
  rw [List.cons_append, List.head?_cons, Option.mem_some] at hd
  exact hd ▸ h c (List.mem_cons_self ..)

namespace Literal

theorem naturalOf_eq (digits : List Char) : naturalOf digits = Nat.ofDigitChars 10 digits 0 :=
  Nat.ofDigitChars_eq_foldl.symm

theorem naturalOf_toString (n : Nat) : naturalOf (toString n).toList = n := by
  rw [naturalOf_eq, Nat.toString_eq_repr, Nat.toList_repr, Nat.ofDigitChars_ten_toDigits]

theorem naturalOf_append_zeros (digits : List Char) (n : Nat) :
    naturalOf (digits ++ List.replicate n '0') = naturalOf digits * 10 ^ n := by
  rw [naturalOf_eq, naturalOf_eq, Nat.ofDigitChars_append, Nat.ofDigitChars_replicate_zero, Nat.mul_comm]

theorem naturalOf_zeros_append (digits : List Char) (n : Nat) :
    naturalOf (List.replicate n '0' ++ digits) = naturalOf digits := by
  rw [naturalOf_eq, naturalOf_eq, Nat.ofDigitChars_append, Nat.ofDigitChars_replicate_zero, Nat.mul_zero]

/-! ### The text of a literal -/

def signText : Option Sign → List Char
  | none => []
  | some .plus => ['+']
  | some .minus => ['-']

def fractionText : Option (List Char) → List Char
  | none => []
  | some digits => '.' :: digits

def exponentText : Option Int → List Char
  | none => []
  | some exponent => 'e' :: (if exponent < 0 then '-' else '+') :: (toString exponent.natAbs).toList

def text (l : Literal) : List Char :=
  signText l.sign ++ (l.whole ++ (fractionText l.fraction ++ exponentText l.exponent))

/-- Digits where digits are to be, and some before the point. -/
structure Regular (l : Literal) : Prop where
  whole : Digits l.whole
  nonempty : l.whole ≠ []
  fraction : ∀ digits ∈ l.fraction, Digits digits

theorem stops_exponentText (exponent : Option Int) : Stops (exponentText exponent) := by
  cases exponent with
  | none => exact fun _ hc => nomatch hc
  | some exponent =>
    intro c hc
    rw [exponentText, List.head?_cons, Option.mem_some] at hc
    rw [← hc]
    decide

theorem scanSign_text (sign : Option Sign) {rest : List Char} (h : ∀ c ∈ rest.head?, c.isDigit = true) :
    scanSign (signText sign ++ rest) = (sign, rest) := by
  cases sign with
  | some sign => cases sign <;> rfl
  | none =>
    rw [signText, List.nil_append]
    unfold scanSign
    split
    · exact nomatch h '+' rfl
    · exact nomatch h '-' rfl
    · rfl

theorem scanFraction_text {fraction : Option (List Char)} {rest : List Char}
    (h : ∀ digits ∈ fraction, Digits digits) (hrest : Stops rest) (hpoint : rest.head? ≠ some '.') :
    scanFraction (fractionText fraction ++ rest) = (fraction, rest) := by
  cases fraction with
  | some digits =>
    rw [fractionText, List.cons_append, scanFraction, takeWhile_digits (h digits rfl) hrest,
      dropWhile_digits (h digits rfl) hrest]
  | none =>
    rw [fractionText, List.nil_append]
    unfold scanFraction
    split
    · exact absurd rfl hpoint
    · rfl

theorem scanExponent_text (exponent : Int) :
    scanExponent ((if exponent < 0 then '-' else '+') :: (toString exponent.natAbs).toList) = some exponent := by
  have hdigits : (toString exponent.natAbs).toList.all Char.isDigit = true :=
    List.all_eq_true.mpr (digits_toString exponent.natAbs)
  have hsign : scanSign ((if exponent < 0 then '-' else '+') :: (toString exponent.natAbs).toList) =
      (some (if exponent < 0 then .minus else .plus), (toString exponent.natAbs).toList) := by
    split <;> rfl
  rw [scanExponent, hsign]
  simp only
  rw [if_pos ⟨toString_ne_nil _, hdigits⟩, naturalOf_toString]
  by_cases hnegative : exponent < 0
  · rw [if_pos hnegative, if_pos rfl]
    exact congrArg some (by omega)
  · rw [if_neg hnegative, if_neg (by decide)]
    exact congrArg some (by omega)

/-- **A scan takes the text of a literal apart again.** -/
theorem scan_text {l : Literal} (h : l.Regular) : scan l.text = some l := by
  obtain ⟨sign, whole, fraction, exponent⟩ := l
  have hstart : ∀ c ∈ (whole ++ (fractionText fraction ++ exponentText exponent)).head?, c.isDigit = true :=
    h.whole.head? h.nonempty _
  have hpoint : Stops (fractionText fraction ++ exponentText exponent) := by
    cases fraction with
    | none => exact stops_exponentText exponent
    | some digits =>
      intro c hc
      rw [fractionText, List.cons_append, List.head?_cons, Option.mem_some] at hc
      rw [← hc]
      decide
  have hexponent : (exponentText exponent).head? ≠ some '.' := by
    cases exponent <;> simp [exponentText]
  unfold scan text
  rw [scanSign_text sign hstart]
  simp only
  rw [takeWhile_digits h.whole hpoint, dropWhile_digits h.whole hpoint,
    scanFraction_text h.fraction (stops_exponentText exponent) hexponent]
  cases exponent with
  | none => rfl
  | some exponent =>
    simp only [exponentText]
    rw [scanExponent_text]
    rfl

theorem eq_of_text {a b : Literal} (ha : a.Regular) (hb : b.Regular) (h : a.text = b.text) : a = b := by
  have hscan := scan_text ha
  rw [h, scan_text hb] at hscan
  exact (Option.some.inj hscan).symm

/-! ### The decimal that a literal denotes -/

def decimal (l : Literal) : Decimal :=
  ⟨naturalOf (l.whole ++ l.fraction.getD []), l.exponent.getD 0 - (l.fraction.getD []).length⟩

end Literal

/-! ### Written decimals -/

/-- A text is the one of a literal that is no integer's and denotes a decimal's value. -/
structure Decimal.WrittenAs (d : Decimal) (text : String) (l : Literal) : Prop where
  regular : l.Regular
  text : l.text = text.toList
  sign : l.sign = none
  noninteger : l.integer? = none
  units : l.decimal.units = d.units
  exponent : -1076 ≤ l.decimal.exponent

/-- Digits around a point, with no sign and no exponent. -/
theorem Decimal.writtenAs_pointed {d : Decimal} {whole fraction : List Char} {text : String} (hwhole : Digits whole)
    (hnonempty : whole ≠ []) (hfraction : Digits fraction) (htext : text.toList = whole ++ '.' :: fraction)
    (hunits : (⟨Literal.naturalOf (whole ++ fraction), -fraction.length⟩ : Decimal).units = d.units)
    (hexponent : (fraction.length : Int) ≤ 1076) : d.WrittenAs text ⟨none, whole, some fraction, none⟩ where
  regular := ⟨hwhole, hnonempty, fun _ h => Option.some.inj h ▸ hfraction⟩
  text := by
    rw [htext]
    simp [Literal.text, Literal.signText, Literal.fractionText, Literal.exponentText]
  sign := rfl
  noninteger := rfl
  units := by
    rw [← hunits, Literal.decimal, Option.getD_some, Option.getD_none, Int.zero_sub]
  exponent := by
    rw [Literal.decimal, Option.getD_some, Option.getD_none, Int.zero_sub]
    exact Int.neg_le_neg hexponent

namespace NumberStyle

variable {style : NumberStyle} {d : Decimal}

theorem writePositional_writes (hstyle : 0 ≤ d.exponent → style.wholeFraction = true)
    (hexponent : -1076 ≤ d.exponent) :
    ∃ l, d.WrittenAs (style.writePositional (toString d.coefficient).toList
      ((toString d.coefficient).toList.length + d.exponent)) l := by
  obtain ⟨coefficient, exponent⟩ := d
  simp only at hstyle hexponent ⊢
  obtain ⟨digits, hdigits⟩ : ∃ digits, (toString coefficient).toList = digits := ⟨_, rfl⟩
  have hrun : Digits digits := hdigits ▸ digits_toString coefficient
  have hnonempty : digits ≠ [] := hdigits ▸ toString_ne_nil coefficient
  have hvalue : Literal.naturalOf digits = coefficient := hdigits ▸ Literal.naturalOf_toString coefficient
  rw [hdigits]
  unfold writePositional
  split
  · next hpoint =>
    obtain ⟨places, hplaces⟩ : ∃ places, (-(digits.length + exponent)).toNat = places := ⟨_, rfl⟩
    rw [hplaces]
    have hfraction : -((List.replicate places '0' ++ digits).length : Int) = exponent := by
      rw [List.length_append, List.length_replicate]
      omega
    refine ⟨_, Decimal.writtenAs_pointed (digits_zeros 1) (List.cons_ne_nil _ _) ((digits_zeros places).append hrun)
      (by simp [zeros]) ?_ (by omega)⟩
    rw [hfraction, ← List.append_assoc, List.replicate_append_replicate, Literal.naturalOf_zeros_append, hvalue]
  next hpoint =>
  split
  · next hwhole =>
    obtain ⟨places, hplaces⟩ : ∃ places, (digits.length + exponent).toNat - digits.length = places := ⟨_, rfl⟩
    rw [hplaces]
    have hexp : exponent = places := by omega
    rw [if_pos (hstyle (by omega))]
    refine ⟨_, Decimal.writtenAs_pointed (hrun.append (digits_zeros places))
      (List.append_ne_nil_of_left_ne_nil hnonempty _) (digits_zeros 1) (by simp [zeros]) ?_ (by decide)⟩
    have hpower : places + 1 + ((-1 : Int) + 1076).toNat = ((places : Int) + 1076).toNat := by omega
    rw [List.append_assoc, List.replicate_append_replicate, Literal.naturalOf_append_zeros, hvalue,
      List.length_replicate, Decimal.units, Decimal.units, hexp, Nat.mul_assoc, ← Nat.pow_add]
    exact congrArg (fun n => coefficient * 10 ^ n) hpower
  · next hinside =>
    obtain ⟨whole, hwhole⟩ : ∃ whole, (digits.length + exponent).toNat = whole := ⟨_, rfl⟩
    rw [hwhole]
    have hfraction : -((digits.drop whole).length : Int) = exponent := by
      rw [List.length_drop]
      omega
    have htake : digits.take whole ≠ [] := by
      rw [ne_eq, List.take_eq_nil_iff, not_or]
      exact ⟨by omega, hnonempty⟩
    have hdrop : Digits (digits.drop whole) := fun c hc => hrun c (List.mem_of_mem_drop hc)
    refine ⟨_, Decimal.writtenAs_pointed (fun c hc => hrun c (List.mem_of_mem_take hc)) htake hdrop (by simp) ?_
      (by omega)⟩
    rw [hfraction, List.take_append_drop, hvalue]

theorem writeScientific_writes (hexponent : -1076 ≤ d.exponent) :
    ∃ l, d.WrittenAs (writeScientific (toString d.coefficient).toList
      ((toString d.coefficient).toList.length + d.exponent - 1)) l := by
  obtain ⟨coefficient, exponent⟩ := d
  simp only at hexponent ⊢
  obtain ⟨first, rest, hdigits⟩ : ∃ first rest, (toString coefficient).toList = first :: rest :=
    List.exists_cons_of_ne_nil (toString_ne_nil coefficient)
  have hrun : Digits (first :: rest) := hdigits ▸ digits_toString coefficient
  have hvalue : Literal.naturalOf (first :: rest) = coefficient := hdigits ▸ Literal.naturalOf_toString coefficient
  have hwhole : Digits [first] := fun c hc => hrun c (List.mem_singleton.mp hc ▸ List.mem_cons_self ..)
  have hfraction : Digits rest := fun c hc => hrun c (List.mem_cons_of_mem _ hc)
  have hplaces : ((first :: rest).length : Int) + exponent - 1 = exponent + rest.length := by
    rw [List.length_cons]
    omega
  rw [hdigits, hplaces]
  unfold writeScientific
  cases rest with
  | nil =>
    refine ⟨⟨none, [first], none, some (exponent + 0)⟩, ⟨hwhole, by simp, by simp⟩, ?_, rfl, rfl, ?_,
      show -1076 ≤ exponent + 0 - 0 by omega⟩
    · simp [Literal.text, Literal.signText, Literal.fractionText, Literal.exponentText]
      split <;> simp
    · rw [Literal.decimal, Option.getD_some, Option.getD_none, List.append_nil, hvalue]
      simp
  | cons second rest =>
    refine ⟨⟨none, [first], some (second :: rest), some (exponent + (second :: rest).length)⟩,
      ⟨hwhole, by simp, ?_⟩, ?_, rfl, rfl, ?_, ?_⟩
    · rintro _ ⟨⟩
      exact hfraction
    · simp [Literal.text, Literal.signText, Literal.fractionText, Literal.exponentText]
      split <;> simp
    · rw [Literal.decimal, Option.getD_some, Option.getD_some, Int.add_sub_cancel]
      show (⟨Literal.naturalOf (first :: second :: rest), exponent⟩ : Decimal).units = _
      rw [hvalue]
    · rw [Literal.decimal, Option.getD_some, Option.getD_some, Int.add_sub_cancel]
      exact hexponent

/-- **The text of a decimal is the one of a literal that denotes its value.** -/
theorem writeDecimal_writes (hstyle : 0 ≤ d.exponent → style.wholeFraction = true)
    (hexponent : -1076 ≤ d.exponent) :
    ∃ l, d.WrittenAs (style.writeDecimal d) l := by
  unfold writeDecimal
  simp only
  split
  · exact writePositional_writes hstyle hexponent
  · exact writeScientific_writes hexponent

end NumberStyle

/-! ### Written numbers -/

/-- A literal tells which number it was written for. -/
def Literal.Denotes (tie : Tie) (l : Literal) : Number → Prop
  | .integer value _ => l.integer? = some value
  | .double d => l.integer? = none ∧ l.negative = d.negative ∧ l.decimal.units = (d.shortest tie).units ∧
      -1076 ≤ l.decimal.exponent

namespace Number

variable {style : NumberStyle}

theorem write_integer (value : Int) (fits : FitsWord value) :
    ∃ l : Literal, l.Regular ∧ l.text = ((Number.integer value fits).write style).toList ∧ l.integer? = some value := by
  cases value with
  | ofNat n =>
    refine ⟨⟨none, (toString n).toList, none, none⟩, ⟨digits_toString n, toString_ne_nil n, fun _ h => nomatch h⟩, ?_, ?_⟩
    · show [] ++ ((toString n).toList ++ ([] ++ [])) = (toString n).toList
      rw [List.nil_append, List.append_nil, List.append_nil]
    · rw [Literal.integer?, if_pos ⟨rfl, rfl⟩, Literal.naturalOf_toString]
      rfl
  | negSucc n =>
    refine ⟨⟨some .minus, (toString (n + 1)).toList, none, none⟩,
      ⟨digits_toString (n + 1), toString_ne_nil (n + 1), fun _ h => nomatch h⟩, ?_, ?_⟩
    · show ['-'] ++ ((toString (n + 1)).toList ++ ([] ++ [])) = ("-" ++ toString (n + 1)).toList
      rw [List.append_nil, List.append_nil, String.toList_append]
      rfl
    · rw [Literal.integer?, if_pos ⟨rfl, rfl⟩, Literal.naturalOf_toString]
      rfl

theorem write_double (d : Binary64) (hstyle : 0 ≤ (d.shortest style.tie).exponent → style.wholeFraction = true) :
    ∃ l : Literal, l.Regular ∧ l.text = ((Number.double d).write style).toList ∧ l.Denotes style.tie (.double d) := by
  obtain ⟨l, hl⟩ := NumberStyle.writeDecimal_writes hstyle (d.shortest_exponent style.tie)
  cases hnegative : d.negative with
  | false =>
    refine ⟨l, hl.regular, ?_, hl.noninteger, ?_, hl.units, hl.exponent⟩
    · rw [hl.text, write, NumberStyle.writeDouble, hnegative]
      simp
    · rw [Literal.negative, hl.sign, hnegative]
      rfl
  | true =>
    refine ⟨{ l with sign := some .minus }, ⟨hl.regular.whole, hl.regular.nonempty, hl.regular.fraction⟩, ?_, ?_, ?_,
      hl.units, hl.exponent⟩
    · rw [write, NumberStyle.writeDouble, hnegative, if_pos rfl, String.toList_append, ← hl.text, Literal.text,
        Literal.text, hl.sign]
      rfl
    · have hnoninteger := hl.noninteger
      unfold Literal.integer? at hnoninteger ⊢
      split at hnoninteger
      · exact nomatch hnoninteger
      · next h => rw [if_neg h]
    · rw [hnegative]
      rfl

/-- **A number is read back from what is written for it.** -/
theorem write_denotes (hstyle : style.wholeFraction = true) (x : Number) :
    ∃ l : Literal, l.Regular ∧ l.text = (x.write style).toList ∧ l.Denotes style.tie x := by
  cases x with
  | integer value fits => exact write_integer value fits
  | double d => exact write_double d fun _ => hstyle

theorem eq_of_denotes {tie : Tie} {l : Literal} {x y : Number} (hx : l.Denotes tie x) (hy : l.Denotes tie y) :
    x = y := by
  cases x with
  | integer value fits =>
    cases y with
    | integer other fits' =>
      obtain rfl := Option.some.inj (hx.symm.trans hy)
      rfl
    | double d => exact nomatch hx.symm.trans hy.1
  | double d =>
    cases y with
    | integer other fits' => exact nomatch hy.symm.trans hx.1
    | double d' =>
      obtain ⟨-, hsign, hunits, -⟩ := hx
      obtain ⟨-, hsign', hunits', -⟩ := hy
      rw [Binary64.eq_of_shortest (hsign.symm.trans hsign') (hunits.symm.trans hunits')]

/-- **Two numbers with one text are the same number.** -/
theorem write_injective (hstyle : style.wholeFraction = true) {x y : Number} (h : x.write style = y.write style) :
    x = y := by
  obtain ⟨l, hregular, htext, hx⟩ := write_denotes hstyle x
  obtain ⟨l', hregular', htext', hy⟩ := write_denotes hstyle y
  obtain rfl := Literal.eq_of_text hregular hregular' (by rw [htext, htext', h])
  exact eq_of_denotes hx hy

end Number

end SingleTable
