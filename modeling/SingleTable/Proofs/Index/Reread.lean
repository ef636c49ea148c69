import SingleTable.Proofs.Index.Legible
import SingleTable.Proofs.Number.Reread

/-! Keys of values that come back from the store.

Strings and booleans come back as they are. A number that comes back as another one has
another text in a key; and as no number's text holds the character that marks begin with,
what stands behind it cannot make up for that. So a key of values that came back is the key
that it was exactly when every value in it is stable (`composeKey_reread_iff`). -/
namespace SingleTable

/-! ### Values -/

namespace Json

/-- The string, number or boolean that the store gives back for one. -/
def reread : Json → Json
  | .number x => .number x.reread
  | value => value

/-- Whether it is the same. -/
def Stable : Json → Prop
  | .number x => x.Stable
  | _ => True

theorem reread_of_stable {value : Json} (h : value.Stable) : value.reread = value := by
  cases value with
  | number x => exact congrArg Json.number (x.reread_eq_iff.mpr h)
  | null | bool | string | array | object => rfl

/-- A value that comes back as another one has another text. -/
theorem keyText_reread_iff (value : Json) : value.reread.keyText = value.keyText ↔ value.Stable := by
  refine ⟨fun h => ?_, fun h => by rw [reread_of_stable h]⟩
  cases value with
  | number x => exact x.reread_eq_iff.mp (Number.write_injective rfl h)
  | null | bool | string | array | object => trivial

end Json

/-- A value of a kind comes back as one of this kind. -/
theorem Kind.refusal?_reread {kind : Kind} {value : Json} (h : kind.refusal? value = none) :
    kind.refusal? value.reread = none := by
  cases value with
  | number x =>
    cases kind with
    | scalar type => cases type <;> first | rfl | exact nomatch h
    | oneOf accepted => exact nomatch h
  | null | bool | string | array | object => exact h

/-- What the store gives back for a value of a kind. -/
theorem Kind.toJson?_ofJson {kind : Kind} {value : Json} (h : kind.refusal? value = none) :
    (StoredValue.ofJson value).toJson? = some value.reread := by
  rcases kind.alike h h with ⟨x, -, rfl, -⟩ | ⟨x, -, rfl, -⟩ | ⟨x, -, rfl, -⟩
  · rw [StoredValue.ofJson, StoredValue.toJson?, Json.reread]
    intro _ hx
    cases hx
  · rw [StoredValue.ofJson, StoredValue.toJson?, StoredValue.readNumber?_write, Json.reread]
  · rw [StoredValue.ofJson, StoredValue.toJson?, Json.reread]
    intro _ hx
    cases hx

/-! ### Texts of numbers -/

theorem Digits.plain {text : List Char} (h : Digits text) : Plain text :=
  fun hmem => absurd (h '#' hmem) (by decide)

theorem Plain.append {a b : List Char} (ha : Plain a) (hb : Plain b) : Plain (a ++ b) :=
  fun hmem => (List.mem_append.mp hmem).elim ha hb

theorem Literal.plain_text {l : Literal} (h : l.Regular) : Plain l.text := by
  have hsign : Plain (signText l.sign) := by
    cases l.sign with
    | none => exact List.not_mem_nil
    | some sign => cases sign <;> (show '#' ∉ _; decide)
  have hfraction : Plain (fractionText l.fraction) := by
    cases hl : l.fraction with
    | none => exact List.not_mem_nil
    | some digits =>
      intro hmem
      rcases List.mem_cons.mp hmem with heq | hmem
      · exact absurd heq (by decide)
      · exact (h.fraction digits hl).plain hmem
  have hexponent : Plain (exponentText l.exponent) := by
    cases l.exponent with
    | none => exact List.not_mem_nil
    | some exponent =>
      have hmark : Plain ['e', if exponent < 0 then '-' else '+'] := by
        show '#' ∉ _
        split <;> decide
      exact hmark.append (digits_toString exponent.natAbs).plain
  exact hsign.append (h.whole.plain.append (hfraction.append hexponent))

/-- No number is written with the character that marks begin with. -/
theorem Number.plain_write {style : NumberStyle} (hstyle : style.wholeFraction = true) (x : Number) :
    Plain (x.write style).toList := by
  obtain ⟨l, hregular, htext, -⟩ := write_denotes hstyle x
  exact htext ▸ Literal.plain_text hregular

/-! ### Segments -/

/-- Nothing, or something that begins like a mark. -/
def Marked (text : List Char) : Prop := ∀ c ∈ text.head?, c = '#'

/-- A plain text ends where a mark begins. -/
theorem Plain.takeWhile {text rest : List Char} (h : Plain text) (hrest : Marked rest) :
    (text ++ rest).takeWhile (· != '#') = text := by
  have hne : ∀ c ∈ text, (c != '#') = true := fun c hc => bne_iff_ne.mpr fun heq => h (heq ▸ hc)
  rw [List.takeWhile_append_of_pos hne]
  cases rest with
  | nil => rw [List.takeWhile_nil, List.append_nil]
  | cons c rest => rw [hrest c rfl, List.takeWhile_cons_of_neg (by decide), List.append_nil]

theorem Plain.eq_of_append {a b rest rest' : List Char} (ha : Plain a) (hb : Plain b) (hrest : Marked rest)
    (hrest' : Marked rest') (h : a ++ rest = b ++ rest') : a = b := by
  rw [← ha.takeWhile hrest, h, hb.takeWhile hrest']

namespace Facets

theorem marked_segments (pairs : List (String × Json)) : Marked (segments pairs) := by
  cases pairs with
  | nil => exact fun _ hc => nomatch hc
  | cons pair rest => exact fun c hc => (Option.some.inj hc).symm

/-- **Segments stay as they are exactly when their values are stable.** -/
theorem segments_reread_iff (pairs : List (String × Json)) :
    segments (pairs.map fun pair => (pair.1, pair.2.reread)) = segments pairs ↔
      ∀ pair ∈ pairs, pair.2.Stable := by
  induction pairs with
  | nil => exact iff_of_true rfl fun _ hpair => nomatch hpair
  | cons pair rest ih =>
    obtain ⟨name, value⟩ := pair
    rw [List.map_cons, segments_cons, segments_cons, List.forall_mem_cons, List.append_assoc, List.append_assoc,
      List.append_cancel_left_eq, ← ih, ← Json.keyText_reread_iff]
    refine ⟨fun h => ?_, fun ⟨htext, hrest⟩ => by rw [htext, hrest]⟩
    have htext : value.reread.keyText = value.keyText := by
      cases value with
      | number x =>
        have hplain (x : Number) : Plain (Json.number x).keyText.toList := Number.plain_write rfl x
        exact String.toList_inj.mp
          ((hplain x.reread).eq_of_append (hplain x) (marked_segments _) (marked_segments rest) h)
      | null | bool | string | array | object => rfl
    rw [htext, List.append_cancel_left_eq] at h
    exact ⟨htext, h⟩

/-- Whether the values of some facets come back as they are. -/
def Stable (values : Facets) (names : List String) : Prop :=
  ∀ name ∈ names, ∀ value ∈ values.value? name, value.Stable

/-- The values of facets that all have one are stable if those composed are. -/
theorem stable_leading_iff {values : Facets} {names : List String} (hhas : ∀ name ∈ names, values.has name = true) :
    (∀ pair ∈ values.leading names, pair.2.Stable) ↔ values.Stable names := by
  constructor
  · intro h name hname value hvalue
    have hmem := mem_leading hhas [] hname hvalue
    rw [List.append_nil] at hmem
    exact h _ hmem
  · intro h pair hpair
    obtain ⟨hname, hvalue⟩ := value?_of_mem_leading hpair
    exact h pair.1 hname pair.2 hvalue

/-- The values that come back are composed as far as those that were stored. -/
theorem leading_reread {values back : Facets} {names : List String}
    (hback : ∀ name ∈ names, back.value? name = (values.value? name).map Json.reread) :
    back.leading names = (values.leading names).map fun pair => (pair.1, pair.2.reread) := by
  induction names with
  | nil => rfl
  | cons name rest ih =>
    have hname := hback name (List.mem_cons_self ..)
    cases hvalue : values.value? name with
    | none =>
      rw [hvalue, Option.map_none] at hname
      rw [leading_cons_none hvalue, leading_cons_none hname, List.map_nil]
    | some value =>
      rw [hvalue, Option.map_some] at hname
      rw [leading_cons hvalue, leading_cons hname, List.map_cons,
        ih fun other hother => hback other (List.mem_cons_of_mem _ hother)]

end Facets

/-- **A key of values that came back is the key that it was exactly when all of them are stable.** -/
theorem composeKey_reread_iff (scope : String) {values back : Facets} {names : List String}
    (hhas : ∀ name ∈ names, values.has name = true)
    (hback : ∀ name ∈ names, back.value? name = (values.value? name).map Json.reread) :
    composeKey scope names back = composeKey scope names values ↔ values.Stable names := by
  rw [← String.toList_inj, toList_composeKey, toList_composeKey, List.append_cancel_left_eq,
    Facets.leading_reread hback, Facets.segments_reread_iff, Facets.stable_leading_iff hhas]

end SingleTable
