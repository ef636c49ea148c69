import SingleTable.Store.Call
import SingleTable.Proofs.Condition.Compile

/-! Placeholders of a request beside those of its clauses.

A request binds its own names and values so that they contradict nothing that its
clauses have bound, and joins the maps. Then every placeholder of either resolves
in the joined maps as it did before. -/
namespace SingleTable

open Placeholder (bindName bindValue)

/-! ### Maps that agree -/

/-- Two maps have nothing different under one name. -/
def Dict.Agrees {α : Type} (d e : Dict α) : Prop :=
  ∀ key a b, d.get? key = some a → e.get? key = some b → a = b

theorem Dict.agrees_empty {α : Type} (e : Dict α) : Dict.empty.Agrees e := by
  intro key a b ha _
  exact absurd ha (by simp)

theorem Dict.agrees_of_disjoint {α : Type} {d e : Dict α} (h : ∀ key ∈ d.keys, key ∉ e.keys) : d.Agrees e := by
  intro key a b ha hb
  have hmem : key ∈ d.keys := by
    rw [← Dict.contains_iff, Dict.contains, ha]
    rfl
  rw [Dict.get?_eq_none_iff.mpr (h key hmem)] at hb
  cases hb

theorem Dict.extends_extend_left {α : Type} (d e : Dict α) : d.Extends (d.extend e) := by
  intro key value h
  rw [Dict.get?_extend, h, Option.some_or]

theorem Dict.Agrees.extends_extend_right {α : Type} {d e : Dict α} (h : d.Agrees e) : e.Extends (d.extend e) := by
  intro key value he
  rw [Dict.get?_extend]
  cases hd : d.get? key with
  | none => rw [Option.none_or, he]
  | some a => rw [Option.some_or, h key a value hd he]

/-! ### Binding beside other maps -/

/-- A bound name resolves to its field and contradicts no name that is taken. -/
theorem bindName_agrees {names taken names' : Dict String} {base field placeholder : String}
    (h : bindName names taken base field = (placeholder, names')) (hagrees : names.Agrees taken) :
    names.Extends names' ∧ names'.get? placeholder = some field ∧ names'.Agrees taken := by
  obtain ⟨rfl, hfree⟩ := Placeholder.bindName_spec h
  obtain ⟨hnames, htaken⟩ := Placeholder.freeName_iff.mp hfree
  refine ⟨fun key value hget => ?_, Dict.get?_insert_self _ _ _, fun key a b ha hb => ?_⟩
  · rw [Dict.get?_insert]
    by_cases hkey : placeholder = key
    · subst hkey
      rw [if_pos rfl, hnames value hget]
    · rw [if_neg hkey, hget]
  · rw [Dict.get?_insert] at ha
    by_cases hkey : placeholder = key
    · subst hkey
      rw [if_pos rfl] at ha
      rw [← Option.some.inj ha, htaken b hb]
    · rw [if_neg hkey] at ha
      exact hagrees key a b ha hb

/-- A bound value goes to the end of its map, and its placeholder is not taken. -/
theorem bindValue_keys {values taken values' : Dict Json} {base placeholder : String} {value : Json}
    (h : bindValue values taken base value = (placeholder, values')) :
    values.Extends values' ∧ values'.get? placeholder = some value ∧
      values'.keys = values.keys ++ [placeholder] ∧ placeholder ∉ taken.keys := by
  obtain ⟨rfl, hnew, htaken⟩ := Placeholder.bindValue_spec h
  refine ⟨.insert hnew value, Dict.get?_insert_self _ _ _, ?_, htaken⟩
  rw [Dict.keys_insert, if_neg hnew]

/-! ### Clauses -/

/-- The phrase of clauses makes the tests of all their phrases. -/
theorem Clauses.testsOf_phrase? (c : Clauses) :
    Phrase.testsOf c.phrase?.toList = Phrase.testsOf c.phrases := by
  have hparens (phrases : List Phrase) : Phrase.testsOf (phrases.map .parens) = Phrase.testsOf phrases := by
    induction phrases with
    | nil => rfl
    | cons p rest ih => rw [List.map_cons, Phrase.testsOf, ih, Phrase.testsOf, Phrase.tests]
  unfold Clauses.phrase?
  split
  · next h => rw [h]; rfl
  · next h => rw [h]; rfl
  · next phrases h₁ h₂ =>
    rw [Option.toList_some, Phrase.testsOf, Phrase.testsOf, List.append_nil, Phrase.tests, hparens]

/-- Joined maps keep those of the request. -/
theorem Expressions.join_extends (names : Dict String) (values : Dict Json) (c : Clauses) :
    names.Extends (join names values c).names ∧ values.Extends (join names values c).values := by
  unfold join
  cases c.phrase? with
  | none => exact ⟨.refl _, .refl _⟩
  | some phrase => exact ⟨Dict.extends_extend_left _ _, Dict.extends_extend_left _ _⟩

theorem Expressions.join_condition (names : Dict String) (values : Dict Json) (c : Clauses) :
    (join names values c).condition = c.phrase? := by
  unfold join
  split <;> exact Eq.symm ‹_›

/-- The names that clauses bind are those of their tests. -/
theorem Clauses.Of.mem_names {surface : Surface} {conditions : List Condition} {c : Clauses}
    (h : Of surface conditions c) {placeholder : String} :
    placeholder ∈ c.names.keys ↔ placeholder ∈ (Phrase.testsOf c.phrases).map Phrase.Test.name := by
  refine ⟨fun hmem => (h.bound placeholder hmem).resolve_left List.not_mem_nil, fun hmem => ?_⟩
  obtain ⟨t, ht, rfl⟩ := List.mem_map.mp hmem
  obtain ⟨test, -, hstands⟩ := exists_mem_of_forall₂ h.stands ht
  obtain ⟨field, -, hfield⟩ := hstands.field
  exact Dict.contains_iff.mp (Option.isSome_iff_exists.mpr ⟨field, hfield⟩)

/-- **A joined map binds what the request and the tests of its condition have.** -/
theorem Expressions.mem_keys_join {surface : Surface} {conditions : List Condition} {c : Clauses}
    (h : Clauses.Of surface conditions c) (names : Dict String) (values : Dict Json) (placeholder : String) :
    (placeholder ∈ (join names values c).names.keys ↔ placeholder ∈ names.keys ∨
      placeholder ∈ (Phrase.testsOf (join names values c).condition.toList).map Phrase.Test.name) ∧
    (placeholder ∈ (join names values c).values.keys ↔ placeholder ∈ values.keys ∨
      placeholder ∈ Phrase.placeholders (Phrase.testsOf (join names values c).condition.toList)) := by
  have hkeys : c.values.keys = Phrase.placeholders (Phrase.testsOf c.phrases) := h.keys
  rw [join_condition, c.testsOf_phrase?, ← h.mem_names, ← hkeys]
  have htests := c.testsOf_phrase?
  unfold join
  cases hphrase : c.phrase? with
  | none =>
    -- Without a condition there are no tests, and so nothing that the clauses bind.
    rw [hphrase] at htests
    rw [h.mem_names, hkeys, ← htests]
    exact ⟨(or_iff_left List.not_mem_nil).symm, (or_iff_left List.not_mem_nil).symm⟩
  | some phrase => exact ⟨Dict.mem_keys_extend, Dict.mem_keys_extend⟩

/-- The tests of clauses resolve in the joined maps. -/
theorem Expressions.join_resolves {surface : Surface} {conditions : List Condition} {c : Clauses}
    (h : Clauses.Of surface conditions c) {names : Dict String} {values : Dict Json}
    (hnames : names.Agrees c.names) (hvalues : values.Agrees c.values) :
    List.Forall₂ (Phrase.Test.StandsFor surface (join names values c).names (join names values c).values)
      (Phrase.testsOf c.phrases) (Condition.testsOf conditions) := by
  have htests := c.testsOf_phrase?
  have hstands := h.stands
  unfold join
  cases hphrase : c.phrase? with
  | none =>
    rw [hphrase] at htests
    rw [← htests] at hstands ⊢
    rw [List.forall₂_nil_left_iff.mp hstands]
    exact .nil
  | some phrase =>
    exact hstands.imp fun t test ht => ht.extend hnames.extends_extend_right hvalues.extends_extend_right

end SingleTable
