import SingleTable.Proofs.Binding.Alike
import SingleTable.Proofs.Condition.Compile

/-! The form of a condition: all that its phrase shows of it.

A form has the tests of a condition at their places, and nulls for their operands. It compiles to
the same phrase as the condition (`compile_form`), so conditions with one form do. -/
namespace SingleTable

namespace Condition

mutual
/-- The condition with nulls for its operands. -/
def form : Condition → Condition
  | .test name operator operands => .test name operator (operands.map fun _ => .null)
  | .group inner => .group inner.form
  | .join connective parts => .join connective (forms parts)

def forms : List Condition → List Condition
  | [] => []
  | part :: rest => part.form :: forms rest
end

theorem forms_eq_map (parts : List Condition) : forms parts = parts.map form := by
  induction parts with
  | nil => rfl
  | cons part rest ih => rw [forms, List.map_cons, ih]

/-- Parentheses are asked for by what a form keeps. -/
theorem place_form (connective : Connective) (part : Condition) :
    place connective part.form = place connective part := by
  have hparens : part.form.needsParens connective = part.needsParens connective := by
    cases part with
    | test | group => rfl
    | join other parts => rw [form, needsParens, needsParens, forms_eq_map, List.length_map]
  funext p
  rw [place, place, hparens]

variable {surface : Surface}

mutual
/-- **The form of a condition compiles to the same phrase.** -/
theorem compile_form : (c : Condition) → (b b' b₁ : Bindings) → (phrase : Option Phrase) → b.Alike b' →
    compile surface c b = .ok (phrase, b₁) →
      ∃ b₁', compile surface c.form b' = .ok (phrase, b₁') ∧ b₁.Alike b₁'
  | .test name operator operands, b, b', b₁, phrase, hb, h => by
    obtain ⟨field, placeholders, hfield, harity, hmint, rfl⟩ := compile_test_ok h
    have hlength : operands.length = (operands.map fun _ => Json.null).length := (List.length_map _).symm
    have hcount : ¬(operands.map fun _ => Json.null).length ≠ operator.arity :=
      not_not.mpr (hlength.symm.trans harity)
    obtain ⟨hplaceholders, hlast⟩ := (hb.bindName name field).mintAll name hlength
    rw [hmint] at hplaceholders hlast
    refine ⟨_, ?_, hlast⟩
    rw [form, compile, hfield]
    simp only [if_neg hcount, ← hplaceholders]
  | .group inner, b, b', b₁, phrase, hb, h => by
    obtain ⟨p, hinner, rfl⟩ := compile_group_ok h
    obtain ⟨b₁', hform, hlast⟩ := compile_form inner b b' b₁ p hb hinner
    exact ⟨b₁', by rw [form, compile, hform], hlast⟩
  | .join connective parts, b, b', b₁, phrase, hb, h => by
    obtain ⟨phrases, hparts, rfl⟩ := compile_join_ok h
    obtain ⟨b₁', hforms, hlast⟩ := compileParts_forms connective parts b b' b₁ phrases hb hparts
    exact ⟨b₁', by rw [form, compile, hforms], hlast⟩

theorem compileParts_forms (connective : Connective) : (parts : List Condition) → (b b' b₁ : Bindings) →
    (phrases : List Phrase) → b.Alike b' → compileParts surface connective parts b = .ok (phrases, b₁) →
      ∃ b₁', compileParts surface connective (forms parts) b' = .ok (phrases, b₁') ∧ b₁.Alike b₁'
  | [], b, b', b₁, phrases, hb, h => by
    obtain ⟨rfl, rfl⟩ := Prod.mk.inj (Except.ok.inj h)
    exact ⟨b', rfl, hb⟩
  | part :: rest, b, b', b₁, phrases, hb, h => by
    obtain ⟨p, b₂, others, hpart, hrest, rfl⟩ := compileParts_cons_ok h
    obtain ⟨b₂', hform, hnext⟩ := compile_form part b b' b₂ p hb hpart
    obtain ⟨b₁', hforms, hlast⟩ := compileParts_forms connective rest b₂ b₂' b₁ others hnext hrest
    refine ⟨b₁', ?_, hlast⟩
    rw [forms, compileParts, hform, ← place_form]
    simp only [hforms]
    rfl
end

/-- **Conditions with one form compile alike.** -/
theorem compile_alike {c c' : Condition} (hform : c.form = c'.form) {b b' b₁ b₁' : Bindings}
    {phrase phrase' : Option Phrase} (hb : b.Alike b') (h : compile surface c b = .ok (phrase, b₁))
    (h' : compile surface c' b' = .ok (phrase', b₁')) : phrase = phrase' ∧ b₁.Alike b₁' := by
  -- Both runs are compared with one of the form that they share, on the bindings of the second.
  obtain ⟨b₂, hmiddle, hlast⟩ := compile_form c b b' b₁ phrase hb h
  obtain ⟨b₂', hmiddle', hlast'⟩ := compile_form c' b' b' b₁' phrase' (.refl b') h'
  rw [hform, hmiddle'] at hmiddle
  obtain ⟨rfl, rfl⟩ := Prod.mk.inj (Except.ok.inj hmiddle)
  exact ⟨rfl, hlast.trans hlast'.symm⟩

end Condition

/-- One more condition of one form. -/
theorem Clauses.Alike.apply {surface : Surface} {c c' c₁ c₁' : Clauses} {condition condition' : Condition}
    (h : c.Alike c') (hform : condition.form = condition'.form)
    (happly : c.apply surface condition = .ok c₁) (happly' : c'.apply surface condition' = .ok c₁') :
    c₁.Alike c₁' := by
  obtain ⟨phrase, hcompile, hphrases⟩ := apply_ok happly
  obtain ⟨phrase', hcompile', hphrases'⟩ := apply_ok happly'
  obtain ⟨rfl, hbindings⟩ := Condition.compile_alike hform h.bindings hcompile hcompile'
  exact ⟨hbindings, by rw [hphrases, hphrases', h.phrases]⟩

end SingleTable
