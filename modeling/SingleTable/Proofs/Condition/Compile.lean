import SingleTable.Proofs.Binding.Extends

/-! What compiling a condition does.

Compilation succeeds on a condition whose tests fit the surface. It writes
the tests of the condition from left to right, and every written test stands for
the one it was made from. The clauses of a request are compiled one after another,
so their tests are those of all conditions that were applied. -/
namespace SingleTable

theorem Surface.field_ok {surface : Surface} {name field : String} (h : surface.field name = .ok field) :
    ∃ a, surface.attributes.get? name = some a ∧ a.field = field := by
  unfold Surface.field at h
  split at h
  · next a ha => exact ⟨a, ha, Except.ok.inj h⟩
  · exact nomatch h

namespace Condition

variable {surface : Surface}

/-! ### One step of compilation -/

theorem compile_test_ok {name : String} {operator : Operator} {operands : List Json} {b b' : Bindings}
    {phrase : Option Phrase} (h : compile surface (.test name operator operands) b = .ok (phrase, b')) :
    ∃ field placeholders, surface.field name = .ok field ∧ operands.length = operator.arity ∧
      (b.bindName name field).mintAll name operands = (placeholders, b') ∧
      phrase = some (.test operator (Placeholder.ofName name) placeholders) := by
  rw [compile] at h
  cases hfield : surface.field name with
  | error fault =>
    rw [hfield] at h
    exact nomatch h
  | ok field =>
    rw [hfield] at h
    by_cases harity : operands.length = operator.arity
    · simp only [harity, ne_eq, not_true_eq_false, if_false] at h
      obtain ⟨rfl, rfl⟩ := Prod.mk.inj (Except.ok.inj h)
      exact ⟨field, _, rfl, harity, rfl, rfl⟩
    · simp only [ne_eq, harity, not_false_eq_true, if_true] at h
      exact nomatch h

theorem compile_group_ok {inner : Condition} {b b' : Bindings} {phrase : Option Phrase}
    (h : compile surface (.group inner) b = .ok (phrase, b')) :
    ∃ p, compile surface inner b = .ok (p, b') ∧ phrase = p.map .parens := by
  rw [compile] at h
  cases hinner : compile surface inner b with
  | error fault =>
    rw [hinner] at h
    exact nomatch h
  | ok result =>
    rw [hinner] at h
    obtain ⟨rfl, rfl⟩ := Prod.mk.inj (Except.ok.inj h)
    exact ⟨result.1, rfl, rfl⟩

theorem compile_join_ok {connective : Connective} {parts : List Condition} {b b' : Bindings}
    {phrase : Option Phrase} (h : compile surface (.join connective parts) b = .ok (phrase, b')) :
    ∃ phrases, compileParts surface connective parts b = .ok (phrases, b') ∧
      phrase = Phrase.chain? connective phrases := by
  rw [compile] at h
  cases hparts : compileParts surface connective parts b with
  | error fault =>
    rw [hparts] at h
    exact nomatch h
  | ok result =>
    rw [hparts] at h
    obtain ⟨rfl, rfl⟩ := Prod.mk.inj (Except.ok.inj h)
    exact ⟨result.1, rfl, rfl⟩

/-- A part with the parentheses that its place asks for. -/
def place (connective : Connective) (part : Condition) (p : Phrase) : Phrase :=
  if part.needsParens connective then .parens p else p

theorem compileParts_cons_ok {connective : Connective} {part : Condition} {rest : List Condition}
    {b b' : Bindings} {phrases : List Phrase}
    (h : compileParts surface connective (part :: rest) b = .ok (phrases, b')) :
    ∃ p b₁ others, compile surface part b = .ok (p, b₁) ∧
      compileParts surface connective rest b₁ = .ok (others, b') ∧
      phrases = (p.map (place connective part)).toList ++ others := by
  rw [compileParts] at h
  cases hpart : compile surface part b with
  | error fault =>
    rw [hpart] at h
    exact nomatch h
  | ok result =>
    rw [hpart] at h
    simp only at h
    cases hrest : compileParts surface connective rest result.2 with
    | error fault =>
      rw [hrest] at h
      exact nomatch h
    | ok results =>
      rw [hrest] at h
      obtain ⟨rfl, rfl⟩ := Prod.mk.inj (Except.ok.inj h)
      exact ⟨result.1, result.2, results.1, rfl, hrest, rfl⟩

/-! ### Success -/

/-- Whether a test can be compiled: of a known attribute, with as many operands as it takes. -/
def Test.Fits (surface : Surface) (t : Test) : Prop :=
  (∃ field, surface.field t.name = .ok field) ∧ t.operands.length = t.operator.arity

mutual
theorem compile_total : (c : Condition) → (b : Bindings) → (∀ t ∈ c.tests, t.Fits surface) →
    ∃ result, compile surface c b = .ok result
  | .test name operator operands, b, h => by
    obtain ⟨⟨field, hfield⟩, harity⟩ := h ⟨name, operator, operands⟩ (List.mem_singleton_self _)
    have hcount : ¬operands.length ≠ operator.arity := not_not.mpr harity
    exact ⟨_, by rw [compile, hfield]; exact if_neg hcount⟩
  | .group inner, b, h => by
    obtain ⟨result, hinner⟩ := compile_total inner b h
    exact ⟨_, by rw [compile, hinner]⟩
  | .join connective parts, b, h => by
    obtain ⟨result, hparts⟩ := compileParts_total connective parts b h
    exact ⟨_, by rw [compile, hparts]⟩

theorem compileParts_total (connective : Connective) : (parts : List Condition) → (b : Bindings) →
    (∀ t ∈ testsOf parts, t.Fits surface) → ∃ result, compileParts surface connective parts b = .ok result
  | [], b, _ => ⟨_, rfl⟩
  | part :: rest, b, h => by
    obtain ⟨result, hpart⟩ := compile_total part b fun t ht => h t (List.mem_append_left _ ht)
    obtain ⟨results, hrest⟩ := compileParts_total connective rest result.2
      fun t ht => h t (List.mem_append_right _ ht)
    refine ⟨((result.1.map (place connective part)).toList ++ results.1, results.2), ?_⟩
    simp only [compileParts, hpart, hrest]
    rfl
end

/-! ### Written tests -/

theorem tests_place (connective : Connective) (part : Condition) (p : Phrase) :
    (place connective part p).tests = p.tests := by
  unfold place
  split <;> rfl

mutual
/-- **Compiling writes the tests of a condition from left to right.** -/
theorem compile_extends : (c : Condition) → (b b' : Bindings) → (phrase : Option Phrase) →
    b.Named surface → compile surface c b = .ok (phrase, b') →
      Bindings.Extends surface (Phrase.testsOf phrase.toList) c.tests b b'
  | .test name operator operands, b, b', phrase, hb, h => by
    obtain ⟨field, placeholders, hfield, harity, hmint, rfl⟩ := compile_test_ok h
    exact Bindings.extends_test hb hfield harity hmint
  | .group inner, b, b', phrase, hb, h => by
    obtain ⟨p, hinner, rfl⟩ := compile_group_ok h
    have hextends := compile_extends inner b b' p hb hinner
    cases p with
    | none => exact hextends
    | some p => exact hextends
  | .join connective parts, b, b', phrase, hb, h => by
    obtain ⟨phrases, hparts, rfl⟩ := compile_join_ok h
    have hextends := compileParts_extends connective parts b b' phrases hb hparts
    cases phrases with
    | nil => exact hextends
    | cons p rest => simpa [Phrase.chain?, Phrase.testsOf, Phrase.tests, tests] using hextends

theorem compileParts_extends (connective : Connective) : (parts : List Condition) → (b b' : Bindings) →
    (phrases : List Phrase) → b.Named surface →
    compileParts surface connective parts b = .ok (phrases, b') →
      Bindings.Extends surface (Phrase.testsOf phrases) (testsOf parts) b b'
  | [], b, b', phrases, hb, h => by
    obtain ⟨rfl, rfl⟩ := Prod.mk.inj (Except.ok.inj h)
    exact .refl hb
  | part :: rest, b, b', phrases, hb, h => by
    obtain ⟨p, b₁, others, hpart, hrest, rfl⟩ := compileParts_cons_ok h
    have hfirst := compile_extends part b b₁ p hb hpart
    have hothers := compileParts_extends connective rest b₁ b' others hfirst.named hrest
    have hplaced : Phrase.testsOf (p.map (place connective part)).toList = Phrase.testsOf p.toList := by
      cases p with
      | none => rfl
      | some p => simp [Phrase.testsOf, tests_place]
    rw [Phrase.testsOf_append, hplaced]
    exact hfirst.trans hothers
end

end Condition

/-! ### Clauses -/

namespace Clauses

variable {surface : Surface}

/-- The clauses of some conditions, applied one after another to none. -/
def Of (surface : Surface) (conditions : List Condition) (c : Clauses) : Prop :=
  Bindings.Extends surface (Phrase.testsOf c.phrases) (Condition.testsOf conditions) .empty c.bindings

theorem of_empty (surface : Surface) : Of surface [] .empty := .refl (Bindings.named_empty surface)

theorem apply_ok {c c' : Clauses} {condition : Condition} (h : c.apply surface condition = .ok c') :
    ∃ phrase, condition.compile surface c.bindings = .ok (phrase, c'.bindings) ∧
      c'.phrases = c.phrases ++ phrase.toList := by
  rw [apply] at h
  cases hcompile : condition.compile surface c.bindings with
  | error fault =>
    rw [hcompile] at h
    exact nomatch h
  | ok result =>
    rw [hcompile] at h
    obtain rfl := Except.ok.inj h
    exact ⟨result.1, rfl, rfl⟩

/-- One more condition. -/
theorem Of.apply {conditions : List Condition} {c c' : Clauses} {condition : Condition}
    (h : Of surface conditions c) (happly : c.apply surface condition = .ok c') :
    Of surface (conditions ++ [condition]) c' := by
  obtain ⟨phrase, hcompile, hphrases⟩ := apply_ok happly
  have hextends := condition.compile_extends _ _ _ h.named hcompile
  have htests : Condition.testsOf (conditions ++ [condition]) = Condition.testsOf conditions ++ condition.tests := by
    simp [Condition.testsOf_eq_flatMap]
  rw [Of, hphrases, Phrase.testsOf_append, htests]
  exact h.trans hextends

/-- The written tests of clauses have placeholders of their own. -/
theorem Of.nodup {conditions : List Condition} {c : Clauses} (h : Of surface conditions c) :
    (Phrase.placeholders (Phrase.testsOf c.phrases)).Nodup := by
  have hkeys : c.values.keys = Phrase.placeholders (Phrase.testsOf c.phrases) := h.keys
  rw [← hkeys]
  exact c.values.nodup

end Clauses

end SingleTable
