import SingleTable.Placeholder
import SingleTable.Proofs.Expression.Grammar

/-! Phrases as tokens.

A phrase is spelled if its tests have as many placeholders as their operators
take, every placeholder is a sigil and a name, and no chain is empty. The text of
a spelled phrase has the tokens that its tree lists: `tokens_text`. -/
namespace SingleTable

open Grammar

/-! ### Spelled phrases -/

structure Phrase.Test.Spelled (t : Phrase.Test) : Prop where
  arity : t.values.length = t.operator.arity
  name : ∃ identifier, IsName identifier ∧ t.name = Placeholder.ofName identifier
  values : ∀ value ∈ t.values, ∃ identifier, IsName identifier ∧ value = Placeholder.ofValue identifier

namespace Phrase

mutual
/-- Whether no chain is empty. -/
def Linked : Phrase → Prop
  | .test _ _ _ => True
  | .parens inner => inner.Linked
  | .chain _ parts => parts ≠ [] ∧ AllLinked parts

def AllLinked : List Phrase → Prop
  | [] => True
  | part :: rest => part.Linked ∧ AllLinked rest
end

mutual
def Spelled : Phrase → Prop
  | .test operator name values => Test.Spelled ⟨operator, name, values⟩
  | .parens inner => inner.Spelled
  | .chain _ parts => parts ≠ [] ∧ AllSpelled parts

def AllSpelled : List Phrase → Prop
  | [] => True
  | part :: rest => part.Spelled ∧ AllSpelled rest
end

mutual
theorem spelled_of_linked : (p : Phrase) → p.Linked → (∀ t ∈ p.tests, t.Spelled) → p.Spelled
  | .test _ _ _, _, h => h _ (List.mem_singleton_self _)
  | .parens inner, hlinked, h => spelled_of_linked inner hlinked h
  | .chain _ parts, hlinked, h => ⟨hlinked.1, allSpelled_of_linked parts hlinked.2 h⟩

theorem allSpelled_of_linked :
    (parts : List Phrase) → AllLinked parts → (∀ t ∈ testsOf parts, t.Spelled) → AllSpelled parts
  | [], _, _ => trivial
  | part :: rest, hlinked, h =>
    ⟨spelled_of_linked part hlinked.1 fun t ht => h t (List.mem_append_left _ ht),
      allSpelled_of_linked rest hlinked.2 fun t ht => h t (List.mem_append_right _ ht)⟩
end

end Phrase

theorem tokens_ofName {identifier : String} (h : IsName identifier) :
    tokens (Placeholder.ofName identifier).toList = [.name (Placeholder.ofName identifier)] := by
  rw [Placeholder.ofName, ← tokens_name h]
  simp

theorem tokens_ofValue {identifier : String} (h : IsName identifier) :
    tokens (Placeholder.ofValue identifier).toList = [.value (Placeholder.ofValue identifier)] := by
  rw [Placeholder.ofValue, ← tokens_value h]
  simp

/-! ### Tokens of a phrase -/

def Connective.token : Connective → Grammar.Token
  | .and => .and
  | .or => .or

/-- The tokens of a test; only a range has parentheses of its own. -/
def Phrase.Test.tokens (t : Phrase.Test) : List Grammar.Token :=
  match t.operator, t.values with
  | .between, [low, high] =>
    [.opening, .name t.name, .between, .value low, .and, .value high, .closing]
  | .notContains, [value] =>
    [.not, .function .contains, .opening, .name t.name, .comma, .value value, .closing]
  | .beginsWith, [value] | .contains, [value] =>
    [.function t.operator, .opening, .name t.name, .comma, .value value, .closing]
  | .exists, _ | .notExists, _ => [.function t.operator, .opening, .name t.name, .closing]
  | operator, [value] => [.name t.name, .comparator operator, .value value]
  | _, _ => []

namespace Phrase

mutual
def tokens : Phrase → List Grammar.Token
  | .test operator name values => Test.tokens ⟨operator, name, values⟩
  | .parens inner => .opening :: (tokens inner ++ [.closing])
  | .chain connective parts => tokensOf connective parts

/-- The tokens of parts with a connective between them. -/
def tokensOf (connective : Connective) : List Phrase → List Grammar.Token
  | [] => []
  | [part] => tokens part
  | part :: rest => tokens part ++ connective.token :: tokensOf connective rest
end

end Phrase

/-! ### The text of a test -/

namespace Phrase.Test

/-- The sign of a comparison. -/
def sign? : Operator → Option String
  | .eq => some "="
  | .ne => some "<>"
  | .gt => some ">"
  | .gte => some ">="
  | .lt => some "<"
  | .lte => some "<="
  | _ => none

/-- The word before the parentheses of a test that is written as a call. -/
def word? : Operator → Option String
  | .beginsWith => some "begins_with"
  | .contains => some "contains"
  | .notContains => some "not contains"
  | .exists => some "attribute_exists"
  | .notExists => some "attribute_not_exists"
  | _ => none

/-- A test with one operand is a comparison or a call. -/
theorem sign?_or_word? {operator : Operator} (harity : operator.arity = 1) :
    (∃ sign, sign? operator = some sign) ∨ ∃ word, word? operator = some word := by
  cases operator <;>
    first | exact .inl ⟨_, rfl⟩ | exact .inr ⟨_, rfl⟩ | exact absurd harity (by decide)

theorem tokens_comparison {operator : Operator} {sign : String} (hsign : sign? operator = some sign)
    {name value : String} (hname : Grammar.tokens name.toList = [.name name])
    (hvalue : Grammar.tokens value.toList = [.value value]) :
    Grammar.tokens (operator.text name [value]).toList = tokens ⟨operator, name, [value]⟩ := by
  have htext : (operator.text name [value]).toList =
      name.toList ++ ' ' :: (sign.toList ++ ' ' :: value.toList) := by
    cases operator <;> cases hsign <;> (show (name ++ _ ++ value).toList = _) <;> simp
  have htoken : Grammar.tokens sign.toList = [.comparator operator] := by
    cases operator <;> cases hsign <;> decide
  rw [htext, tokens_append_word, hname, htoken, hvalue]
  cases operator <;> cases hsign <;> rfl

theorem tokens_call {operator : Operator} {word : String} (hword : word? operator = some word)
    (harity : operator.arity = 1) {name value : String} (hname : Grammar.tokens name.toList = [.name name])
    (hvalue : Grammar.tokens value.toList = [.value value]) :
    Grammar.tokens (operator.text name [value]).toList = tokens ⟨operator, name, [value]⟩ := by
  have htext : (operator.text name [value]).toList =
      word.toList ++ '(' :: (name.toList ++ ',' :: ([] ++ ' ' :: (value.toList ++ [')']))) := by
    cases operator <;> cases hword <;> cases harity <;>
      (show (_ ++ name ++ ", " ++ value ++ ")").toList = _) <;> simp
  rw [htext, tokens_append_opening, tokens_append_comma, tokens_append_blank, tokens_append_closing,
    hname, hvalue]
  cases operator <;> cases hword <;> cases harity <;> rfl

theorem tokens_presence {operator : Operator} (harity : operator.arity = 0) {name : String}
    (hname : Grammar.tokens name.toList = [.name name]) :
    Grammar.tokens (operator.text name []).toList = tokens ⟨operator, name, []⟩ := by
  obtain ⟨word, hword⟩ : ∃ word, word? operator = some word := by
    cases operator <;> first | exact ⟨_, rfl⟩ | exact nomatch harity
  have htext : (operator.text name []).toList = word.toList ++ '(' :: (name.toList ++ [')']) := by
    cases operator <;> cases hword <;> cases harity <;>
      (show (_ ++ name ++ ")").toList = _) <;> simp
  rw [htext, tokens_append_opening, tokens_append_closing, hname]
  cases operator <;> cases hword <;> cases harity <;> rfl

theorem tokens_between {name low high : String} (hname : Grammar.tokens name.toList = [.name name])
    (hlow : Grammar.tokens low.toList = [.value low]) (hhigh : Grammar.tokens high.toList = [.value high]) :
    Grammar.tokens (Operator.text .between name [low, high]).toList = tokens ⟨.between, name, [low, high]⟩ := by
  have htext : (Operator.text .between name [low, high]).toList =
      [] ++ '(' :: (name.toList ++ ' ' :: ("between".toList ++
        ' ' :: (low.toList ++ ' ' :: ("and".toList ++ ' ' :: (high.toList ++ [')']))))) := by
    show ("(" ++ name ++ " between " ++ (low ++ " and " ++ high) ++ ")").toList = _
    simp
  have hbetween : Grammar.tokens "between".toList = [.between] := by decide
  have hand : Grammar.tokens "and".toList = [.and] := by decide
  rw [htext, tokens_append_opening, tokens_append_word, tokens_append_word, tokens_append_closing,
    hname, hlow, hhigh, hbetween, hand, tokens_nil]
  rfl

/-- The text of a spelled test has its tokens. -/
theorem tokens_text {t : Phrase.Test} (h : t.Spelled) :
    Grammar.tokens (t.operator.text t.name t.values).toList = t.tokens := by
  obtain ⟨operator, name, values⟩ := t
  obtain ⟨harity, ⟨identifier, hid, hname⟩, hvalues⟩ := h
  simp only at harity hname hvalues
  have hname : Grammar.tokens name.toList = [.name name] := by
    rw [hname]
    exact tokens_ofName hid
  have hvalues : ∀ value ∈ values, Grammar.tokens value.toList = [.value value] := by
    intro value hmem
    obtain ⟨identifier, hid, rfl⟩ := hvalues value hmem
    exact tokens_ofValue hid
  match values, harity, hvalues with
  | [], harity, _ => exact tokens_presence harity.symm hname
  | [value], harity, hvalues =>
    have hvalue := hvalues value (List.mem_singleton_self value)
    rcases sign?_or_word? harity.symm with ⟨sign, hsign⟩ | ⟨word, hword⟩
    · exact tokens_comparison hsign hname hvalue
    · exact tokens_call hword harity.symm hname hvalue
  | [low, high], harity, hvalues =>
    have hoperator : operator = .between := by
      cases operator <;> first | rfl | exact nomatch harity
    subst hoperator
    exact tokens_between hname (hvalues low (by simp)) (hvalues high (by simp))
  | _ :: _ :: _ :: _, harity, _ => cases operator <;> cases harity

end Phrase.Test

/-! ### The text of a phrase -/

namespace Phrase

theorem tokens_append_connective (connective : Connective) (a b : String) :
    Grammar.tokens (a ++ connective.text ++ b).toList =
      Grammar.tokens a.toList ++ connective.token :: Grammar.tokens b.toList := by
  cases connective with
  | and =>
    have htext : (a ++ Connective.text .and ++ b).toList =
        a.toList ++ ' ' :: ("AND".toList ++ ' ' :: b.toList) := by simp [Connective.text]
    have hword : Grammar.tokens "AND".toList = [.and] := by decide
    rw [htext, tokens_append_word, hword]
    rfl
  | or =>
    have htext : (a ++ Connective.text .or ++ b).toList =
        a.toList ++ ' ' :: ("OR".toList ++ ' ' :: b.toList) := by simp [Connective.text]
    have hword : Grammar.tokens "OR".toList = [.or] := by decide
    rw [htext, tokens_append_word, hword]
    rfl

mutual
/-- **The text of a spelled phrase has the tokens of its tree.** -/
theorem tokens_text : (p : Phrase) → p.Spelled → Grammar.tokens p.text.toList = p.tokens
  | .test _ _ _, h => Test.tokens_text h
  | .parens inner, h => by
    have htext : (text (.parens inner)).toList = '(' :: (inner.text.toList ++ [')']) := by simp [text]
    rw [htext, tokens_parens, tokens_text inner h, tokens]
  | .chain connective parts, h => by
    rw [text, tokens]
    exact tokens_textParts connective parts h.2

theorem tokens_textParts (connective : Connective) :
    (parts : List Phrase) → AllSpelled parts →
      Grammar.tokens (textParts connective parts).toList = tokensOf connective parts
  | [], _ => rfl
  | [part], h => by
    rw [textParts, tokensOf]
    exact tokens_text part h.1
  | part :: next :: rest, h => by
    rw [textParts, tokens_append_connective, tokens_text part h.1, tokensOf,
      tokens_textParts connective (next :: rest) h.2] <;> exact List.cons_ne_nil _ _
end

end Phrase

end SingleTable
