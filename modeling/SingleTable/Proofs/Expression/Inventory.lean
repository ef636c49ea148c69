import SingleTable.Proofs.Binding.Extends
import SingleTable.Proofs.Expression.Spelling

/-! The placeholders that stand in an expression.

The tokens of a phrase have one name for every test, and its values in order:
nothing that its tests do not have stands in it, and nothing that they have is
left out. -/
namespace SingleTable

namespace Grammar

def Token.name? : Token → Option String
  | .name placeholder => some placeholder
  | _ => none

def Token.value? : Token → Option String
  | .value placeholder => some placeholder
  | _ => none

theorem Token.mem_names {ts : List Token} {placeholder : String} :
    placeholder ∈ ts.filterMap name? ↔ .name placeholder ∈ ts := by
  rw [List.mem_filterMap]
  refine ⟨fun ⟨t, ht, hname⟩ => ?_, fun h => ⟨_, h, rfl⟩⟩
  cases t <;> cases hname
  exact ht

theorem Token.mem_values {ts : List Token} {placeholder : String} :
    placeholder ∈ ts.filterMap value? ↔ .value placeholder ∈ ts := by
  rw [List.mem_filterMap]
  refine ⟨fun ⟨t, ht, hvalue⟩ => ?_, fun h => ⟨_, h, rfl⟩⟩
  cases t <;> cases hvalue
  exact ht

end Grammar

namespace Phrase

open Grammar

/-- Tokens with the placeholders of some tests, from left to right. -/
structure Lists (ts : List Grammar.Token) (tests : List Test) : Prop where
  names : ts.filterMap Grammar.Token.name? = tests.map Test.name
  values : ts.filterMap Grammar.Token.value? = placeholders tests

theorem Lists.append {ts us : List Grammar.Token} {tests others : List Test} (h : Lists ts tests) (h' : Lists us others) :
    Lists (ts ++ us) (tests ++ others) :=
  ⟨by rw [List.filterMap_append, h.names, h'.names, List.map_append],
    by rw [List.filterMap_append, h.values, h'.values, placeholders, placeholders, placeholders, List.flatMap_append]⟩

/-- A token that is no placeholder. -/
theorem Lists.cons {t : Grammar.Token} {ts : List Grammar.Token} {tests : List Test} (h : Lists ts tests) (hname : t.name? = none)
    (hvalue : t.value? = none) : Lists (t :: ts) tests :=
  ⟨by rw [List.filterMap_cons_none hname, h.names], by rw [List.filterMap_cons_none hvalue, h.values]⟩

theorem Test.lists {t : Test} (h : t.Spelled) : Lists t.tokens [t] := by
  obtain ⟨operator, name, values⟩ := t
  have harity : values.length = operator.arity := h.arity
  match values, harity with
  | [], harity => cases operator <;> first | exact ⟨rfl, rfl⟩ | exact nomatch harity
  | [value], harity => cases operator <;> first | exact ⟨rfl, rfl⟩ | exact nomatch harity
  | [low, high], harity => cases operator <;> first | exact ⟨rfl, rfl⟩ | exact nomatch harity
  | _ :: _ :: _ :: _, harity => cases operator <;> exact nomatch harity

mutual
/-- **The placeholders in a phrase are those of its tests.** -/
theorem lists : (p : Phrase) → p.Spelled → Lists p.tokens p.tests
  | .test _ _ _, h => Test.lists h
  | .parens inner, h => by
    have hclosing : Lists [.closing] [] := ⟨rfl, rfl⟩
    have hinner := (lists inner h).append hclosing
    rw [List.append_nil] at hinner
    exact hinner.cons rfl rfl
  | .chain connective parts, h => lists_parts connective parts h.2

theorem lists_parts (connective : Connective) :
    (parts : List Phrase) → AllSpelled parts → Lists (tokensOf connective parts) (testsOf parts)
  | [], _ => ⟨rfl, rfl⟩
  | [part], h => by
    rw [tokensOf, testsOf, testsOf, List.append_nil]
    exact lists part h.1
  | part :: next :: rest, h => by
    have hrest := lists_parts connective (next :: rest) h.2
    rw [tokensOf, testsOf]
    · exact (lists part h.1).append (hrest.cons (by cases connective <;> rfl) (by cases connective <;> rfl))
    · exact List.cons_ne_nil _ _
end

end Phrase

end SingleTable
