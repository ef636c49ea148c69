import SingleTable.Proofs.Binding.Fresh
import SingleTable.Proofs.Expression.Spelling

/-! Bound placeholders as tokens.

A placeholder that a request binds is a candidate for a sigil and a name. Whichever
candidate it is, it is one token of the text that it stands in. -/
namespace SingleTable

open Grammar

namespace Placeholder

/-- The candidates for a sigil and a name are the sigil and names. -/
theorem candidate_append (sigil : String) {identifier : String} (h : IsName identifier) (n : Nat) :
    ∃ other, IsName other ∧ candidate (sigil ++ identifier) n = sigil ++ other := by
  unfold candidate
  split
  · exact ⟨identifier, h, rfl⟩
  · exact ⟨identifier ++ toString n, isName_append_toString h n, String.append_assoc⟩

theorem bindName_candidate {names taken names' : Dict String} {base field placeholder : String}
    (h : bindName names taken base field = (placeholder, names')) : ∃ n, placeholder = candidate base n :=
  ⟨_, (Prod.mk.inj h).1.symm⟩

/-- A name placeholder is one token. -/
theorem tokens_bindName (identifier : String) (hname : IsName identifier) {names taken names' : Dict String}
    {field placeholder : String} (h : bindName names taken (ofName identifier) field = (placeholder, names')) :
    Grammar.tokens placeholder.toList = [.name placeholder] := by
  obtain ⟨n, rfl⟩ := bindName_candidate h
  obtain ⟨other, hother, heq⟩ := candidate_append "#" hname n
  rw [ofName, heq]
  exact tokens_ofName hother

/-- A value placeholder is one token. -/
theorem tokens_bindValue (identifier : String) (hname : IsName identifier) {values taken values' : Dict Json}
    {value : Json} {placeholder : String}
    (h : bindValue values taken (ofValue identifier) value = (placeholder, values')) :
    Grammar.tokens placeholder.toList = [.value placeholder] := by
  obtain ⟨rfl, -⟩ := Prod.mk.inj h
  obtain ⟨other, hother, heq⟩ := candidate_append ":" hname _
  rw [ofValue, heq]
  exact tokens_ofValue hother

theorem begins_candidate (base : String) (n : Nat) : base.toList <+: (candidate base n).toList := by
  unfold candidate
  split
  · exact List.prefix_rfl
  · rw [String.toList_append]
    exact List.prefix_append _ _

/-- Bases of which none begins the other have no candidate in common. -/
theorem candidate_ne {base other : String} (h : ¬base.toList <+: other.toList) (h' : ¬other.toList <+: base.toList)
    (m n : Nat) : candidate base m ≠ candidate other n := by
  intro heq
  have hother := begins_candidate other n
  rw [← heq] at hother
  exact (List.prefix_or_prefix_of_prefix (begins_candidate base m) hother).elim h h'

end Placeholder

end SingleTable
