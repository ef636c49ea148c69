import SingleTable.Condition.Clauses
import Mathlib.Data.List.Nodup
import Mathlib.Data.List.Perm.Subperm

/-! The search for a free placeholder always finds one.

The candidates are different from each other, so of one candidate more than there
are names in use, one is not in use. What `bindName`, `bindValue` and `mint` do
to the maps follows from that, and no other proof looks at the search. -/
namespace SingleTable

/-! ### The search -/

theorem firstFree_free {free : Nat → Bool} {room start n : Nat} (hlow : start ≤ n) (hhigh : n ≤ start + room)
    (hn : free n = true) : free (firstFree free room start) = true := by
  induction room generalizing start with
  | zero =>
    have heq : start = n := by omega
    rw [firstFree, heq, hn]
  | succ room ih =>
    rw [firstFree]
    split
    · next h => exact h
    · next h =>
      have hne : start ≠ n := fun heq => h (heq ▸ hn)
      exact ih (by omega) (by omega)

/-- Of different candidates, one more than there are names in use, one is not in use. -/
theorem exists_notMem (taken : List String) {candidate : Nat → String}
    (hinj : ∀ m n, candidate m = candidate n → m = n) (start : Nat) :
    ∃ n, start ≤ n ∧ n ≤ start + taken.length ∧ candidate n ∉ taken := by
  by_contra hall
  have hmem : ∀ n, start ≤ n → n ≤ start + taken.length → candidate n ∈ taken := by
    intro n hlow hhigh
    by_contra hn
    exact hall ⟨n, hlow, hhigh, hn⟩
  have hnodup : ((List.range' start (taken.length + 1)).map candidate).Nodup :=
    List.Nodup.map (fun m n => hinj m n) List.nodup_range'
  have hsubset : (List.range' start (taken.length + 1)).map candidate ⊆ taken := by
    intro name hname
    obtain ⟨n, hn, rfl⟩ := List.mem_map.mp hname
    rw [List.mem_range'_1] at hn
    exact hmem n hn.1 (by omega)
  have hlen := (List.subperm_of_subset hnodup hsubset).length_le
  rw [List.length_map, List.length_range'] at hlen
  omega

theorem firstFree_notMem (free : Nat → Bool) (taken : List String) {candidate : Nat → String}
    (hinj : ∀ m n, candidate m = candidate n → m = n) (hfree : ∀ n, candidate n ∉ taken → free n = true)
    {room : Nat} (hroom : taken.length ≤ room) (start : Nat) : free (firstFree free room start) = true := by
  obtain ⟨n, hlow, hhigh, hn⟩ := exists_notMem taken hinj start
  exact firstFree_free hlow (by omega) (hfree n hn)

/-! ### Candidates -/

/-- A number can be read back from its digits. -/
theorem toString_inj {m n : Nat} (h : toString m = toString n) : m = n := by
  have htext : m.repr = n.repr := h
  have hread (k : Nat) : Nat.ofDigitChars 10 k.repr.toList 0 = k := by
    rw [Nat.toList_repr, Nat.ofDigitChars_toDigits (by decide) (by decide)]
  rw [← hread m, ← hread n, htext]

theorem numbered_inj (name : String) (m n : Nat)
    (h : Bindings.numbered name m = Bindings.numbered name n) : m = n := by
  unfold Bindings.numbered Placeholder.ofValue at h
  exact toString_inj ((String.append_right_inj _).mp ((String.append_right_inj _).mp h))

namespace Placeholder

theorem candidate_inj (base : String) (m n : Nat) (h : candidate base m = candidate base n) : m = n := by
  have hne (k : Nat) : base ≠ base ++ toString k := by
    intro heq
    have hlen := congrArg (fun s => s.toList.length) heq
    have hpos : 0 < k.repr.toList.length := by
      rw [Nat.toList_repr]
      exact List.length_pos_iff.mpr Nat.toDigits_ne_nil
    have happend : (base ++ toString k).toList.length = base.toList.length + k.repr.toList.length := by
      rw [String.toList_append, List.length_append]
      rfl
    omega
  unfold candidate at h
  split at h <;> split at h
  · omega
  · exact absurd h (hne n)
  · exact absurd h.symm (hne m)
  · exact toString_inj ((String.append_right_inj _).mp h)

/-! ### What binding does -/

theorem freeValue_iff {values taken : Dict Json} {placeholder : String} :
    freeValue values taken placeholder = true ↔ placeholder ∉ values.keys ∧ placeholder ∉ taken.keys := by
  rw [freeValue, Bool.and_eq_true, Bool.not_eq_true', Bool.not_eq_true', Dict.contains_eq_false_iff,
    Dict.contains_eq_false_iff]

theorem freeName_iff {names taken : Dict String} {field placeholder : String} :
    freeName names taken field placeholder = true ↔
      (∀ other, names.get? placeholder = some other → other = field) ∧
        ∀ other, taken.get? placeholder = some other → other = field := by
  simp only [freeName, Bool.and_eq_true, Option.all_eq_true, beq_iff_eq]

/-- **A name is bound to its field under a placeholder that no map has for another field.** -/
theorem bindName_spec {names taken names' : Dict String} {base field placeholder : String}
    (h : bindName names taken base field = (placeholder, names')) :
    names' = names.insert placeholder field ∧ freeName names taken field placeholder = true := by
  obtain ⟨rfl, rfl⟩ := Prod.mk.inj h
  refine ⟨rfl, ?_⟩
  refine firstFree_notMem (fun n => freeName names taken field (candidate base n))
    (names.keys ++ taken.keys) (candidate_inj base) (fun n hn => ?_) ?_ 0
  · rw [List.mem_append, not_or, ← Dict.get?_eq_none_iff, ← Dict.get?_eq_none_iff] at hn
    simp [freeName, hn.1, hn.2]
  · simp [Dict.keys, Dict.size, Assoc.keys]

/-- **A value is bound under a placeholder that no map has.** -/
theorem bindValue_spec {values taken values' : Dict Json} {base placeholder : String} {value : Json}
    (h : bindValue values taken base value = (placeholder, values')) :
    values' = values.insert placeholder value ∧ placeholder ∉ values.keys ∧ placeholder ∉ taken.keys := by
  obtain ⟨rfl, rfl⟩ := Prod.mk.inj h
  refine ⟨rfl, freeValue_iff.mp ?_⟩
  refine firstFree_notMem (fun n => freeValue values taken (candidate base n))
    (values.keys ++ taken.keys) (candidate_inj base) (fun n hn => ?_) ?_ 0
  · rw [List.mem_append, not_or] at hn
    exact freeValue_iff.mpr hn
  · simp [Dict.keys, Dict.size, Assoc.keys]

end Placeholder

/-- **An operand is bound under a number of its attribute that no operand has.** -/
theorem Bindings.mint_spec {b b' : Bindings} {name placeholder : String} {operand : Json}
    (h : b.mint name operand = (placeholder, b')) :
    (∃ n, placeholder = numbered name n) ∧ placeholder ∉ b.values.keys ∧ b'.names = b.names ∧
      b'.values = b.values.insert placeholder operand := by
  obtain ⟨rfl, rfl⟩ := Prod.mk.inj h
  refine ⟨⟨_, rfl⟩, ?_, rfl, rfl⟩
  rw [← Dict.contains_eq_false_iff, ← Bool.not_eq_true']
  refine firstFree_notMem (fun n => !b.values.contains (numbered name n)) b.values.keys
    (numbered_inj name) (fun n hn => ?_) ?_ (b.count name + 1)
  · rw [Bool.not_eq_true', Dict.contains_eq_false_iff]
    exact hn
  · simp [Dict.keys, Dict.size, Assoc.keys]

end SingleTable
