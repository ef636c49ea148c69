import SingleTable.Proofs.Binding.Fresh
import Mathlib.Logic.Function.Iterate

/-! The search for a placeholder ends by itself.

`firstFree` is told how many numbers it may try. A search that is told nothing takes one turn after
another until a number is free, and nothing in a turn says that there is a last one. There is
(`search_ends_fresh`): as the candidates differ from each other, a search for a placeholder needs at most
one turn more than the maps that it looks into have entries. So the bound of `firstFree` is never met,
and what it gives is what the search without a bound finds. -/
namespace SingleTable

/-! ### Searches without a bound -/

/-- A search has a number to try next, or has found one. -/
inductive Search where
  | trying (n : Nat)
  | found (n : Nat)

namespace Search

variable {free : Nat → Bool} {start turns n : Nat}

/-- One turn tries one number. A search that has found one is over. -/
def turn (free : Nat → Bool) : Search → Search
  | .trying n => if free n then .found n else .trying (n + 1)
  | .found n => .found n

/-- What a search from a number on has come to after some turns. -/
def run (free : Nat → Bool) (start turns : Nat) : Search := (turn free)^[turns] (.trying start)

theorem run_succ_of_free (h : free start = true) : run free start (turns + 1) = .found start := by
  have hturn : turn free (.trying start) = .found start := by rw [turn, if_pos h]
  rw [run, Function.iterate_succ_apply, hturn]
  exact Function.iterate_fixed rfl turns

theorem run_succ_of_not_free (h : free start = false) : run free start (turns + 1) = run free (start + 1) turns := by
  have hturn : turn free (.trying start) = .trying (start + 1) := by
    rw [turn, if_neg (by rw [h]; exact Bool.false_ne_true)]
  rw [run, Function.iterate_succ_apply, hturn, run]

/-- **A search finds the least free number**, and takes one turn for it and one for each number before. -/
theorem run_eq_found_iff : run free start turns = .found n ↔
    (start ≤ n ∧ n < start + turns) ∧ free n = true ∧ ∀ m, start ≤ m → m < n → free m = false := by
  induction turns generalizing start with
  | zero =>
    refine iff_of_false (fun h => nomatch h) fun h => ?_
    omega
  | succ turns ih =>
    cases hfree : free start with
    | true =>
      rw [run_succ_of_free hfree]
      constructor
      · intro h
        obtain rfl := Search.found.inj h
        exact ⟨by omega, hfree, fun m hlow hhigh => absurd hlow (Nat.not_le.mpr hhigh)⟩
      · rintro ⟨hn, -, hleast⟩
        have heq : start = n := by
          by_contra hne
          have hfalse := hleast start (Nat.le_refl _) (by omega)
          rw [hfree] at hfalse
          exact nomatch hfalse
        rw [heq]
    | false =>
      rw [run_succ_of_not_free hfree, ih]
      constructor
      · rintro ⟨hn, hfound, hleast⟩
        refine ⟨by omega, hfound, fun m hlow hhigh => ?_⟩
        by_cases heq : m = start
        · rw [heq, hfree]
        · exact hleast m (by omega) hhigh
      · rintro ⟨hn, hfound, hleast⟩
        have hne : start ≠ n := by
          rintro rfl
          rw [hfree] at hfound
          exact nomatch hfound
        exact ⟨by omega, hfound, fun m hlow hhigh => hleast m (by omega) hhigh⟩

/-- If the search with a bound gives a free number, it is the one that is found without the bound. -/
theorem run_firstFree {room : Nat} (h : free (firstFree free room start) = true) :
    run free start (room + 1) = .found (firstFree free room start) := by
  have hlow := le_firstFree free room start
  have hhigh := firstFree_le free room start
  exact run_eq_found_iff.mpr ⟨by omega, h, fun m => not_free_of_lt_firstFree⟩

end Search

/-! ### Candidates for a base -/

namespace Placeholder

/-- A base is kept if it is free. Otherwise it gets the least number from 1 on that makes it free. -/
inductive Chosen (free : String → Bool) (base : String) : String → Prop where
  | kept : free base = true → Chosen free base base
  | numbered {n : Nat} : free base = false → 1 ≤ n → (∀ m, 1 ≤ m → m < n → free (base ++ toString m) = false) →
      free (base ++ toString n) = true → Chosen free base (base ++ toString n)

/-- A search among the candidates chooses. -/
theorem chosen_of_run {free : String → Bool} {base : String} {turns n : Nat}
    (h : Search.run (fun n => free (candidate base n)) 0 turns = .found n) : Chosen free base (candidate base n) := by
  obtain ⟨-, hfree, hleast⟩ := Search.run_eq_found_iff.mp h
  have hnumber {m : Nat} (hm : 1 ≤ m) : candidate base m = base ++ toString m := if_neg (by omega)
  by_cases hn : n = 0
  · subst hn
    exact .kept hfree
  · rw [hnumber (by omega)] at hfree ⊢
    refine .numbered (hleast 0 (Nat.zero_le _) (by omega)) (by omega) (fun m hlow hhigh => ?_) hfree
    rw [← hnumber hlow]
    exact hleast m (Nat.zero_le _) hhigh

end Placeholder

/-! ### The theorem -/

open Placeholder (bindName bindValue freeName freeValue candidate)

/-- **Every search for a placeholder ends, and with a free one.** Whatever the maps hold, one turn more than
they have entries is enough. A name goes under its base, or under the base with the least number that
makes it free: no map has that for another field. A value goes under its base, or under the base with the
least number that makes it free: no map has that at all. An operand goes under the least number above the
counter of its attribute that no value has. -/
theorem search_ends_fresh (names taken : Dict String) (values used : Dict Json) (base field : String) (value : Json)
    (b : Bindings) (name : String) (operand : Json) :
    (∃ n ≤ names.size + taken.size, (bindName names taken base field).1 = candidate base n ∧
      Search.run (fun n => freeName names taken field (candidate base n)) 0 (names.size + taken.size + 1) = .found n ∧
      Placeholder.Chosen (freeName names taken field) base (candidate base n) ∧
      ∀ other, names.get? (candidate base n) = some other ∨ taken.get? (candidate base n) = some other →
        other = field) ∧
    (∃ n ≤ values.size + used.size, (bindValue values used base value).1 = candidate base n ∧
      Search.run (fun n => freeValue values used (candidate base n)) 0 (values.size + used.size + 1) = .found n ∧
      Placeholder.Chosen (freeValue values used) base (candidate base n) ∧
      candidate base n ∉ values.keys ∧ candidate base n ∉ used.keys) ∧
    ∃ n, (b.mint name operand).1 = Bindings.numbered name n ∧
      Search.run (fun n => !b.values.contains (Bindings.numbered name n)) (b.count name + 1) (b.values.size + 1) =
        .found n ∧
      b.count name < n ∧ Bindings.numbered name n ∉ b.values.keys ∧
      ∀ m, b.count name < m → m < n → Bindings.numbered name m ∈ b.values.keys := by
  refine ⟨?_, ?_, ?_⟩
  · have hfree := (Placeholder.bindName_spec (rfl : bindName names taken base field = (_, _))).2
    have hrun := @Search.run_firstFree (fun n => freeName names taken field (candidate base n)) 0 _ hfree
    obtain ⟨⟨-, hn⟩, -⟩ := Search.run_eq_found_iff.mp hrun
    obtain ⟨hnames, htaken⟩ := Placeholder.freeName_iff.mp hfree
    exact ⟨_, by omega, rfl, hrun, Placeholder.chosen_of_run hrun, fun other h => h.elim (hnames other) (htaken other)⟩
  · have hfree := (Placeholder.bindValue_spec (rfl : bindValue values used base value = (_, _))).2
    have hrun := @Search.run_firstFree (fun n => freeValue values used (candidate base n)) 0 _
      (Placeholder.freeValue_iff.mpr hfree)
    obtain ⟨⟨-, hn⟩, -⟩ := Search.run_eq_found_iff.mp hrun
    exact ⟨_, by omega, rfl, hrun, Placeholder.chosen_of_run hrun, hfree⟩
  · obtain ⟨-, hnew, -, -⟩ := Bindings.mint_spec (rfl : b.mint name operand = (_, _))
    have hrun := @Search.run_firstFree (fun n => !b.values.contains (Bindings.numbered name n)) _ _
      (by rw [Bool.not_eq_true', Dict.contains_eq_false_iff]; exact hnew)
    obtain ⟨⟨hlow, -⟩, -, hleast⟩ := Search.run_eq_found_iff.mp hrun
    refine ⟨_, rfl, hrun, hlow, hnew, fun m hm hn => ?_⟩
    rw [← Dict.contains_iff]
    simpa using hleast m hm hn

/-- The base is in use, and so is the base with a 1 behind it. -/
example : (bindValue .empty (.ofList [(":sk1", .string "x"), (":sk11", .string "y")]) ":sk1" (.string "b")).1 =
    ":sk12" := by
  decide

end SingleTable
