import SingleTable.Proofs.Condition.Accumulation

/-! Clauses as a conjunction.

A single clause is written as it is, and several in parentheses with AND between
them, so no OR of a clause gets out of it. The text of all reads as the AND of
what the texts of the clauses read as, each on its own (`reads_conjunction`). Only
the conditions that make a test have a clause (`Represents`). -/
namespace SingleTable

open Grammar

namespace Phrase

/-- Parts in parentheses, all to hold, are one row. -/
theorem rowsOf_map_parens {parts : List Phrase} (hne : parts ≠ []) :
    rowsOf .and (parts.map .parens) = [parts.map formula] := by
  induction parts with
  | nil => exact absurd rfl hne
  | cons part rest ih =>
    rw [List.map_cons, rowsOf, List.map_cons]
    cases rest with
    | nil => rfl
    | cons next rest =>
      rw [ih (List.cons_ne_nil _ _)]
      rfl

theorem spelled_of_mem {parts : List Phrase} (h : AllSpelled parts) : ∀ p ∈ parts, p.Spelled := by
  induction parts with
  | nil => exact fun p hp => nomatch hp
  | cons part rest ih =>
    intro p hp
    rcases List.mem_cons.mp hp with rfl | hp
    · exact h.1
    · exact ih h.2 p hp

end Phrase

namespace Condition

theorem makesTest_eq_true {condition : Condition} : condition.makesTest = true ↔ condition.tests ≠ [] := by
  simp [makesTest]

end Condition

namespace Clauses

variable {surface : Surface} {c c' : Clauses}

theorem phrase?_eq_none : c.phrase? = none ↔ c.phrases = [] := by
  unfold phrase?
  split <;> simp_all

/-- **The text of clauses reads as the AND of their formulas.** -/
theorem formula_phrase? {p : Phrase} (hp : c.phrase? = some p) :
    c.phrases ≠ [] ∧ p.formula = Formula.allOf (c.phrases.map Phrase.formula) := by
  unfold phrase? at hp
  split at hp
  · exact nomatch hp
  · next phrase h =>
    obtain rfl := Option.some.inj hp
    rw [h]
    exact ⟨List.cons_ne_nil _ _, rfl⟩
  · next hne _ =>
    obtain rfl := Option.some.inj hp
    refine ⟨hne, ?_⟩
    show Formula.ofRows (Phrase.rowsOf .and _) = _
    rw [Phrase.rowsOf_map_parens hne]
    rfl

/-! ### Clauses and conditions -/

/-- The clauses stand for those of some conditions that make a test, one for each. -/
def Represents (surface : Surface) (c : Clauses) (conditions : List Condition) : Prop :=
  List.Forall₂ (fun p condition => p.Linked ∧
      List.Forall₂ (Phrase.Test.StandsFor surface c.names c.values) p.tests condition.tests)
    c.phrases (conditions.filter Condition.makesTest)

theorem represents_empty (surface : Surface) : Represents surface empty [] := .nil

/-- One more condition has a clause exactly if it makes a test. -/
theorem Represents.apply {conditions : List Condition} {condition : Condition} (h : Represents surface c conditions)
    (hnamed : c.bindings.Named surface) (happly : c.apply surface condition = .ok c') :
    Represents surface c' (conditions ++ [condition]) := by
  obtain ⟨phrase, hcompile, hphrases⟩ := apply_ok happly
  have hextends := condition.compile_extends _ _ _ hnamed hcompile
  have houtlines := condition.compile_outlines _ _ _ hcompile
  have hbefore : List.Forall₂ (fun p condition => p.Linked ∧
      List.Forall₂ (Phrase.Test.StandsFor surface c'.names c'.values) p.tests condition.tests)
      c.phrases (conditions.filter Condition.makesTest) :=
    h.imp fun p other hp => ⟨hp.1, hp.2.imp fun t test ht => ht.extend hextends.names hextends.values⟩
  rw [Represents, hphrases, List.filter_append]
  apply List.rel_append hbefore
  rw [List.filter_cons, ← houtlines.isSome]
  cases phrase with
  | none => exact .nil
  | some p =>
    have hstands := hextends.stands
    simp only [Option.toList_some, Phrase.testsOf, List.append_nil] at hstands
    exact .cons ⟨houtlines.linked p rfl, hstands⟩ .nil

/-- **So have any number of them.** -/
theorem Represents.applyAll {before conditions : List Condition} (h : Represents surface c before)
    (hof : Of surface before c) (happly : c.applyAll surface conditions = .ok c') :
    Represents surface c' (before ++ conditions) := by
  induction conditions generalizing c before with
  | nil =>
    obtain rfl := Except.ok.inj happly
    rwa [List.append_nil]
  | cons condition rest ih =>
    obtain ⟨next, hnext, hrest⟩ := applyAll_cons_ok happly
    have hall := ih (h.apply hof.named hnext) (hof.apply hnext) hrest
    rwa [List.append_assoc] at hall

/-- There is no clause exactly if no condition makes a test. -/
theorem Represents.phrases_eq_nil {conditions : List Condition} (h : Represents surface c conditions) :
    c.phrases = [] ↔ ∀ condition ∈ conditions, condition.tests = [] := by
  have hlength := h.length_eq
  rw [← List.length_eq_zero_iff, hlength, List.length_eq_zero_iff, List.filter_eq_nil_iff]
  simp only [Condition.makesTest_eq_true, not_not]

/-- The formulas of the clauses have the tests of the conditions. -/
theorem Represents.formulas {conditions : List Condition} (h : Represents surface c conditions) :
    List.Forall₂ (fun f condition => List.Forall₂ (Phrase.Test.StandsFor surface c.names c.values) f.tests
        (condition.tests.map Condition.Test.positive))
      (c.phrases.map Phrase.formula) (conditions.filter Condition.makesTest) := by
  rw [List.forall₂_map_left_iff]
  apply h.imp
  intro p condition ⟨hlinked, hstands⟩
  rw [Phrase.tests_formula hlinked, List.forall₂_map_left_iff, List.forall₂_map_right_iff]
  exact hstands.imp fun _ _ => Condition.standsFor_positive

/-! ### The conjunction -/

/-- **Clauses combine as a conjunction.** They have no text exactly if no condition makes a test. Else the
text reads in one way: its tests are those of the clauses, from left to right, and under all outcomes of
them it holds if every clause does, as the text of that clause reads on its own. -/
theorem reads_conjunction {conditions : List Condition} (hnames : ∀ name ∈ surface.names, IsName name)
    (h : empty.applyAll surface conditions = .ok c) :
    (c.expression? = none ↔ ∀ condition ∈ conditions, condition.tests = []) ∧
    ∀ text, c.expression? = some text → ∃ clauses : List Formula,
      List.Forall₂ Reads (c.phrases.map Phrase.text) clauses ∧
      List.Forall₂ (fun f condition => List.Forall₂ (Phrase.Test.StandsFor surface c.names c.values) f.tests
          (condition.tests.map Condition.Test.positive))
        clauses (conditions.filter Condition.makesTest) ∧
      ∃ f, Reads text f ∧ (∀ g, Reads text g → g = f) ∧ f.tests = Formula.testsOf clauses ∧
        ∀ outcome, f.value outcome 0 = (Formula.truths outcome 0 clauses).all id := by
  have hof : Of surface conditions c := (of_empty surface).applyAll h
  have hlinked : Phrase.AllLinked c.phrases := linked_applyAll h trivial
  have hrepresents : Represents surface c conditions := (represents_empty surface).applyAll (of_empty surface) h
  refine ⟨?_, fun text htext => ?_⟩
  · rw [expression?, Option.map_eq_none_iff, phrase?_eq_none, hrepresents.phrases_eq_nil]
  · obtain ⟨p, hp, rfl⟩ := Option.map_eq_some_iff.mp htext
    obtain ⟨hne, hformula⟩ := formula_phrase? hp
    have hclauses : c.phrases.map Phrase.formula ≠ [] := List.map_eq_nil_iff.not.mpr hne
    have hreads : Reads p.text (Formula.allOf (c.phrases.map Phrase.formula)) := by
      rw [← hformula]
      exact Phrase.reads (hof.spelled_phrase? hnames hlinked hp)
    refine ⟨c.phrases.map Phrase.formula, ?_, hrepresents.formulas, _, hreads,
      fun g hg => hg.unique hreads, Formula.tests_allOf hclauses, fun outcome => Formula.value_allOf outcome hclauses 0⟩
    have hspelled := Phrase.spelled_of_mem
      (Phrase.allSpelled_of_linked c.phrases hlinked (hof.spelled hnames))
    rw [List.forall₂_map_left_iff, List.forall₂_map_right_iff, List.forall₂_same]
    exact fun p hp => Phrase.reads (hspelled p hp)

/-- No test, then either of two tests, then one. -/
def several : List Condition :=
  [.all [], .any [.eq "a" (.string "x"), .eq "b" (.string "y")], .eq "c" (.string "z")]

theorem names_letters : ∀ name ∈ Condition.letters.names, IsName name := by
  have hnames : Condition.letters.names.all (fun name => decide (IsName name)) = true := by decide
  intro name hname
  exact of_decide_eq_true (List.all_eq_true.mp hnames name hname)

/-- The theorem at `several`: the OR stays in its parentheses. -/
theorem reads_several : ∃ c, empty.applyAll Condition.letters several = .ok c ∧
    c.expression? = some "(#a = :a1 OR #b = :b1) AND (#c = :c1)" ∧
    ∃ clauses : List Formula, List.Forall₂ Reads ["#a = :a1 OR #b = :b1", "#c = :c1"] clauses ∧
      ∃ f, Reads "(#a = :a1 OR #b = :b1) AND (#c = :c1)" f ∧ f.tests = Formula.testsOf clauses ∧
        ∀ outcome, f.value outcome 0 = (Formula.truths outcome 0 clauses).all id := by
  have hok : ∃ c, empty.applyAll Condition.letters several = .ok c ∧
      c.expression? = some "(#a = :a1 OR #b = :b1) AND (#c = :c1)" ∧
      c.phrases.map Phrase.text = ["#a = :a1 OR #b = :b1", "#c = :c1"] := ⟨_, rfl, rfl, rfl⟩
  obtain ⟨c, happlied, htext, htexts⟩ := hok
  obtain ⟨clauses, hclauses, -, f, hreads, -, htests, hvalue⟩ :=
    (reads_conjunction names_letters happlied).2 _ htext
  rw [htexts] at hclauses
  exact ⟨c, happlied, htext, clauses, hclauses, f, hreads, htests, hvalue⟩

end Clauses

end SingleTable
