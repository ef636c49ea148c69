import SingleTable.Proofs.Expression.Precedence

/-! The value of an expression by the outcomes of its tests.

A formula of rows holds if one of its rows holds throughout, so the formula that
a phrase reads as has the value that its text shows, once a negated test counts
as the opposite of its positive: `value_formula`. -/
namespace SingleTable

open Grammar

namespace Grammar.Formula

/-! ### Formulas of rows -/

def testsOf (row : List Formula) : List Phrase.Test := row.flatMap tests

/-- The truth values of a row whose first test is the one numbered `position`. -/
def truths (outcome : Nat → Bool) : Nat → List Formula → List Bool
  | _, [] => []
  | position, f :: rest => f.value outcome position :: truths outcome (position + f.tests.length) rest

def rowTruths (outcome : Nat → Bool) : Nat → List (List Formula) → List (List Bool)
  | _, [] => []
  | position, row :: rest =>
    truths outcome position row :: rowTruths outcome (position + (testsOf row).length) rest

theorem testsOf_append (xs ys : List Formula) : testsOf (xs ++ ys) = testsOf xs ++ testsOf ys :=
  List.flatMap_append

theorem truths_append (outcome : Nat → Bool) (position : Nat) (xs ys : List Formula) :
    truths outcome position (xs ++ ys) =
      truths outcome position xs ++ truths outcome (position + (testsOf xs).length) ys := by
  induction xs generalizing position with
  | nil => rfl
  | cons f rest ih =>
    have hlen : (testsOf (f :: rest)).length = f.tests.length + (testsOf rest).length := by
      rw [testsOf, List.flatMap_cons, List.length_append, ← testsOf]
    rw [List.cons_append, truths, ih, truths, hlen, Nat.add_assoc, List.cons_append]

theorem tests_allOf {row : List Formula} (hne : row ≠ []) : (allOf row).tests = testsOf row := by
  induction row with
  | nil => exact absurd rfl hne
  | cons f rest ih =>
    cases rest with
    | nil => simp [allOf, testsOf]
    | cons g rest =>
      show f.tests ++ (allOf (g :: rest)).tests = _
      rw [ih (List.cons_ne_nil _ _)]
      rfl

theorem tests_ofRows {rows : List (List Formula)} (h : Filled rows) :
    (ofRows rows).tests = testsOf rows.flatten := by
  obtain ⟨hne, hrow⟩ := h
  induction rows with
  | nil => exact absurd rfl hne
  | cons row rest ih =>
    have hfirst := tests_allOf (hrow row (List.mem_cons_self ..))
    rw [List.flatten_cons, testsOf_append]
    cases rest with
    | nil => rw [ofRows, List.map_singleton, anyOf, hfirst]; simp [testsOf]
    | cons next rest =>
      show (allOf row).tests ++ (ofRows (next :: rest)).tests = _
      rw [hfirst, ih (List.cons_ne_nil _ _) fun r hr => hrow r (List.mem_cons_of_mem _ hr)]

/-- A row holds if all of its formulas do. -/
theorem value_allOf (outcome : Nat → Bool) {row : List Formula} (hne : row ≠ []) (position : Nat) :
    (allOf row).value outcome position = (truths outcome position row).all id := by
  induction row generalizing position with
  | nil => exact absurd rfl hne
  | cons f rest ih =>
    cases rest with
    | nil => simp [allOf, truths]
    | cons g rest =>
      show (f.value outcome position && (allOf (g :: rest)).value outcome (position + f.tests.length)) = _
      rw [ih (List.cons_ne_nil _ _)]
      rfl

/-- Rows hold if one of them does. -/
theorem value_ofRows (outcome : Nat → Bool) {rows : List (List Formula)} (h : Filled rows) (position : Nat) :
    (ofRows rows).value outcome position = rowsHold (rowTruths outcome position rows) := by
  obtain ⟨hne, hrow⟩ := h
  induction rows generalizing position with
  | nil => exact absurd rfl hne
  | cons row rest ih =>
    have hrowne := hrow row (List.mem_cons_self ..)
    have hfirst := value_allOf outcome hrowne position
    rw [rowTruths, rowsHold, List.any_cons, ← hfirst]
    cases rest with
    | nil => simp [ofRows, anyOf, rowTruths]
    | cons next rest =>
      show ((allOf row).value outcome position ||
        (ofRows (next :: rest)).value outcome (position + (allOf row).tests.length)) = _
      rw [ih _ (List.cons_ne_nil _ _) fun r hr => hrow r (List.mem_cons_of_mem _ hr), tests_allOf hrowne]
      rfl

/-- Linked rows of formulas have linked rows of truth values. -/
theorem rowTruths_link (outcome : Nat → Bool) (connective : Connective) (position : Nat)
    (xs ys : List (List Formula)) :
    rowTruths outcome position (connective.link xs ys) =
      connective.link (rowTruths outcome position xs)
        (rowTruths outcome (position + (testsOf xs.flatten).length) ys) := by
  have hcons (row : List Formula) (rows : List (List Formula)) :
      (testsOf (row :: rows).flatten).length = (testsOf row).length + (testsOf rows.flatten).length := by
    rw [List.flatten_cons, testsOf_append, List.length_append]
  induction xs generalizing position with
  | nil => cases connective <;> rfl
  | cons row rows ih =>
    cases connective with
    | or =>
      show _ :: rowTruths outcome (position + (testsOf row).length) (rows ++ ys) = _
      rw [hcons, ← Nat.add_assoc]
      exact congrArg _ (ih _)
    | and =>
      cases rows with
      | nil =>
        cases ys with
        | nil => rfl
        | cons first rest =>
          simp [Connective.link, meet, rowTruths, truths_append, testsOf_append, Nat.add_assoc]
      | cons next rows =>
        show _ :: rowTruths outcome (position + (testsOf row).length) (meet (next :: rows) ys) = _
        rw [hcons, ← Nat.add_assoc]
        exact congrArg _ (ih _)

end Grammar.Formula

/-! ### Phrases -/

namespace Phrase

open Grammar

mutual
theorem filled_rows : (p : Phrase) → p.Linked → Filled p.rows
  | .test _ _ _, _ => .single _
  | .parens _, _ => .single _
  | .chain connective parts, h => filled_rowsOf connective parts h.1 h.2

theorem filled_rowsOf (connective : Connective) :
    (parts : List Phrase) → parts ≠ [] → AllLinked parts → Filled (rowsOf connective parts)
  | [], hne, _ => absurd rfl hne
  | [part], _, h => by
    rw [rowsOf, rowsOf, Connective.link_nil]
    exact filled_rows part h.1
  | part :: next :: rest, _, h =>
    .link connective (filled_rows part h.1)
      (filled_rowsOf connective (next :: rest) (List.cons_ne_nil _ _) h.2)
end

theorem Test.tests_formula (t : Phrase.Test) : t.formula.tests = [t.positive] := by
  unfold Test.formula
  split <;> rfl

mutual
theorem testsOf_rows : (p : Phrase) → p.Linked →
    Formula.testsOf p.rows.flatten = p.tests.map Test.positive
  | .test operator name values, _ => by
    simp [rows, Formula.testsOf, Test.tests_formula, tests]
  | .parens inner, h => by
    rw [rows, tests, ← testsOf_rows inner h, ← Formula.tests_ofRows (filled_rows inner h)]
    simp [Formula.testsOf]
  | .chain connective parts, h => testsOf_rowsOf connective parts h.2

theorem testsOf_rowsOf (connective : Connective) : (parts : List Phrase) → AllLinked parts →
    Formula.testsOf (rowsOf connective parts).flatten = (testsOf parts).map Test.positive
  | [], _ => rfl
  | part :: rest, h => by
    rw [rowsOf, Connective.flatten_link, Formula.testsOf_append, testsOf_rows part h.1,
      testsOf_rowsOf connective rest h.2, testsOf, List.map_append]
end

/-- The tests of the formula are those of the phrase, each by its positive. -/
theorem tests_formula {p : Phrase} (h : p.Linked) : p.formula.tests = p.tests.map Test.positive := by
  rw [formula, Formula.tests_ofRows (filled_rows p h), testsOf_rows p h]

/-- The outcomes that let the tests come out as `holds` says: those of negated tests are the opposite. -/
def Outcomes (holds outcome : Nat → Bool) (position : Nat) (tests : List Phrase.Test) : Prop :=
  ∀ n t, tests[n]? = some t → outcome (position + n) = (t.operator.negated ^^ holds (position + n))

theorem Outcomes.left {holds outcome : Nat → Bool} {position : Nat} {xs ys : List Phrase.Test}
    (h : Outcomes holds outcome position (xs ++ ys)) : Outcomes holds outcome position xs := by
  intro n t ht
  have hlt : n < xs.length := (List.getElem?_eq_some_iff.mp ht).1
  exact h n t (by rwa [List.getElem?_append_left hlt])

theorem Outcomes.right {holds outcome : Nat → Bool} {position : Nat} {xs ys : List Phrase.Test}
    (h : Outcomes holds outcome position (xs ++ ys)) :
    Outcomes holds outcome (position + xs.length) ys := by
  intro n t ht
  rw [Nat.add_assoc]
  exact h (xs.length + n) t (by rwa [List.getElem?_append_right (by omega), Nat.add_sub_cancel_left])

theorem Test.value_formula {holds outcome : Nat → Bool} {position : Nat} {t : Phrase.Test}
    (h : outcome position = (t.operator.negated ^^ holds position)) :
    t.formula.value outcome position = holds position := by
  unfold Test.formula
  split
  · next hneg => simp [Formula.value, h, hneg]
  · next hneg => simp [Formula.value, h, Bool.eq_false_iff.mpr hneg]

mutual
theorem rowTruths_rows {holds outcome : Nat → Bool} : (p : Phrase) → (position : Nat) → p.Linked →
    Outcomes holds outcome position p.tests →
      Formula.rowTruths outcome position p.rows = shown holds position p
  | .test operator name values, position, _, h => by
    have hvalue : (Test.formula ⟨operator, name, values⟩).value outcome position = holds position :=
      Test.value_formula (h 0 _ rfl)
    simp only [rows, Formula.rowTruths, Formula.truths, shown, hvalue]
  | .parens inner, position, hlinked, h => by
    simp only [rows, Formula.rowTruths, Formula.truths, shown]
    rw [Formula.value_ofRows outcome (filled_rows inner hlinked), rowTruths_rows inner position hlinked h]
  | .chain connective parts, position, hlinked, h =>
    rowTruths_rowsOf connective parts position hlinked.2 h

theorem rowTruths_rowsOf {holds outcome : Nat → Bool} (connective : Connective) :
    (parts : List Phrase) → (position : Nat) → AllLinked parts →
    Outcomes holds outcome position (testsOf parts) →
      Formula.rowTruths outcome position (rowsOf connective parts) =
        shownOf holds connective position parts
  | [], _, _, _ => rfl
  | part :: rest, position, hlinked, h => by
    have hlen : (Formula.testsOf part.rows.flatten).length = part.tests.length := by
      rw [testsOf_rows part hlinked.1, List.length_map]
    rw [rowsOf, shownOf, Formula.rowTruths_link, hlen, rowTruths_rows part position hlinked.1 h.left,
      rowTruths_rowsOf connective rest _ hlinked.2 h.right]
end

/-- **The formula of a phrase has the value that its text shows.** -/
theorem value_formula {p : Phrase} (hlinked : p.Linked) {holds outcome : Nat → Bool} {position : Nat}
    (h : Outcomes holds outcome position p.tests) :
    p.formula.value outcome position = rowsHold (shown holds position p) := by
  rw [formula, Formula.value_ofRows outcome (filled_rows p hlinked), rowTruths_rows p position hlinked h]

end Phrase

end SingleTable
