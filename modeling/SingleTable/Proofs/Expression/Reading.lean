import SingleTable.Proofs.Expression.Spelling

/-! What the text of a phrase reads as.

The parentheses of a text keep together what is between them; outside of them the
text is rows of factors, OR between rows and AND between the factors of one. A
connective links the rows of its parts end to end: with OR they stand one after
another, with AND the last row before it and the first after it become one
(`meet`). `Phrase.reads` says that a spelled phrase reads as the formula of its
rows, and `value_formula` gives that formula's value by rows of truth values. -/
namespace SingleTable

open Grammar

/-! ### Rows -/

variable {α β : Type}

/-- AND between rows: its two neighbours become one row. -/
def meet : List (List α) → List (List α) → List (List α)
  | [], ys => ys
  | [row], [] => [row]
  | [row], first :: rest => (row ++ first) :: rest
  | row :: next :: rows, ys => row :: meet (next :: rows) ys

theorem meet_nil (xs : List (List α)) : meet xs [] = xs := by
  induction xs with
  | nil => rfl
  | cons row rows ih =>
    cases rows with
    | nil => rfl
    | cons next rows => rw [meet, ih]

theorem flatten_meet (xs ys : List (List α)) : (meet xs ys).flatten = xs.flatten ++ ys.flatten := by
  induction xs with
  | nil => rfl
  | cons row rows ih =>
    cases rows with
    | nil => cases ys <;> simp [meet]
    | cons next rows =>
      rw [meet, List.flatten_cons, ih]
      simp only [List.flatten_cons, List.append_assoc]

/-- The rows of two neighbours with a connective between them. -/
def Connective.link : Connective → List (List α) → List (List α) → List (List α)
  | .and, xs, ys => meet xs ys
  | .or, xs, ys => xs ++ ys

theorem Connective.link_nil (connective : Connective) (xs : List (List α)) : connective.link xs [] = xs := by
  cases connective with
  | and => exact meet_nil xs
  | or => exact List.append_nil xs

theorem Connective.flatten_link (connective : Connective) (xs ys : List (List α)) :
    (connective.link xs ys).flatten = xs.flatten ++ ys.flatten := by
  cases connective with
  | and => exact flatten_meet xs ys
  | or => exact List.flatten_append

/-- Rows of which none is empty; there is at least one. -/
structure Filled (rows : List (List α)) : Prop where
  ne_nil : rows ≠ []
  row : ∀ row ∈ rows, row ≠ []

theorem Filled.single (a : α) : Filled [[a]] := ⟨by simp, by simp⟩

theorem Filled.append {xs ys : List (List α)} (hx : Filled xs) (hy : Filled ys) : Filled (xs ++ ys) := by
  refine ⟨by simp [hx.ne_nil], fun row hrow => ?_⟩
  rcases List.mem_append.mp hrow with hrow | hrow
  · exact hx.row row hrow
  · exact hy.row row hrow

theorem Filled.meet {xs ys : List (List α)} (hx : Filled xs) (hy : Filled ys) : Filled (meet xs ys) := by
  induction xs with
  | nil => exact hy
  | cons row rows ih =>
    have hrow := hx.row row (List.mem_cons_self ..)
    refine ⟨by cases rows <;> cases ys <;> simp [SingleTable.meet], fun other hother => ?_⟩
    cases rows with
    | nil =>
      obtain ⟨first, rest, rfl⟩ := List.exists_cons_of_ne_nil hy.ne_nil
      rcases List.mem_cons.mp hother with rfl | hother
      · simp [hrow]
      · exact hy.row other (List.mem_cons_of_mem _ hother)
    | cons next rows =>
      rcases List.mem_cons.mp hother with rfl | hother
      · exact hrow
      · exact (ih ⟨List.cons_ne_nil _ _, fun r hr => hx.row r (List.mem_cons_of_mem _ hr)⟩).row other hother

theorem Filled.link {xs ys : List (List α)} (connective : Connective) (hx : Filled xs) (hy : Filled ys) :
    Filled (connective.link xs ys) := by
  cases connective with
  | and => exact hx.meet hy
  | or => exact hx.append hy

/-! ### Formulas of rows -/

namespace Grammar

instance : Inhabited Formula := ⟨.test ⟨.exists, "", []⟩⟩

/-- One row: all of its factors. -/
def Formula.allOf : List Formula → Formula
  | [] => default
  | [factor] => factor
  | factor :: rest => .and factor (allOf rest)

/-- Any of some formulas. -/
def Formula.anyOf : List Formula → Formula
  | [] => default
  | [row] => row
  | row :: rest => .or row (anyOf rest)

def Formula.ofRows (rows : List (List Formula)) : Formula := anyOf (rows.map allOf)

/-- The tokens of one row. -/
inductive RowTokens : List Token → List Formula → Prop where
  | one {ts f} : Parse .factor ts f → RowTokens ts [f]
  | more {ts us f row} : Parse .factor ts f → RowTokens us row → RowTokens (ts ++ .and :: us) (f :: row)

/-- The tokens of rows. -/
inductive RowsTokens : List Token → List (List Formula) → Prop where
  | one {ts row} : RowTokens ts row → RowsTokens ts [row]
  | more {ts us row rows} : RowTokens ts row → RowsTokens us rows →
      RowsTokens (ts ++ .or :: us) (row :: rows)

theorem RowTokens.append {ts us : List Token} {xs ys : List Formula} (h : RowTokens ts xs)
    (h' : RowTokens us ys) : RowTokens (ts ++ .and :: us) (xs ++ ys) := by
  induction h with
  | one hf => exact .more hf h'
  | more hf _ ih =>
    rw [List.append_assoc]
    exact .more hf ih

/-- Linked rows are spelled by their tokens with the connective between them. -/
theorem RowsTokens.link {ts us : List Token} {xs ys : List (List Formula)} (connective : Connective)
    (h : RowsTokens ts xs) (h' : RowsTokens us ys) :
    RowsTokens (ts ++ connective.token :: us) (connective.link xs ys) := by
  cases connective with
  | or =>
    induction h with
    | one hrow => exact .more hrow h'
    | more hrow _ ih =>
      rw [List.append_assoc]
      exact .more hrow ih
  | and =>
    induction h with
    | one hrow =>
      cases h' with
      | one hrow' => exact .one (hrow.append hrow')
      | more hrow' hrows' =>
        have hmore := RowsTokens.more (hrow.append hrow') hrows'
        rwa [List.append_assoc] at hmore
    | @more _ _ row rows hrow hrows ih =>
      obtain ⟨next, rest, rfl⟩ : ∃ next rest, rows = next :: rest := by
        cases hrows <;> exact ⟨_, _, rfl⟩
      rw [List.append_assoc]
      exact .more hrow ih

theorem RowTokens.parse {ts : List Token} {row : List Formula} (h : RowTokens ts row) :
    Parse .conjunction ts (Formula.allOf row) := by
  induction h with
  | one hf => exact .factor hf
  | more hf hrow ih =>
    cases hrow <;> exact .and hf ih

theorem RowsTokens.parse {ts : List Token} {rows : List (List Formula)} (h : RowsTokens ts rows) :
    Parse .disjunction ts (Formula.ofRows rows) := by
  induction h with
  | one hrow => exact .conjunction hrow.parse
  | more hrow hrows ih =>
    cases hrows <;> exact .or hrow.parse ih

end Grammar

/-! ### Rows of a phrase -/

/-- A negated test reads as the negation of its positive. -/
def Phrase.Test.formula (t : Phrase.Test) : Formula :=
  if t.operator.negated then .not (.test t.positive) else .test t.positive

theorem Phrase.Test.parse {t : Phrase.Test} (h : t.Spelled) : Parse .factor t.tokens t.formula := by
  obtain ⟨operator, name, values⟩ := t
  have harity : values.length = operator.arity := h.arity
  match values, harity with
  | [], harity =>
    cases operator <;> first | exact .test (.presence _ _ rfl) | exact absurd harity (by simp [Operator.arity])
  | [value], harity =>
    cases operator <;>
      first
      | exact .test (.comparison _ _ _)
      | exact .test (.function _ _ _ rfl)
      | exact .not (.test (.function _ _ _ rfl))
      | exact absurd harity (by simp [Operator.arity])
  | [low, high], harity =>
    cases operator <;>
      first
      | exact .parens (.conjunction (.factor (.test (.between _ _ _))))
      | exact absurd harity (by simp [Operator.arity])
  | _ :: _ :: _ :: _, harity => cases operator <;> exact nomatch harity

namespace Phrase

mutual
def rows : Phrase → List (List Formula)
  | .test operator name values => [[Test.formula ⟨operator, name, values⟩]]
  | .parens inner => [[Formula.ofRows (rows inner)]]
  | .chain connective parts => rowsOf connective parts

def rowsOf (connective : Connective) : List Phrase → List (List Formula)
  | [] => []
  | part :: rest => connective.link (rows part) (rowsOf connective rest)
end

/-- The formula that the text of a phrase reads as. -/
def formula (p : Phrase) : Formula := Formula.ofRows p.rows

mutual
theorem rowsTokens : (p : Phrase) → p.Spelled → RowsTokens p.tokens p.rows
  | .test _ _ _, h => .one (.one (Test.parse h))
  | .parens inner, h => .one (.one (.parens (rowsTokens inner h).parse))
  | .chain connective parts, h => rowsTokensOf connective parts h.1 h.2

theorem rowsTokensOf (connective : Connective) : (parts : List Phrase) → parts ≠ [] → AllSpelled parts →
    RowsTokens (tokensOf connective parts) (rowsOf connective parts)
  | [], hne, _ => absurd rfl hne
  | [part], _, h => by
    rw [tokensOf, rowsOf, rowsOf, Connective.link_nil]
    exact rowsTokens part h.1
  | part :: next :: rest, _, h => by
    rw [tokensOf, rowsOf]
    · exact .link connective (rowsTokens part h.1)
        (rowsTokensOf connective (next :: rest) (List.cons_ne_nil _ _) h.2)
    · exact List.cons_ne_nil _ _
end

/-- **The text of a spelled phrase reads as the formula of its rows.** -/
theorem reads {p : Phrase} (h : p.Spelled) : Reads p.text p.formula := by
  rw [Reads, tokens_text p h]
  exact (rowsTokens p h).parse

end Phrase

end SingleTable
