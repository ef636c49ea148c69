import SingleTable.Proofs.Condition.Tests
import SingleTable.Proofs.Expression.Token

/-! How the store reads an expression.

A disjunction is conjunctions with OR between them, a conjunction is factors with
AND between them, and a factor is a test, a negated factor or a disjunction in
parentheses: NOT binds tighter than AND, and AND tighter than OR. A test of a
range has an AND of its own. `Reads.unique`: a text is read in one way only. -/
namespace SingleTable.Grammar

/-! ### Formulas -/

/-- What an expression says, by the outcomes of its tests. -/
inductive Formula where
  | test (test : Phrase.Test)
  | not (inner : Formula)
  | and (left right : Formula)
  | or (left right : Formula)
deriving DecidableEq

namespace Formula

/-- The tests from left to right. -/
def tests : Formula → List Phrase.Test
  | .test t => [t]
  | .not inner => inner.tests
  | .and left right | .or left right => left.tests ++ right.tests

/-- The value of a formula whose first test is the one numbered `position`, when
`outcome` gives the outcome of every test by its number. -/
def value (outcome : Nat → Bool) : Nat → Formula → Bool
  | position, .test _ => outcome position
  | position, .not inner => !inner.value outcome position
  | position, .and left right =>
    left.value outcome position && right.value outcome (position + left.tests.length)
  | position, .or left right =>
    left.value outcome position || right.value outcome (position + left.tests.length)

end Formula

/-! ### The grammar -/

/-- The forms of a test. -/
inductive Atom : List Token → Phrase.Test → Prop where
  | comparison (operator : Operator) (name value : String) :
      Atom [.name name, .comparator operator, .value value] ⟨operator, name, [value]⟩
  | between (name low high : String) :
      Atom [.name name, .between, .value low, .and, .value high] ⟨.between, name, [low, high]⟩
  | presence (operator : Operator) (name : String) (harity : operator.arity = 0) :
      Atom [.function operator, .opening, .name name, .closing] ⟨operator, name, []⟩
  | function (operator : Operator) (name value : String) (harity : operator.arity = 1) :
      Atom [.function operator, .opening, .name name, .comma, .value value, .closing]
        ⟨operator, name, [value]⟩

inductive Level where
  | disjunction
  | conjunction
  | factor
deriving DecidableEq

inductive Parse : Level → List Token → Formula → Prop where
  | conjunction {ts f} : Parse .conjunction ts f → Parse .disjunction ts f
  | or {ts us f g} : Parse .conjunction ts f → Parse .disjunction us g →
      Parse .disjunction (ts ++ .or :: us) (.or f g)
  | factor {ts f} : Parse .factor ts f → Parse .conjunction ts f
  | and {ts us f g} : Parse .factor ts f → Parse .conjunction us g →
      Parse .conjunction (ts ++ .and :: us) (.and f g)
  | test {ts t} : Atom ts t → Parse .factor ts (.test t)
  | not {ts f} : Parse .factor ts f → Parse .factor (.not :: ts) (.not f)
  | parens {ts f} : Parse .disjunction ts f → Parse .factor (.opening :: (ts ++ [.closing])) f

/-- A text reads as a formula. -/
def Reads (text : String) (f : Formula) : Prop := Parse .disjunction (tokens text.toList) f

/-! ### One reading

Two readings may each leave a rest, as long as no rest goes on with a connective
of the level that is read. -/

/-- Whether nothing that follows can extend what is read. -/
def Level.Stops : Level → List Token → Prop
  | .disjunction, rest => rest.head? ≠ some .and ∧ rest.head? ≠ some .or
  | .conjunction, rest => rest.head? ≠ some .and
  | .factor, _ => True

/-- A test is told by its tokens, and no test begins another. -/
theorem Atom.unique {ts us r s : List Token} {t u : Phrase.Test} (h : Atom ts t) (h' : Atom us u)
    (heq : ts ++ r = us ++ s) : ts = us ∧ t = u := by
  cases h <;> cases h' <;> simp_all

theorem Atom.head {ts : List Token} {t : Phrase.Test} (h : Atom ts t) :
    ∃ first rest, ts = first :: rest ∧ first ≠ .not ∧ first ≠ .opening := by
  cases h <;> exact ⟨_, _, rfl, by simp, by simp⟩

/-- Readings that both go on with a connective are alike before it, and what follows it is the same. -/
theorem alike_before {ts us vs ws r s : List Token} {f g : Formula} {connective : Token}
    (hsame : ts ++ connective :: (vs ++ r) = us ++ connective :: (ws ++ s) → ts = us ∧ f = g)
    (heq : (ts ++ connective :: vs) ++ r = (us ++ connective :: ws) ++ s) :
    ts = us ∧ f = g ∧ vs ++ r = ws ++ s := by
  rw [List.append_assoc, List.append_assoc] at heq
  obtain ⟨rfl, rfl⟩ := hsame heq
  exact ⟨rfl, rfl, (List.cons.inj (List.append_cancel_left heq)).2⟩

/-- Where one reading ends and the other goes on with a connective, the rest begins with it. -/
theorem head?_rest {ts us ws r s : List Token} {connective : Token}
    (hsame : ts ++ r = us ++ connective :: (ws ++ s) → ts = us)
    (heq : ts ++ r = (us ++ connective :: ws) ++ s) : r.head? = some connective := by
  rw [List.append_assoc] at heq
  obtain rfl := hsame heq
  rw [List.append_cancel_left heq]
  rfl

theorem Parse.unique {level : Level} {ts us r s : List Token} {f g : Formula} (h : Parse level ts f)
    (h' : Parse level us g) (heq : ts ++ r = us ++ s) (hr : level.Stops r) (hs : level.Stops s) :
    ts = us ∧ f = g := by
  induction h generalizing us r s g with
  | conjunction h₁ ih =>
    cases h' with
    | conjunction h₁' => exact ih h₁' heq hr.1 hs.1
    | or h₁' h₂' =>
      have hor := head?_rest (fun heq => (ih h₁' heq hr.1 (by simp [Level.Stops])).1) heq
      exact absurd hor hr.2
  | or h₁ h₂ ih₁ ih₂ =>
    cases h' with
    | conjunction h₁' =>
      have hor := head?_rest (fun heq => (ih₁ h₁' heq.symm (by simp [Level.Stops]) hs.1).1.symm) heq.symm
      exact absurd hor hs.2
    | or h₁' h₂' =>
      obtain ⟨rfl, rfl, hrest⟩ :=
        alike_before (fun heq => ih₁ h₁' heq (by simp [Level.Stops]) (by simp [Level.Stops])) heq
      obtain ⟨rfl, rfl⟩ := ih₂ h₂' hrest hr hs
      exact ⟨rfl, rfl⟩
  | factor h₁ ih =>
    cases h' with
    | factor h₁' => exact ih h₁' heq trivial trivial
    | and h₁' h₂' =>
      have hand := head?_rest (fun heq => (ih h₁' heq trivial trivial).1) heq
      exact absurd hand hr
  | and h₁ h₂ ih₁ ih₂ =>
    cases h' with
    | factor h₁' =>
      have hand := head?_rest (fun heq => (ih₁ h₁' heq.symm trivial trivial).1.symm) heq.symm
      exact absurd hand hs
    | and h₁' h₂' =>
      obtain ⟨rfl, rfl, hrest⟩ := alike_before (fun heq => ih₁ h₁' heq trivial trivial) heq
      obtain ⟨rfl, rfl⟩ := ih₂ h₂' hrest hr hs
      exact ⟨rfl, rfl⟩
  | test h₁ =>
    obtain ⟨first, rest, rfl, hnot, hopening⟩ := h₁.head
    cases h' with
    | test h₁' =>
      obtain ⟨hts, rfl⟩ := h₁.unique h₁' heq
      exact ⟨hts, rfl⟩
    | not h₁' => exact absurd (List.cons.inj heq).1 hnot
    | parens h₁' => exact absurd (List.cons.inj heq).1 hopening
  | not h₁ ih =>
    cases h' with
    | test h₁' =>
      obtain ⟨first, rest, rfl, hnot, -⟩ := h₁'.head
      exact absurd (List.cons.inj heq).1.symm hnot
    | not h₁' =>
      obtain ⟨rfl, rfl⟩ := ih h₁' (List.cons.inj heq).2 trivial trivial
      exact ⟨rfl, rfl⟩
    | parens h₁' => exact absurd (List.cons.inj heq).1 (by simp)
  | parens h₁ ih =>
    cases h' with
    | test h₁' =>
      obtain ⟨first, rest, rfl, -, hopening⟩ := h₁'.head
      exact absurd (List.cons.inj heq).1.symm hopening
    | not h₁' => exact absurd (List.cons.inj heq).1 (by simp)
    | parens h₁' =>
      rw [List.cons_append, List.cons_append, List.append_assoc, List.append_assoc] at heq
      obtain ⟨rfl, rfl⟩ := ih h₁' (List.cons.inj heq).2 (by simp [Level.Stops]) (by simp [Level.Stops])
      exact ⟨rfl, rfl⟩

/-- **A text is read in one way.** -/
theorem Reads.unique {text : String} {f g : Formula} (h : Reads text f) (h' : Reads text g) : f = g :=
  (Parse.unique h h' (r := []) (s := []) rfl (by simp [Level.Stops]) (by simp [Level.Stops])).2

end SingleTable.Grammar
