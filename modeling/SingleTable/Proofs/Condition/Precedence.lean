import SingleTable.Proofs.Condition.Compile
import SingleTable.Proofs.Expression.Outcome

/-! Whether the text of a condition means what the condition says.

The store reads AND before OR. A part is put in parentheses by its own connective
and the number of its parts alone, so a disjunction that is the only part of a
part loses its parentheses. The text has the value of the condition under all
outcomes exactly if no conjunction has such a part beside another one. -/
namespace SingleTable

open Grammar

/-! ### The value of a condition -/

/-- The value of some parts; none if there are none. -/
def Connective.value? (connective : Connective) : List Bool → Option Bool
  | [] => none
  | values => some (connective.value values)

namespace Condition

mutual
/-- The value of a condition whose first test is the one numbered `position`, when
`holds` decides each test. Parts that make no test are left out. -/
def value? (holds : Nat → Bool) : Nat → Condition → Option Bool
  | position, .test _ _ _ => some (holds position)
  | position, .group inner => value? holds position inner
  | position, .join connective parts => connective.value? (valuesOf holds position parts)

def valuesOf (holds : Nat → Bool) : Nat → List Condition → List Bool
  | _, [] => []
  | position, part :: rest =>
    (value? holds position part).toList ++ valuesOf holds (position + part.tests.length) rest
end

/-! ### Parentheses that are missing -/

def makesTest (c : Condition) : Bool := !c.tests.isEmpty

mutual
/-- Whether the text of a condition has an OR outside of parentheses. -/
def showsOr : Condition → Bool
  | .test _ _ _ | .group _ => false
  | .join connective parts =>
    (connective == .or && 1 < parts.countP makesTest) || anyShowsOr connective parts

def anyShowsOr (outer : Connective) : List Condition → Bool
  | [] => false
  | part :: rest => (part.showsOr && !part.needsParens outer) || anyShowsOr outer rest
end

mutual
/-- Whether no conjunction of several parts has one whose text shows an OR. -/
def guarded : Condition → Bool
  | .test _ _ _ => true
  | .group inner => inner.guarded
  | .join connective parts =>
    !(connective == .and && 1 < parts.countP makesTest && anyShowsOr connective parts) &&
      allGuarded parts

def allGuarded : List Condition → Bool
  | [] => true
  | part :: rest => part.guarded && allGuarded rest
end

end Condition

/-! ### The phrase of a condition -/

namespace Phrase

theorem tests_ne_nil : (p : Phrase) → p.Linked → p.tests ≠ []
  | .test _ _ _, _ => List.cons_ne_nil _ _
  | .parens inner, h => tests_ne_nil inner h
  | .chain _ [], h => absurd rfl h.1
  | .chain _ (part :: _), h => fun hnil => tests_ne_nil part h.2.1 (List.append_eq_nil_iff.mp hnil).1

end Phrase

namespace Condition

/-- What the phrase of a condition has of its tree; no phrase stands for no test. -/
structure Outlines (c : Condition) (phrase : Option Phrase) : Prop where
  linked : ∀ p, phrase = some p → p.Linked
  count : (Phrase.testsOf phrase.toList).length = c.tests.length
  value : ∀ holds position, phrase.map (Phrase.value holds position) = c.value? holds position
  isOpen : phrase.any Phrase.isOpen = c.showsOr
  guarded : phrase.all Phrase.guarded = c.guarded

/-- What the phrases of some parts have of their trees. -/
structure OutlinesAll (connective : Connective) (parts : List Condition) (phrases : List Phrase) : Prop where
  linked : Phrase.AllLinked phrases
  count : (Phrase.testsOf phrases).length = (testsOf parts).length
  length : phrases.length = parts.countP makesTest
  values : ∀ holds position, Phrase.valuesOf holds position phrases = valuesOf holds position parts
  anyOpen : Phrase.anyOpen phrases = anyShowsOr connective parts
  allGuarded : Phrase.allGuarded phrases = allGuarded parts

variable {surface : Surface}

/-- Exactly the conditions that make a test have a phrase. -/
theorem Outlines.isSome {c : Condition} {phrase : Option Phrase} (h : c.Outlines phrase) :
    phrase.isSome = c.makesTest := by
  have hcount := h.count
  cases phrase with
  | none =>
    have hnil : c.tests = [] := List.length_eq_zero_iff.mp hcount.symm
    simp [makesTest, hnil]
  | some p =>
    have hne : p.tests ≠ [] := p.tests_ne_nil (h.linked p rfl)
    have hpos : 0 < c.tests.length := by
      rw [← hcount]
      simpa [Phrase.testsOf] using List.length_pos_iff.mpr hne
    simp [makesTest, List.ne_nil_of_length_pos hpos]

theorem linked_place (connective : Connective) (part : Condition) {p : Phrase} (h : p.Linked) :
    (place connective part p).Linked := by
  unfold place
  split <;> exact h

theorem value_place (connective : Connective) (part : Condition) (p : Phrase) (holds : Nat → Bool)
    (position : Nat) : (place connective part p).value holds position = p.value holds position := by
  unfold place
  split <;> rfl

theorem guarded_place (connective : Connective) (part : Condition) (p : Phrase) :
    (place connective part p).guarded = p.guarded := by
  unfold place
  split <;> rfl

theorem isOpen_place (connective : Connective) (part : Condition) (p : Phrase) :
    (place connective part p).isOpen = (p.isOpen && !part.needsParens connective) := by
  unfold place
  cases part.needsParens connective <;> simp [Phrase.isOpen]

/-- The parentheses of a place change nothing but whether an OR is outside of them. -/
theorem Outlines.place {c : Condition} {phrase : Option Phrase} (h : c.Outlines phrase)
    (connective : Connective) {rest : List Condition} {others : List Phrase}
    (hrest : OutlinesAll connective rest others) :
    OutlinesAll connective (c :: rest) ((phrase.map (place connective c)).toList ++ others) := by
  have hsome := h.isSome
  obtain ⟨hlinked, hcount, hvalue, hopen, hguarded⟩ := h
  cases phrase with
  | none =>
    simp only [Phrase.testsOf, Option.toList_none, List.length_nil] at hcount
    simp only [Option.map_none, Option.toList_none, List.nil_append]
    refine ⟨hrest.linked, ?_, ?_, fun holds position => ?_, ?_, ?_⟩
    · rw [testsOf, List.length_append, ← hcount, hrest.count, Nat.zero_add]
    · rw [List.countP_cons, ← hsome, hrest.length]
      rfl
    · rw [valuesOf, ← hvalue, ← hcount, hrest.values]
      rfl
    · rw [anyShowsOr, ← hopen, hrest.anyOpen]
      rfl
    · rw [Condition.allGuarded, ← hguarded, hrest.allGuarded]
      rfl
  | some p =>
    simp only [Phrase.testsOf, Option.toList_some, List.append_nil] at hcount
    simp only [Option.map_some, Option.toList_some, List.singleton_append]
    have htests := tests_place connective c p
    refine ⟨⟨linked_place connective c (hlinked p rfl), hrest.linked⟩, ?_, ?_, fun holds position => ?_, ?_, ?_⟩
    · rw [Phrase.testsOf, testsOf, List.length_append, List.length_append, htests, hcount, hrest.count]
    · rw [List.countP_cons, ← hsome, List.length_cons, hrest.length]
      rfl
    · rw [Phrase.valuesOf, valuesOf, ← hvalue, htests, value_place, hcount, hrest.values]
      rfl
    · rw [Phrase.anyOpen, anyShowsOr, ← hopen, isOpen_place, hrest.anyOpen]
      rfl
    · rw [Phrase.allGuarded, Condition.allGuarded, ← hguarded, guarded_place, hrest.allGuarded]
      rfl

mutual
theorem compile_outlines : (c : Condition) → (b b' : Bindings) → (phrase : Option Phrase) →
    compile surface c b = .ok (phrase, b') → c.Outlines phrase
  | .test name operator operands, b, b', phrase, h => by
    obtain ⟨field, placeholders, -, -, -, rfl⟩ := compile_test_ok h
    exact ⟨fun p hp => Option.some.inj hp ▸ trivial, rfl, fun _ _ => rfl, rfl, rfl⟩
  | .group inner, b, b', phrase, h => by
    obtain ⟨p, hinner, rfl⟩ := compile_group_ok h
    obtain ⟨hlinked, hcount, hvalue, hopen, hguarded⟩ := compile_outlines inner b b' p hinner
    cases p with
    | none => exact ⟨hlinked, hcount, hvalue, rfl, hguarded⟩
    | some p =>
      refine ⟨fun q hq => ?_, hcount, hvalue, rfl, hguarded⟩
      obtain rfl := Option.some.inj hq
      exact hlinked p rfl
  | .join connective parts, b, b', phrase, h => by
    obtain ⟨phrases, hparts, rfl⟩ := compile_join_ok h
    obtain ⟨hlinked, hcount, hlength, hvalues, hopen, hguarded⟩ :=
      compileParts_outlines connective parts b b' phrases hparts
    cases phrases with
    | nil =>
      refine ⟨fun p hp => absurd hp (by simp [Phrase.chain?]), hcount, fun holds position => ?_, ?_, ?_⟩
      · rw [value?, ← hvalues]
        rfl
      · rw [showsOr, ← hlength, ← hopen]
        simp [Phrase.chain?, Phrase.anyOpen]
      · rw [guarded, ← hlength, ← hopen, ← hguarded]
        simp [Phrase.chain?, Phrase.anyOpen, Phrase.allGuarded]
    | cons p rest =>
      refine ⟨fun q hq => ?_, ?_, fun holds position => ?_, ?_, ?_⟩
      · obtain rfl := Option.some.inj hq
        exact ⟨List.cons_ne_nil _ _, hlinked⟩
      · rw [tests, ← hcount]
        simp [Phrase.chain?, Phrase.testsOf, Phrase.tests]
      · rw [value?, ← hvalues]
        rfl
      · rw [showsOr, ← hlength, ← hopen]
        rfl
      · rw [guarded, ← hlength, ← hopen, ← hguarded]
        rfl

theorem compileParts_outlines (connective : Connective) : (parts : List Condition) → (b b' : Bindings) →
    (phrases : List Phrase) → compileParts surface connective parts b = .ok (phrases, b') →
      OutlinesAll connective parts phrases
  | [], b, b', phrases, h => by
    obtain ⟨rfl, rfl⟩ := Prod.mk.inj (Except.ok.inj h)
    exact ⟨trivial, rfl, rfl, fun _ _ => rfl, rfl, rfl⟩
  | part :: rest, b, b', phrases, h => by
    obtain ⟨p, b₁, others, hpart, hrest, rfl⟩ := compileParts_cons_ok h
    exact (compile_outlines part b b₁ p hpart).place connective
      (compileParts_outlines connective rest b₁ b' others hrest)
end

/-! ### Reading the text -/

/-- What is written for attributes with proper names is spelled. -/
theorem spelled_of_writes {t : Phrase.Test} {c : Test} (h : t.Writes c) (hname : IsName c.name) : t.Spelled := by
  refine ⟨h.arity, ⟨c.name, hname, h.name⟩, fun value hvalue => ?_⟩
  obtain ⟨n, rfl⟩ := h.values value hvalue
  exact ⟨c.name ++ toString n, isName_append_toString hname n, rfl⟩

theorem standsFor_positive {names : Dict String} {values : Dict Json} {t : Phrase.Test} {c : Test}
    (h : t.StandsFor surface names values c) : t.positive.StandsFor surface names values c.positive :=
  ⟨congrArg Operator.positive h.operator, h.field, h.operands⟩

/-- The outcome of the `n`-th test in the text, when `holds` decides the tests of the
condition: "does not contain" is read as the negation of "contains". -/
def outcome (c : Condition) (holds : Nat → Bool) (n : Nat) : Bool :=
  (c.tests[n]?).any (fun t => t.operator.negated) ^^ holds n

theorem outcomes_of_stands {names : Dict String} {values : Dict Json} {c : Condition} {p : Phrase}
    (h : List.Forall₂ (Phrase.Test.StandsFor surface names values) p.tests c.tests) (holds : Nat → Bool) :
    Phrase.Outcomes holds (c.outcome holds) 0 p.tests := by
  intro n t ht
  obtain ⟨test, htest, hstands⟩ := exists_getElem?_of_forall₂ h ht
  rw [Nat.zero_add, outcome, htest, hstands.operator]
  rfl

/-- **The text of a condition is read in one way, and with the value of the condition for all
outcomes exactly if the condition is guarded.** -/
theorem reads_value_iff_guarded {c : Condition} (hfits : ∀ t ∈ c.tests, t.Fits surface)
    (hnames : ∀ t ∈ c.tests, IsName t.name) :
    ∃ clauses, Clauses.empty.apply surface c = .ok clauses ∧ clauses.expression?.isSome = c.makesTest ∧
      ∀ text, clauses.expression? = some text → ∃ f, Reads text f ∧ (∀ g, Reads text g → g = f) ∧
        List.Forall₂ (Phrase.Test.StandsFor surface clauses.names clauses.values) f.tests
          (c.tests.map Test.positive) ∧
        ((∀ holds, c.value? holds 0 = some (f.value (c.outcome holds) 0)) ↔ c.guarded = true) := by
  obtain ⟨⟨phrase, b⟩, hcompile⟩ := compile_total c .empty hfits
  have hextends := compile_extends c _ _ _ (Bindings.named_empty surface) hcompile
  have houtlines := compile_outlines c _ _ _ hcompile
  have hphrase : (Clauses.mk b phrase.toList).phrase? = phrase := by cases phrase <;> rfl
  refine ⟨⟨b, phrase.toList⟩, ?_, ?_, fun text htext => ?_⟩
  · rw [Clauses.apply]
    simp only [Clauses.empty, hcompile, List.nil_append]
  · rw [Clauses.expression?, hphrase, Option.isSome_map, houtlines.isSome]
  · rw [Clauses.expression?, hphrase] at htext
    obtain ⟨p, rfl, rfl⟩ := Option.map_eq_some_iff.mp htext
    have hlinked := houtlines.linked p rfl
    have htests : Phrase.testsOf (some p).toList = p.tests := by simp [Phrase.testsOf]
    have hwrites := hextends.writes
    have hstands := hextends.stands
    rw [htests] at hwrites hstands
    have hspelled : p.Spelled := by
      refine Phrase.spelled_of_linked p hlinked fun t ht => ?_
      obtain ⟨test, htest, hwrite⟩ := exists_mem_of_forall₂ hwrites ht
      exact spelled_of_writes hwrite (hnames test htest)
    refine ⟨p.formula, Phrase.reads hspelled, fun g hg => hg.unique (Phrase.reads hspelled), ?_, ?_⟩
    · rw [Phrase.tests_formula hlinked, List.forall₂_map_left_iff, List.forall₂_map_right_iff]
      exact hstands.imp fun _ _ => standsFor_positive
    · have hvalue (holds : Nat → Bool) : c.value? holds 0 = some (p.formula.value (c.outcome holds) 0) ↔
          rowsHold (p.shown holds 0) = p.value holds 0 := by
        rw [← houtlines.value holds 0, Phrase.value_formula hlinked (outcomes_of_stands hstands holds),
          Option.map_some, Option.some.injEq, eq_comm]
      simp only [hvalue]
      rw [Phrase.forall_shown_eq_value_iff hlinked, ← houtlines.guarded]
      rfl

/-! ### A disjunction without its parentheses -/

def letter (name : String) : Attribute := ⟨name, name, name, .scalar .string, none, false, false⟩

def letters : Surface := ⟨.ofList [("a", letter "a"), ("b", letter "b"), ("c", letter "c")]⟩

/-- A disjunction that is the only part of a part, beside another part. -/
def lost : Condition :=
  .all [.any [.any [.eq "a" (.string "x"), .eq "b" (.string "y")]], .eq "c" (.string "z")]

theorem lost_fits : ∀ t ∈ lost.tests, t.Fits letters := by
  have htests : lost.tests = [⟨"a", .eq, [.string "x"]⟩, ⟨"b", .eq, [.string "y"]⟩, ⟨"c", .eq, [.string "z"]⟩] := rfl
  intro t ht
  rw [htests] at ht
  simp only [List.mem_cons, List.not_mem_nil, or_false] at ht
  rcases ht with rfl | rfl | rfl
  · exact ⟨⟨"a", rfl⟩, rfl⟩
  · exact ⟨⟨"b", rfl⟩, rfl⟩
  · exact ⟨⟨"c", rfl⟩, rfl⟩

theorem lost_names : ∀ t ∈ lost.tests, IsName t.name := by
  have htests : lost.tests.all (fun t => decide (IsName t.name)) = true := by decide
  intro t ht
  exact of_decide_eq_true (List.all_eq_true.mp htests t ht)

/-- The theorem at `lost`, which is not guarded. -/
theorem reads_value_lost : ∃ clauses, Clauses.empty.apply letters lost = .ok clauses ∧
    clauses.expression?.isSome = lost.makesTest ∧
      ∀ text, clauses.expression? = some text → ∃ f, Reads text f ∧ (∀ g, Reads text g → g = f) ∧
        List.Forall₂ (Phrase.Test.StandsFor letters clauses.names clauses.values) f.tests
          (lost.tests.map Test.positive) ∧
        ((∀ holds, lost.value? holds 0 = some (f.value (lost.outcome holds) 0)) ↔ lost.guarded = true) :=
  reads_value_iff_guarded lost_fits lost_names

/-- The formula that the text of `lost` reads as. -/
def lostReading : Formula :=
  .or (.test ⟨.eq, "#a", [":a1"]⟩) (.and (.test ⟨.eq, "#b", [":b1"]⟩) (.test ⟨.eq, "#c", [":c1"]⟩))

/-- The text of `lost` holds by its first test alone, and `lost` does not. -/
theorem lost_reads_otherwise : ∃ clauses, Clauses.empty.apply letters lost = .ok clauses ∧
    clauses.expression? = some "#a = :a1 OR #b = :b1 AND #c = :c1" ∧
    Reads "#a = :a1 OR #b = :b1 AND #c = :c1" lostReading ∧
    lost.value? (· == 0) 0 = some false ∧ lostReading.value (lost.outcome (· == 0)) 0 = true := by
  have htokens : tokens "#a = :a1 OR #b = :b1 AND #c = :c1".toList =
      [.name "#a", .comparator .eq, .value ":a1"] ++ .or ::
        ([.name "#b", .comparator .eq, .value ":b1"] ++ .and ::
          [.name "#c", .comparator .eq, .value ":c1"]) := by decide
  refine ⟨_, rfl, rfl, ?_, rfl, rfl⟩
  rw [Reads, htokens]
  exact .or (.factor (.test (.comparison _ _ _)))
    (.conjunction (.and (.test (.comparison _ _ _)) (.factor (.test (.comparison _ _ _)))))

end Condition

end SingleTable
