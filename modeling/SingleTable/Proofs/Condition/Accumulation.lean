import SingleTable.Proofs.Binding.Ledger
import SingleTable.Proofs.Condition.Clauses

/-! What accumulates over clauses.

However a condition is built, compiling it binds its tests from left to right and
nothing else (`compile_binds`), and it adds at most one clause. So clauses are
only ever added to: `applied_exactly` says that every condition leaves the names,
the values and the clauses before it as they are and where they are, and what
they are after all conditions. -/
namespace SingleTable

namespace Condition

variable {surface : Surface}

mutual
/-- **Compiling binds the tests of a condition from left to right.** -/
theorem compile_binds : (c : Condition) → (b b' : Bindings) → (phrase : Option Phrase) →
    compile surface c b = .ok (phrase, b') → Bindings.Binds surface c.tests b b'
  | .test name operator operands, b, b', phrase, h => by
    obtain ⟨field, placeholders, hfield, -, hmint, -⟩ := compile_test_ok h
    refine .cons hfield ?_
    show Bindings.Binds surface [] ((b.bindName name field).mintAll name operands).2 b'
    rw [hmint]
    exact .nil b'
  | .group inner, b, b', phrase, h => by
    obtain ⟨p, hinner, -⟩ := compile_group_ok h
    exact compile_binds inner b b' p hinner
  | .join connective parts, b, b', phrase, h => by
    obtain ⟨phrases, hparts, -⟩ := compile_join_ok h
    exact compileParts_binds connective parts b b' phrases hparts

theorem compileParts_binds (connective : Connective) : (parts : List Condition) → (b b' : Bindings) →
    (phrases : List Phrase) → compileParts surface connective parts b = .ok (phrases, b') →
      Bindings.Binds surface (testsOf parts) b b'
  | [], b, b', phrases, h => by
    obtain ⟨-, rfl⟩ := Prod.mk.inj (Except.ok.inj h)
    exact .nil b
  | part :: rest, b, b', phrases, h => by
    obtain ⟨p, b₁, others, hpart, hrest, -⟩ := compileParts_cons_ok h
    exact (compile_binds part b b₁ p hpart).append (compileParts_binds connective rest b₁ b' others hrest)
end

end Condition

namespace Clauses

open Bindings (Bound numbersOf)

variable {surface : Surface} {c c' c'' : Clauses}

/-- Clauses that go on from others: what these have keeps its place. -/
structure Appends (c c' : Clauses) : Prop where
  names : c.names.entries <+: c'.names.entries
  values : c.values.entries <+: c'.values.entries
  phrases : c.phrases <+: c'.phrases

theorem Appends.refl (c : Clauses) : c.Appends c := ⟨List.prefix_refl _, List.prefix_refl _, List.prefix_refl _⟩

theorem Appends.trans (h : c.Appends c') (h' : c'.Appends c'') : c.Appends c'' :=
  ⟨h.names.trans h'.names, h.values.trans h'.values, h.phrases.trans h'.phrases⟩

/-- **One more condition keeps what is there**, and binds its tests. -/
theorem appends_apply {condition : Condition} (h : c.apply surface condition = .ok c') :
    c.Appends c' ∧ Bindings.Binds surface condition.tests c.bindings c'.bindings := by
  obtain ⟨phrase, hcompile, hphrases⟩ := apply_ok h
  have hbinds := condition.compile_binds _ _ _ hcompile
  obtain ⟨hnames, hvalues⟩ := hbinds.appends
  refine ⟨⟨hnames, hvalues, ?_⟩, hbinds⟩
  rw [hphrases]
  exact List.prefix_append _ _

/-- **So do any number of them.** -/
theorem appends_applyAll {conditions : List Condition} (h : c.applyAll surface conditions = .ok c') :
    c.Appends c' ∧ Bindings.Binds surface (Condition.testsOf conditions) c.bindings c'.bindings := by
  induction conditions generalizing c with
  | nil =>
    obtain rfl := Except.ok.inj h
    exact ⟨.refl c, .nil _⟩
  | cons condition rest ih =>
    obtain ⟨next, hnext, hrest⟩ := applyAll_cons_ok h
    obtain ⟨hfirst, hbinds⟩ := appends_apply hnext
    obtain ⟨hlast, hothers⟩ := ih hrest
    exact ⟨hfirst.trans hlast, hbinds.append hothers⟩

/-- **Clauses are added to and never changed, and what they bind is what their conditions ask for.** Every
condition leaves names, values and clauses as they are, and adds behind them. In the end the names are
those of the attributes that the tests are of, by first occurrence, and the values are the operands of the
tests, from left to right, each under a placeholder of its own. It is the number of its attribute; the
numbers of an attribute increase from 1 on, and its counter is the last of them. -/
theorem applied_exactly {conditions : List Condition} (h : empty.applyAll surface conditions = .ok c) :
    (∀ before condition after, conditions = before ++ condition :: after → ∃ c₁ c₂,
      empty.applyAll surface before = .ok c₁ ∧ c₁.apply surface condition = .ok c₂ ∧
        c₁.Appends c₂ ∧ c₂.Appends c) ∧
      List.Forall₂ (fun entry name => entry.1 = Placeholder.ofName name ∧ surface.field name = .ok entry.2)
        c.names.entries ((Condition.testsOf conditions).map Condition.Test.name).eraseDups ∧
      c.values.keys.Nodup ∧
      ∃ bound : List Bound, c.values.entries = bound.map Bound.entry ∧
        bound.map Bound.request = Bindings.requestsOf (Condition.testsOf conditions) ∧
        ∀ name, (numbersOf bound name).Pairwise (· < ·) ∧ (∀ n ∈ numbersOf bound name, 0 < n) ∧
          c.bindings.count name = (numbersOf bound name).getLast?.getD 0 := by
  obtain ⟨hnames, bound, hnumbers, hrequests⟩ :=
    (Bindings.accounts_empty surface).binds (appends_applyAll h).2
  refine ⟨fun before condition after hconditions => ?_, hnames, c.values.nodup,
    bound, hnumbers.entries, hrequests, fun name => ?_⟩
  · subst hconditions
    obtain ⟨c₁, hbefore, hrest⟩ := applyAll_split h
    obtain ⟨c₂, hcondition, hafter⟩ := applyAll_cons_ok hrest
    exact ⟨c₁, c₂, hbefore, hcondition, (appends_apply hcondition).1, (appends_applyAll hafter).1⟩
  · obtain ⟨hpositive, hincrease⟩ := List.pairwise_cons.mp (hnumbers.increase name)
    refine ⟨hincrease, hpositive, ?_⟩
    have hlast := hnumbers.last name
    rw [List.getLast?_cons] at hlast
    exact (Option.some.inj hlast).symm

/-- Two attributes, where the name of the one is that of the other and a digit. -/
def suffixed : Surface := ⟨.ofList [("a", Condition.letter "a"), ("a1", Condition.letter "a1")]⟩

/-- One value of `a1`, then eleven of `a`. -/
def crowded : List Condition :=
  [.eq "a1" (.string "y"), .all (List.replicate 11 (.eq "a" (.string "x")))]

/-- The theorem at `crowded`: `:a11` is the first value of `a1`, so the last value of `a` is `:a12`. -/
theorem applied_crowded : ∃ c, empty.applyAll suffixed crowded = .ok c ∧
    c.names.entries = [("#a1", "a1"), ("#a", "a")] ∧
    c.values.keys = [":a11", ":a1", ":a2", ":a3", ":a4", ":a5", ":a6", ":a7", ":a8", ":a9", ":a10", ":a12"] ∧
    c.values.keys.Nodup ∧
    ∃ bound : List Bound, c.values.entries = bound.map Bound.entry ∧
      bound.map Bound.request = Bindings.requestsOf (Condition.testsOf crowded) ∧
      ∀ name, (numbersOf bound name).Pairwise (· < ·) ∧ (∀ n ∈ numbersOf bound name, 0 < n) ∧
        c.bindings.count name = (numbersOf bound name).getLast?.getD 0 := by
  have hok : ∃ c, empty.applyAll suffixed crowded = .ok c ∧
      c.names.entries = [("#a1", "a1"), ("#a", "a")] ∧
      c.values.keys =
        [":a11", ":a1", ":a2", ":a3", ":a4", ":a5", ":a6", ":a7", ":a8", ":a9", ":a10", ":a12"] :=
    ⟨_, rfl, rfl, rfl⟩
  obtain ⟨c, happlied, hnames, hkeys⟩ := hok
  obtain ⟨-, -, hdistinct, hbound⟩ := applied_exactly happlied
  exact ⟨c, happlied, hnames, hkeys, hdistinct, hbound⟩

end Clauses

end SingleTable
