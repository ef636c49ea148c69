import SingleTable.Query.Chain
import SingleTable.Proofs.Condition.Compile

/-! Steps on a query chain, and what a chain keeps over any number of them.

A step puts a range on the chain or adds a filter. `Reached.run` says what every
chain is that successful steps lead to: it stands on the index, the facets and
the partition key that it started with, its range is the one that a step put on
it, and its clauses are those of all filters in order. -/
namespace SingleTable.Query

/-! ### Steps -/

inductive Step where
  | compare (comparison : Comparison) (facets : Json)
  | beginsWith (facets : Json)
  | between (low high : Json)
  | filter (condition : Condition)
  | named (name : String) (arguments : List Json)

def step (q : Query) : Step → Except Fault Query
  | .compare comparison facets => q.compare comparison facets
  | .beginsWith facets => q.beginsWith facets
  | .between low high => q.between low high
  | .filter condition => q.filter condition
  | .named name arguments => q.named name arguments

/-- Steps one after another; the first that fails is the last. -/
def run (q : Query) : List Step → Except Fault Query
  | [] => .ok q
  | s :: rest =>
    match q.step s with
    | .error fault => .error fault
    | .ok q => q.run rest

/-- Steps succeed if the first does and, from where it leads, the others. -/
theorem run_cons_ok {q q' : Query} {s : Step} {rest : List Step} (h : q.run (s :: rest) = .ok q') :
    ∃ next, q.step s = .ok next ∧ next.run rest = .ok q' := by
  rw [run] at h
  split at h
  · cases h
  · next next hnext => exact ⟨next, hnext, h⟩

/-- The conditions that a step filters by. -/
def Step.conditions (e : Entity) : Step → List Condition
  | .filter condition => [condition]
  | .named name arguments => (e.filters.get? name).toList.map fun f => f e.surface arguments
  | _ => []

/-- The range that a step puts on a chain with the key and the facets of `q`. -/
def Step.range? (q : Query) : Step → Option SortRange
  | .compare comparison facets => (q.boundOf facets).toOption.map (.compare comparison)
  | .beginsWith facets => (q.boundOf facets).toOption.map .beginsWith
  | .between low high =>
    (q.boundOf low).toOption.bind fun low => (q.boundOf high).toOption.map (.between low)
  | .filter _ | .named _ _ => none

def conditionsOf (e : Entity) (steps : List Step) : List Condition := steps.flatMap (Step.conditions e)

/-! ### One step -/

/-- A chain without a range fault has no range yet to lose, and a sort key to put one on. -/
theorem rangeFault?_eq_none {q : Query} (h : q.rangeFault? = none) :
    q.stage = .seeded ∧ q.index.sort.isSome = true := by
  unfold rangeFault? at h
  cases hstage : q.stage with
  | seeded =>
    refine ⟨rfl, ?_⟩
    cases hsort : q.index.sort with
    | none =>
      rw [hstage, hsort] at h
      exact nomatch h
    | some sort => rfl
  | ranged | filtered =>
    rw [hstage] at h
    exact nomatch h

/-- A bound that a chain composes, and what is made of it. -/
theorem range_of_boundOf {q : Query} {facets : Json} {bound : String} (h : q.boundOf facets = .ok bound)
    (range : String → SortRange) : (q.boundOf facets).toOption.map range = some (range bound) := by
  rw [h]
  rfl

/-- **A step puts a range on a fresh chain, or adds the clauses of its conditions.** -/
theorem step_ok {q q' : Query} {s : Step} (h : q.step s = .ok q') :
    (∃ range, s.range? q = some range ∧ s.conditions q.entity = [] ∧ q.rangeFault? = none ∧
      q' = q.withRange range) ∨
    ∃ condition clauses, s.range? q = none ∧ s.conditions q.entity = [condition] ∧
      q.clauses.apply q.entity.surface condition = .ok clauses ∧
      q' = { q with clauses := clauses, stage := .filtered } := by
  cases s with
  | compare comparison facets =>
    simp only [step, compare] at h
    split at h
    · cases h
    · next hfault =>
      obtain ⟨bound, hbound, rfl⟩ := Fault.map_ok h
      exact .inl ⟨_, range_of_boundOf hbound _, rfl, hfault, rfl⟩
  | beginsWith facets =>
    simp only [step, beginsWith] at h
    split at h
    · cases h
    · next hfault =>
      obtain ⟨bound, hbound, rfl⟩ := Fault.map_ok h
      exact .inl ⟨_, range_of_boundOf hbound _, rfl, hfault, rfl⟩
  | between low high =>
    simp only [step, between] at h
    split at h
    · cases h
    · next hfault =>
      split at h
      · cases h
      · next lower hlower =>
        obtain ⟨upper, hupper, rfl⟩ := Fault.map_ok h
        refine .inl ⟨_, ?_, rfl, hfault, rfl⟩
        rw [Step.range?, hlower]
        exact range_of_boundOf hupper _
  | filter condition =>
    obtain ⟨clauses, hclauses, rfl⟩ := Fault.map_ok h
    exact .inr ⟨condition, clauses, rfl, rfl, hclauses, rfl⟩
  | named name arguments =>
    simp only [step, named] at h
    split at h
    · cases h
    · next f hf =>
      obtain ⟨clauses, hclauses, rfl⟩ := Fault.map_ok h
      refine .inr ⟨f q.entity.surface arguments, clauses, rfl, ?_, hclauses, rfl⟩
      rw [Step.conditions, hf]
      rfl

/-! ### All steps -/

/-- What a chain is after some steps from `q₀`. -/
structure Reached (q₀ : Query) (steps : List Step) (q : Query) : Prop where
  entity : q.entity = q₀.entity
  index : q.index = q₀.index
  facets : q.facets = q₀.facets
  partitionKey : q.partitionKey = q₀.partitionKey
  range : q.range = steps.findSome? (Step.range? q₀)
  fresh : q.stage = .seeded → q.range = none
  clauses : Clauses.Of q₀.entity.surface (conditionsOf q₀.entity steps) q.clauses

/-- Ranges depend on nothing that steps change. -/
theorem Reached.range?_eq {q₀ q : Query} {steps : List Step} (h : Reached q₀ steps q) (s : Step) :
    s.range? q = s.range? q₀ := by
  have hbound : q.boundOf = q₀.boundOf := by
    funext facets
    unfold boundOf
    rw [h.entity, h.index, h.facets, h.partitionKey]
  unfold Step.range?
  rw [hbound]

theorem Reached.step {q₀ q q' : Query} {steps : List Step} {s : Step} (h : Reached q₀ steps q)
    (hs : q.step s = .ok q') : Reached q₀ (steps ++ [s]) q' := by
  have hrange := h.range
  rcases step_ok hs with ⟨range, hput, hconditions, hfault, rfl⟩ | ⟨condition, clauses, hput, hconditions, hclauses, rfl⟩
  · rw [h.range?_eq] at hput
    rw [h.fresh (rangeFault?_eq_none hfault).1] at hrange
    refine ⟨h.entity, h.index, h.facets, h.partitionKey, ?_, fun hseeded => (nomatch hseeded), ?_⟩
    · rw [List.findSome?_append, ← hrange, List.findSome?_singleton, hput]
      rfl
    · rw [h.entity] at hconditions
      rw [conditionsOf, List.flatMap_append, List.flatMap_singleton, hconditions, List.append_nil]
      exact h.clauses
  · rw [h.range?_eq] at hput
    refine ⟨h.entity, h.index, h.facets, h.partitionKey, ?_, fun hseeded => (nomatch hseeded), ?_⟩
    · rw [List.findSome?_append, ← hrange, List.findSome?_singleton, hput, Option.or_none]
    · rw [h.entity] at hconditions hclauses
      rw [conditionsOf, List.flatMap_append, List.flatMap_singleton, hconditions]
      exact h.clauses.apply hclauses

/-- **What every chain is that successful steps lead to.** -/
theorem Reached.run {q₀ q q' : Query} {before steps : List Step} (h : Reached q₀ before q)
    (hrun : q.run steps = .ok q') : Reached q₀ (before ++ steps) q' := by
  induction steps generalizing q before with
  | nil =>
    obtain rfl := Except.ok.inj hrun
    rwa [List.append_nil]
  | cons s rest ih =>
    obtain ⟨next, hnext, hothers⟩ := run_cons_ok hrun
    have hrest := ih (h.step hnext) hothers
    rwa [List.append_assoc] at hrest

/-- Steps that succeed do so one part after the other. -/
theorem run_append {q q' : Query} {before after : List Step} (h : q.run (before ++ after) = .ok q') :
    ∃ q₁, q.run before = .ok q₁ ∧ q₁.run after = .ok q' := by
  induction before generalizing q with
  | nil => exact ⟨q, rfl, h⟩
  | cons s rest ih =>
    obtain ⟨next, hnext, hothers⟩ := run_cons_ok h
    obtain ⟨q₁, hrest, hafter⟩ := ih hothers
    refine ⟨q₁, ?_, hafter⟩
    rw [Query.run, hnext]
    exact hrest

theorem start_ok {e : Entity} {index : Index} {facets : Facets} {q : Query}
    (h : start e index facets = .ok q) :
    (∀ name ∈ index.partition.facets, facets.has name = true) ∧
      q = ⟨e, index, facets, e.registry.partitionKey index facets, none, .empty, .seeded⟩ := by
  unfold start at h
  split at h
  · exact nomatch h
  · next taken htaken => exact ⟨(Facets.require_ok htaken).1, (Except.ok.inj h).symm⟩

theorem Reached.start {e : Entity} {index : Index} {facets : Facets} {q : Query}
    (h : start e index facets = .ok q) : Reached q [] q := by
  obtain ⟨-, rfl⟩ := start_ok h
  exact ⟨rfl, rfl, rfl, rfl, rfl, fun _ => rfl, Clauses.of_empty e.surface⟩

section Run

variable {e : Entity} {index : Index} {facets : Facets} {q₀ q : Query} {steps : List Step}

/-- A chain stays on the index that it started on. -/
theorem index_of_run (hstart : start e index facets = .ok q₀) (hrun : q₀.run steps = .ok q) : q.index = index := by
  rw [((Reached.start hstart).run hrun).index]
  obtain ⟨-, rfl⟩ := start_ok hstart
  rfl

/-- The clauses of a chain are those of all conditions that it was filtered by. -/
theorem clauses_of_run (hstart : start e index facets = .ok q₀) (hrun : q₀.run steps = .ok q) :
    Clauses.Of e.surface (conditionsOf e steps) q.clauses := by
  have hclauses := ((Reached.start hstart).run hrun).clauses
  obtain ⟨-, rfl⟩ := start_ok hstart
  exact hclauses

end Run

end SingleTable.Query
