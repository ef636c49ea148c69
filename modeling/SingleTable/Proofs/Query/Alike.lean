import SingleTable.Proofs.Condition.Form
import SingleTable.Proofs.Item.Identity
import SingleTable.Proofs.Query.Match
import SingleTable.Proofs.Query.Params

/-! Queries that differ in values only.

A chain carries values in its facets, in the bounds of its range and in the operands of its filters.
Chains that are alike in all the rest stay so under steps that are (`Alike.run`), and have the same
parameters but for the values of their placeholders (`Alike.params`). -/
namespace SingleTable

/-! ### Facets -/

namespace Facets

/-- The names, in order, and which of them are null. -/
def nulls (facets : Facets) : Dict Bool := facets.map fun _ value => value.isNull

theorem keys_present (facets : Facets) :
    facets.present.keys = (facets.nulls.entries.filter fun entry => !entry.2).map Prod.fst := by
  rw [nulls, Dict.map, List.filter_map, List.map_map]
  rfl

end Facets

/-- Values of a caller that are facets of the same names, in one order, with nulls in the same places. -/
def Json.SameNulls (input input' : Json) : Prop :=
  (Facets.ofJson input).map Facets.nulls = (Facets.ofJson input').map Facets.nulls

theorem Entity.nulls_eq {e : Entity} {input input' : Json} {facets facets' : Facets} (h : input.SameNulls input')
    (hfacets : e.facets input = .ok facets) (hfacets' : e.facets input' = .ok facets') :
    facets.nulls = facets'.nulls := by
  rw [Json.SameNulls, (facets_ok_iff.mp hfacets).1, (facets_ok_iff.mp hfacets').1] at h
  exact Except.ok.inj h

theorem Dict.keys_filter {α : Type} (d : Dict α) (keep : String → Bool) :
    (d.filter fun name _ => keep name).keys = d.keys.filter keep := by
  rw [keys, keys, Assoc.keys, Assoc.keys, filter, List.filter_map]
  rfl

/-! ### Chains -/

/-- Ranges that differ in their bounds. -/
inductive SortRange.Alike : SortRange → SortRange → Prop where
  | beginsWith (start start' : String) : Alike (.beginsWith start) (.beginsWith start')
  | between (low high low' high' : String) : Alike (.between low high) (.between low' high')
  | compare (comparison : Comparison) (bound bound' : String) :
      Alike (.compare comparison bound) (.compare comparison bound')

/-- Chains of an entity that differ in values. -/
structure Query.Alike (e : Entity) (q q' : Query) : Prop where
  entity : q.entity = e
  entity' : q'.entity = e
  index : q.index = q'.index
  sortRange : q.sortRange.Alike q'.sortRange
  clauses : q.clauses.Alike q'.clauses

namespace Query

open Placeholder (bindName bindValue bindValue_alike)

/-- Steps that put ranges of one operator on a chain, on whatever facets, or that filter by conditions
of one form. -/
inductive Step.Alike (e : Entity) : Step → Step → Prop where
  | compare (comparison : Comparison) (facets facets' : Json) :
      Alike e (.compare comparison facets) (.compare comparison facets')
  | beginsWith (facets facets' : Json) : Alike e (.beginsWith facets) (.beginsWith facets')
  | between (low high low' high' : Json) : Alike e (.between low high) (.between low' high')
  | filter {s s' : Step} {condition condition' : Condition} : s.conditions e = [condition] →
      s'.conditions e = [condition'] → condition.form = condition'.form → Alike e s s'

/-- What a range step puts on a chain. -/
theorem Step.Alike.range {e : Entity} {s s' : Step} (h : Step.Alike e s s') (hs : s.conditions e = [])
    {q q' : Query} {range range' : SortRange} (hrange : s.range? q = some range)
    (hrange' : s'.range? q' = some range') : range.Alike range' := by
  cases h with
  | compare comparison facets facets' =>
    obtain ⟨bound, -, rfl⟩ := Option.map_eq_some_iff.mp hrange
    obtain ⟨bound', -, rfl⟩ := Option.map_eq_some_iff.mp hrange'
    exact .compare comparison bound bound'
  | beginsWith facets facets' =>
    obtain ⟨start, -, rfl⟩ := Option.map_eq_some_iff.mp hrange
    obtain ⟨start', -, rfl⟩ := Option.map_eq_some_iff.mp hrange'
    exact .beginsWith start start'
  | between low high low' high' =>
    obtain ⟨lower, -, hupper⟩ := Option.bind_eq_some_iff.mp hrange
    obtain ⟨upper, -, rfl⟩ := Option.map_eq_some_iff.mp hupper
    obtain ⟨lower', -, hupper'⟩ := Option.bind_eq_some_iff.mp hrange'
    obtain ⟨upper', -, rfl⟩ := Option.map_eq_some_iff.mp hupper'
    exact .between lower upper lower' upper'
  | filter hconditions =>
    rw [hs] at hconditions
    exact nomatch hconditions

/-- Steps of one kind have no or one condition each, of one form. -/
theorem Step.Alike.conditions {e : Entity} {s s' : Step} (h : Step.Alike e s s') :
    (s.conditions e).map Condition.form = (s'.conditions e).map Condition.form := by
  cases h with
  | compare | beginsWith | between => rfl
  | filter hcondition hcondition' hform => rw [hcondition, hcondition', List.map_singleton, hform, List.map_singleton]

namespace Alike

variable {e : Entity} {q q' q₁ q₁' : Query}

theorem filter (h : Query.Alike e q q') {condition condition' : Condition} (hform : condition.form = condition'.form)
    {clauses clauses' : Clauses} (hclauses : q.clauses.apply e.surface condition = .ok clauses)
    (hclauses' : q'.clauses.apply e.surface condition' = .ok clauses') :
    Query.Alike e { q with clauses := clauses, stage := .filtered } { q' with clauses := clauses', stage := .filtered } :=
  ⟨h.entity, h.entity', h.index, h.sortRange, h.clauses.apply hform hclauses hclauses'⟩

/-- **Like steps lead from chains that are alike to such**, -/
theorem step (h : Query.Alike e q q') {s s' : Step} (hs : Step.Alike e s s') (hstep : q.step s = .ok q₁)
    (hstep' : q'.step s' = .ok q₁') : Query.Alike e q₁ q₁' := by
  have hconditions := hs.conditions
  obtain rfl := h.entity
  rcases step_ok hstep with ⟨range, hrange, hnone, -, rfl⟩ | ⟨condition, clauses, -, hone, hclauses, rfl⟩ <;>
    rcases step_ok hstep' with ⟨range', hrange', hnone', -, rfl⟩ | ⟨condition', clauses', -, hone', hclauses', rfl⟩
  · exact ⟨rfl, h.entity', h.index, hs.range hnone hrange hrange', h.clauses⟩
  · rw [h.entity'] at hone'
    rw [hnone, hone'] at hconditions
    exact nomatch hconditions
  · rw [h.entity'] at hnone'
    rw [hone, hnone'] at hconditions
    exact nomatch hconditions
  · rw [h.entity'] at hone' hclauses'
    rw [hone, hone'] at hconditions
    exact h.filter (List.cons.inj hconditions).1 hclauses hclauses'

/-- and so does any number of them. -/
theorem run (h : Query.Alike e q q') {steps steps' : List Step} (hsteps : List.Forall₂ (Step.Alike e) steps steps')
    (hrun : q.run steps = .ok q₁) (hrun' : q'.run steps' = .ok q₁') : Query.Alike e q₁ q₁' := by
  induction hsteps generalizing q q' with
  | nil =>
    obtain rfl := Except.ok.inj hrun
    obtain rfl := Except.ok.inj hrun'
    exact h
  | cons hs hrest ih =>
    obtain ⟨next, hnext, hothers⟩ := run_cons_ok hrun
    obtain ⟨next', hnext', hothers'⟩ := run_cons_ok hrun'
    exact ih (h.step hs hnext hnext') hothers hothers'

/-! ### Parameters -/

/-- The phrase of a range has the same placeholders for all bounds. -/
theorem rangePhrase (h : Query.Alike e q q') (name field : String) (names : Dict String) {values values' : Dict Json}
    (hvalues : values.keys = values'.keys) :
    (q.rangePhrase name field names values).1 = (q'.rangePhrase name field names values').1 ∧
      (q.rangePhrase name field names values).2.1 = (q'.rangePhrase name field names values').2.1 ∧
      (q.rangePhrase name field names values).2.2.keys = (q'.rangePhrase name field names values').2.2.keys := by
  have hrange := h.sortRange
  have hbind (base : String) {values values' : Dict Json} (hvalues : values.keys = values'.keys)
      (bound bound' : String) := bindValue_alike hvalues h.clauses.bindings.values base (.string bound) (.string bound')
  unfold Query.rangePhrase
  generalize q.sortRange = range at hrange ⊢
  generalize q'.sortRange = range' at hrange ⊢
  cases hrange with
  | beginsWith start start' =>
    obtain ⟨hplaceholder, hkeys⟩ := hbind ":sk1" hvalues start start'
    exact ⟨congrArg (SortPhrase.beginsWith name) hplaceholder, rfl, hkeys⟩
  | between low high low' high' =>
    obtain ⟨hlow, hkeys⟩ := hbind ":sk1" hvalues low low'
    obtain ⟨hhigh, hkeys'⟩ := hbind ":sk2" hkeys high high'
    refine ⟨congrArg₂ (SortPhrase.between name) hlow hhigh, ?_, hkeys'⟩
    exact congrArg (fun taken => (bindName names taken "#sk2" field).2) h.clauses.bindings.names
  | compare comparison bound bound' =>
    obtain ⟨hplaceholder, hkeys⟩ := hbind ":sk1" hvalues bound bound'
    exact ⟨congrArg (SortPhrase.compare name comparison) hplaceholder, rfl, hkeys⟩

/-- **So has the key condition.** -/
theorem keyPhrase (h : Query.Alike e q q') :
    q.keyPhrase.1 = q'.keyPhrase.1 ∧ q.keyPhrase.2.1 = q'.keyPhrase.2.1 ∧
      q.keyPhrase.2.2.keys = q'.keyPhrase.2.2.keys := by
  obtain ⟨hvalue, hkeys⟩ := bindValue_alike (rfl : (Dict.empty : Dict Json).keys = Dict.empty.keys)
    h.clauses.bindings.values ":pk" (.string q.partitionKey) (.string q'.partitionKey)
  have hnames : q.clauses.names = q'.clauses.names := h.clauses.bindings.names
  unfold Query.keyPhrase
  rw [h.index, hnames]
  cases q'.index.sort with
  | none => exact ⟨congrArg (KeyPhrase.mk _ · none) hvalue, rfl, hkeys⟩
  | some sort =>
    obtain ⟨hphrase, hnames, hkeys⟩ := h.rangePhrase _ sort.field _ hkeys
    exact ⟨congrArg₂ (fun value phrase => KeyPhrase.mk _ value (some phrase)) hvalue hphrase, hnames, hkeys⟩

end Alike

end Query

/-- Parameters that differ in the values of placeholders. -/
structure QueryParams.Alike (p p' : QueryParams) : Prop where
  table : p.table = p'.table
  index : p.index = p'.index
  key : p.key = p'.key
  filter : p.filter = p'.filter
  names : p.names = p'.names
  values : p.values.keys = p'.values.keys

/-- **Chains that differ in values have parameters that do.** -/
theorem Query.Alike.params {e : Entity} {q q' : Query} (h : Query.Alike e q q') : q.params.Alike q'.params := by
  obtain ⟨k, names, values, hphrase⟩ : ∃ k names values, q.keyPhrase = (k, names, values) := ⟨_, _, _, rfl⟩
  obtain ⟨k', names', values', hphrase'⟩ : ∃ k names values, q'.keyPhrase = (k, names, values) := ⟨_, _, _, rfl⟩
  have hsame := h.keyPhrase
  rw [hphrase, hphrase'] at hsame
  obtain ⟨rfl, rfl, hvalues⟩ := hsame
  obtain ⟨hcondition, hnames, hkeys⟩ := Expressions.join_alike h.clauses names hvalues
  obtain ⟨hpkey, hpnames, hpvalues, hpfilter⟩ := params_eq hphrase
  obtain ⟨hpkey', hpnames', hpvalues', hpfilter'⟩ := params_eq hphrase'
  refine ⟨congrArg Entity.table (h.entity.trans h.entity'.symm), ?_, ?_, ?_, ?_, ?_⟩
  · exact congrArg (fun index : Index => if index.isPrimary then none else some index.id) h.index
  · rw [hpkey, hpkey']
  · rw [hpfilter, hpfilter', hcondition]
  · rw [hpnames, hpnames', hnames]
  · rw [hpvalues, hpvalues', hkeys]

/-! ### Starts -/

namespace Entity

variable {e : Entity} {input input' : Json} {q q' : Query}

theorem start_alike {index : Index} {facets facets' : Facets} (h : Query.start e index facets = .ok q)
    (h' : Query.start e index facets' = .ok q') : Query.Alike e q q' := by
  obtain ⟨-, rfl⟩ := Query.start_ok h
  obtain ⟨-, rfl⟩ := Query.start_ok h'
  exact ⟨rfl, rfl, rfl, .beginsWith _ _, .refl _⟩

/-- Queries on one pattern start alike, on whatever facets. -/
theorem query_alike {pattern : String} (h : e.query pattern input = .ok q) (h' : e.query pattern input' = .ok q') :
    Query.Alike e q q' := by
  unfold query at h h'
  split at h
  · exact nomatch h
  next index hindex =>
  rw [hindex] at h'
  simp only at h h'
  split at h
  · exact nomatch h
  split at h'
  · exact nomatch h'
  exact start_alike h h'

/-- The condition that entries hold has a form that their names give. -/
theorem form_equalities (entries : List (String × Json)) :
    (equalities entries).form = .all ((Assoc.keys entries).map fun name => .eq name .null) := by
  rw [equalities, Condition.all, Condition.form, Condition.forms_eq_map, List.map_map, Assoc.keys, List.map_map]
  rfl

/-- **Searches start alike for facets of the same names**, with nulls in the same places. -/
theorem find_alike (hinput : input.SameNulls input') (h : e.find input = .ok q) (h' : e.find input' = .ok q') :
    Query.Alike e q q' := by
  obtain ⟨facets, route, q₀, hfacets, hroute, -, hstart, hq⟩ := find_route h
  obtain ⟨facets', route', q₀', hfacets', hroute', -, hstart', hq'⟩ := find_route h'
  have hpresent : facets.present.keys = facets'.present.keys := by
    rw [facets.keys_present, facets'.keys_present, nulls_eq hinput hfacets hfacets']
  rw [hpresent, hroute'] at hroute
  obtain rfl := Option.some.inj hroute
  have halike := start_alike hstart hstart'
  -- What the route leaves has the same names, so both searches filter by it or neither does.
  have hremaining : (route'.remaining facets).keys = (route'.remaining facets').keys := by
    rw [Route.remaining, Route.remaining, Dict.keys_filter _ fun name => decide (name ∉ route'.facets),
      Dict.keys_filter _ fun name => decide (name ∉ route'.facets), hpresent]
  rw [Dict.isEmpty_congr hremaining] at hq
  rcases hq with ⟨hempty, rfl⟩ | ⟨hsome, hfilter⟩
  · rcases hq' with ⟨-, rfl⟩ | ⟨hsome', -⟩
    · exact halike
    · rw [hempty] at hsome'
      exact nomatch hsome'
  · rcases hq' with ⟨hempty', -⟩ | ⟨-, hfilter'⟩
    · rw [hsome] at hempty'
      exact nomatch hempty'
    · obtain ⟨clauses, hclauses, rfl⟩ := Fault.map_ok hfilter
      obtain ⟨clauses', hclauses', rfl⟩ := Fault.map_ok hfilter'
      rw [halike.entity] at hclauses
      rw [halike.entity'] at hclauses'
      refine halike.filter ?_ hclauses hclauses'
      rw [form_equalities, form_equalities]
      exact congrArg (fun names => Condition.all (names.map fun name => .eq name .null)) hremaining

end Entity

end SingleTable
