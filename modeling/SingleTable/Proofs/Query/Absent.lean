import SingleTable.Proofs.Index.Legible
import SingleTable.Proofs.Query.Holds
import SingleTable.Proofs.Item.Put

/-! Nulls among the facets of a query.

A null counts as absent where facets are checked, required and composed, so nulls among
the facets that start a chain are never seen. The facets of a range are written over those
of the chain, and there a null is an entry like any other: it erases the value that the
chain has. `Entity.ranged_eq_unless_erased` says when a range is the same with and without the nulls:
when none of them erases a facet that the keys of the range are composed of. -/
namespace SingleTable

/-- A caller's value without the members that are null. -/
def Json.withoutNulls : Json → Json
  | .object members => .ofDict (Facets.present (Dict.ofList members))
  | other => other

/-! ### Facets -/

namespace Facets

theorem value?_present (facets : Facets) (name : String) : facets.present.value? name = facets.value? name := by
  rw [value?, get?_present, value?, Option.filter_filter]
  simp only [Bool.and_self]

theorem has_present (facets : Facets) : facets.present.has = facets.has := by
  funext name
  rw [has, value?_present]
  rfl

theorem ofJson_withoutNulls (input : Json) : ofJson input.withoutNulls = (ofJson input).map present := by
  cases input with
  | object members =>
    show Except.ok (Dict.ofList (present (Dict.ofList members)).entries) = .ok (present (Dict.ofList members))
    exact congrArg _ (Dict.ext (Dict.entries_ofList (present (Dict.ofList members)).nodup))
  | null | bool | number | string | array => rfl

theorem require_present (facets : Facets) (required : List String) (label : String) :
    facets.present.require required label = facets.require required label := by
  have hmissing : facets.present.missing required = facets.missing required := by
    rw [missing, has_present]
    rfl
  unfold require
  rw [hmissing]
  split
  · next hnone =>
    have hget : ∀ name ∈ required, facets.present.get? name = facets.get? name := by
      intro name hname
      obtain ⟨value, hvalue⟩ := Option.isSome_iff_exists.mp (missing_eq_nil_iff.mp hnone name hname)
      rw [get?_present, hvalue, (value?_eq_some_iff.mp hvalue).1]
    rw [List.filterMap_congr fun name hname => by rw [hget name hname]]
  · rfl

/-- What is given is written over the facets of a chain. -/
def onto (given chain : Facets) : Facets := chain.override given

/-- A given null erases. -/
theorem value?_onto (given chain : Facets) (name : String) :
    (given.onto chain).value? name =
      if (given.get? name).isSome then given.value? name else chain.value? name := by
  rw [value?, onto, Dict.get?_override, value?, value?]
  cases given.get? name <;> rfl

/-- Without its nulls, what is written over others only adds and replaces values. -/
theorem value?_onto_present (given chain : Facets) (name : String) :
    (given.present.onto chain).value? name = (given.value? name).or (chain.value? name) := by
  rw [value?_onto, get?_present, value?_present]
  cases given.value? name <;> rfl

theorem value?_onto_le {given chain : Facets} {name : String} {value : Json}
    (h : (given.onto chain).value? name = some value) :
    (given.present.onto chain).value? name = some value := by
  rw [value?_onto] at h
  rw [value?_onto_present]
  split at h
  · rw [h, Option.some_or]
  · next hget =>
    have hnone : given.get? name = none := Option.not_isSome_iff_eq_none.mp hget
    rw [value?, hnone]
    exact h

/-- What is lost by the nulls is what they erase. -/
theorem has_onto_iff {given chain : Facets} {name : String} (h : (given.present.onto chain).has name = true) :
    (given.onto chain).has name = true ↔ ¬ (given.get? name = some .null ∧ chain.has name = true) := by
  rw [has, value?_onto_present] at h
  rw [has, value?_onto]
  cases hget : given.get? name with
  | none => simpa [value?, hget] using h
  | some value =>
    rw [value?, hget] at h ⊢
    cases value with
    | null => simpa [Json.isNull, has, Option.isSome_iff_ne_none] using h
    | bool | number | string | array | object => simp [Json.isNull]

/-- Composition that knows less stops earlier, or composes the same. -/
theorem leading_eq_iff {known full : Facets} {names : List String}
    (h : ∀ name value, known.value? name = some value → full.value? name = some value) :
    known.leading names = full.leading names ↔ ∀ name ∈ (full.leading names).map Prod.fst, known.has name = true := by
  induction names with
  | nil => simp [leading]
  | cons name rest ih =>
    rw [leading, leading]
    cases hknown : known.value? name with
    | none =>
      have hhas : ¬ known.has name = true := by rw [has, hknown]; simp
      cases full.value? name with
      | none => simp
      | some value => simp [hhas]
    | some value =>
      have hhas : known.has name = true := by rw [has, hknown]; rfl
      rw [h name value hknown]
      simp only [List.cons.injEq, true_and, List.map_cons, List.forall_mem_cons, hhas]
      exact ih

end Facets

/-- Keys tell how far they were composed. -/
theorem composeKey_eq_iff (scope : String) {known full : Facets} {names : List String}
    (h : ∀ name value, known.value? name = some value → full.value? name = some value) :
    composeKey scope names known = composeKey scope names full ↔
      ∀ name ∈ (full.leading names).map Prod.fst, known.has name = true := by
  rw [← Facets.leading_eq_iff h]
  obtain ⟨more, hmore⟩ := Facets.leading_append fun name (_ : name ∈ names) value => h name value
  rw [← String.toList_inj, toList_composeKey, toList_composeKey, hmore, Facets.segments_append,
    List.append_cancel_left_eq, List.self_eq_append_right, List.self_eq_append_right, Facets.segments_eq_nil]

/-- What is left out of a search changes nothing unless it is found first. -/
theorem findSome?_filter {α β : Type} {f : α → Option β} {keep : α → Bool} {list : List α}
    (h : ∀ before a after, list = before ++ a :: after → (∀ b ∈ before, f b = none) → keep a = false → f a = none) :
    (list.filter keep).findSome? f = list.findSome? f := by
  cases hlist : list.findSome? f with
  | none =>
    rw [List.findSome?_eq_none_iff] at hlist ⊢
    exact fun a ha => hlist a (List.mem_of_mem_filter ha)
  | some b =>
    obtain ⟨before, a, after, rfl, ha, hbefore⟩ := List.findSome?_eq_some_iff.mp hlist
    have hkeep : keep a = true := by
      refine Bool.of_not_eq_false fun hdrop => ?_
      rw [h before a after rfl hbefore hdrop] at ha
      exact nomatch ha
    rw [List.filter_append, List.filter_cons_of_pos hkeep]
    exact List.findSome?_eq_some_iff.mpr ⟨_, _, _, rfl, ha, fun b hb => hbefore b (List.mem_of_mem_filter hb)⟩

theorem Entity.facets_withoutNulls (e : Entity) (input : Json) :
    e.facets input.withoutNulls = (e.facets input).map Facets.present := by
  unfold facets
  rw [Facets.ofJson_withoutNulls]
  cases Facets.ofJson input with
  | error fault => rfl
  | ok facets =>
    have hfault : facets.present.entries.findSome? e.entryFault? = facets.entries.findSome? e.entryFault? := by
      refine findSome?_filter fun before entry after _ _ hdrop => ?_
      rw [entryFault?, if_pos ((Bool.not_eq_false' _).mp hdrop)]
    simp only [Except.map, hfault]
    cases facets.entries.findSome? e.entryFault? <;> rfl

namespace Query

/-! ### Chains -/

/-- The chain that starts without the nulls. -/
def withoutNulls (q : Query) : Query := { q with facets := q.facets.present }

theorem keys_congr (r : Registry) (i : Index) {a b : Facets} (h : ∀ name, a.value? name = b.value? name) :
    r.partitionKey i a = r.partitionKey i b ∧ r.sortKey i a = r.sortKey i b :=
  ⟨composeKey_congr _ fun name _ => h name, composeKey_congr _ fun name _ => h name⟩

theorem start_present (e : Entity) (index : Index) (facets : Facets) :
    start e index facets.present = (start e index facets).map withoutNulls := by
  unfold start
  rw [Facets.require_present, (keys_congr e.registry index facets.value?_present).1]
  cases facets.require index.partition.facets Entity.partitionLabel <;> rfl

/-- The nulls that a chain starts with are not in its parameters. -/
theorem params_withoutNulls (q : Query) : q.withoutNulls.params = q.params := by
  have hrange : q.withoutNulls.sortRange = q.sortRange := by
    show q.range.getD (.beginsWith (q.entity.registry.sortKey q.index q.facets.present)) = _
    rw [(keys_congr q.entity.registry q.index q.facets.value?_present).2]
    rfl
  unfold params keyPhrase rangePhrase
  rw [hrange]
  rfl

end Query

theorem Entity.query_withoutNulls (e : Entity) (pattern : String) (input : Json) :
    e.query pattern input.withoutNulls = (e.query pattern input).map Query.withoutNulls := by
  unfold query
  rw [facets_withoutNulls]
  cases e.registry.byName pattern with
  | error fault => rfl
  | ok index =>
    cases e.facets input with
    | error fault => rfl
    | ok facets => exact Query.start_present e index facets

namespace Query

/-! ### Bounds -/

/-- The facets that the keys of an index are composed of, up to the gap in each. -/
def composed (i : Index) (values : Facets) : List String :=
  (values.leading i.partition.facets).map Prod.fst ++ (values.leading i.sortFacets).map Prod.fst

/-- A null among the facets of a range erases a facet of the chain that the keys would be composed of. -/
def Erases (q : Query) (partialFacets : Json) : Prop :=
  ∃ given, q.entity.facets partialFacets = .ok given ∧
    ∃ name ∈ composed q.index (given.present.onto q.facets),
      given.get? name = some .null ∧ q.facets.has name = true

/-- The sort key of some facets, for the partition key of the chain. -/
def bound (q : Query) (facets : Facets) : Except Fault String :=
  if q.entity.registry.partitionKey q.index facets = q.partitionKey then .ok (q.entity.registry.sortKey q.index facets)
  else .error (.chain (.partitionChanged q.index.name))

theorem boundOf_eq (q : Query) {partialFacets : Json} {given : Facets} (h : q.entity.facets partialFacets = .ok given) :
    q.boundOf partialFacets = q.bound (given.onto q.facets) := by
  rw [boundOf, h]
  rfl

theorem has_of_mem_leading {values : Facets} {names : List String} {name : String}
    (h : name ∈ (values.leading names).map Prod.fst) : values.has name = true := by
  obtain ⟨pair, hpair, rfl⟩ := List.mem_map.mp h
  rw [Facets.has, (Facets.value?_of_mem_leading hpair).2, Option.isSome_some]

/-- Nothing is erased exactly when both keys are as they are without the nulls. -/
theorem not_erases_iff {q : Query} {partialFacets : Json} {given : Facets}
    (h : q.entity.facets partialFacets = .ok given) :
    ¬ q.Erases partialFacets ↔
      q.entity.registry.partitionKey q.index (given.onto q.facets) =
          q.entity.registry.partitionKey q.index (given.present.onto q.facets) ∧
        q.entity.registry.sortKey q.index (given.onto q.facets) =
          q.entity.registry.sortKey q.index (given.present.onto q.facets) := by
  have hle := fun name value => @Facets.value?_onto_le given q.facets name value
  have hkey (scope : String) (names : List String) :
      composeKey scope names (given.onto q.facets) = composeKey scope names (given.present.onto q.facets) ↔
        ∀ name ∈ ((given.present.onto q.facets).leading names).map Prod.fst,
          ¬ (given.get? name = some .null ∧ q.facets.has name = true) := by
    rw [composeKey_eq_iff scope hle]
    apply forall_congr'
    intro name
    apply forall_congr'
    intro hname
    exact Facets.has_onto_iff (has_of_mem_leading hname)
  unfold Registry.partitionKey Registry.sortKey
  rw [hkey, hkey, ← List.forall_mem_append]
  constructor
  · intro hno name hname herased
    exact hno ⟨given, h, name, hname, herased⟩
  · rintro hno ⟨given', h', name, hname, herased⟩
    obtain rfl := Except.ok.inj (h'.symm.trans h)
    exact hno name hname herased

theorem boundOf_withoutNulls_eq {q : Query} {partialFacets : Json} {given : Facets}
    (h : q.entity.facets partialFacets = .ok given) :
    q.withoutNulls.boundOf partialFacets.withoutNulls = q.bound (given.present.onto q.facets) := by
  have hgiven : q.entity.facets partialFacets.withoutNulls = .ok given.present := by
    rw [Entity.facets_withoutNulls, h]
    rfl
  have hvalue (name : String) : (given.present.onto q.facets.present).value? name =
      (given.present.onto q.facets).value? name := by
    rw [Facets.value?_onto_present, Facets.value?_onto_present, Facets.value?_present]
  obtain ⟨hpartition, hsort⟩ := keys_congr q.entity.registry q.index hvalue
  rw [q.withoutNulls.boundOf_eq hgiven]
  unfold bound
  show (if q.entity.registry.partitionKey q.index (given.present.onto q.facets.present) = _ then
    Except.ok (q.entity.registry.sortKey q.index (given.present.onto q.facets.present)) else _) = _
  rw [hpartition, hsort]
  rfl

/-- **The bound of a range is the one without the nulls, if they erase nothing.** -/
theorem boundOf_withoutNulls {q : Query} {partialFacets : Json} (h : ¬ q.Erases partialFacets) :
    q.withoutNulls.boundOf partialFacets.withoutNulls = q.boundOf partialFacets := by
  cases hfacets : q.entity.facets partialFacets with
  | error fault =>
    have hwithout : q.withoutNulls.entity.facets partialFacets.withoutNulls = .error fault := by
      show q.entity.facets partialFacets.withoutNulls = .error fault
      rw [Entity.facets_withoutNulls, hfacets]
      rfl
    rw [boundOf, boundOf, hfacets, hwithout]
  | ok given =>
    obtain ⟨hpartition, hsort⟩ := (not_erases_iff hfacets).mp h
    rw [boundOf_withoutNulls_eq hfacets, boundOf_eq q hfacets, bound, bound, hpartition, hsort]

/-- A bound is only the same when the nulls erase nothing. -/
theorem not_erases_of_boundOf {q : Query} {partialFacets : Json} {key : String}
    (hwith : q.boundOf partialFacets = .ok key)
    (hwithout : q.withoutNulls.boundOf partialFacets.withoutNulls = .ok key) : ¬ q.Erases partialFacets := by
  have hkeys {facets : Facets} (h : q.bound facets = .ok key) :
      q.entity.registry.partitionKey q.index facets = q.partitionKey ∧
        q.entity.registry.sortKey q.index facets = key := by
    unfold bound at h
    split at h
    · next hpartition => exact ⟨hpartition, Except.ok.inj h⟩
    · exact nomatch h
  cases hfacets : q.entity.facets partialFacets with
  | error fault =>
    rw [boundOf, hfacets] at hwith
    exact nomatch hwith
  | ok given =>
    rw [boundOf_eq q hfacets] at hwith
    rw [boundOf_withoutNulls_eq hfacets] at hwithout
    obtain ⟨hpartition, hsort⟩ := hkeys hwith
    obtain ⟨hpartition', hsort'⟩ := hkeys hwithout
    exact (not_erases_iff hfacets).mpr ⟨hpartition.trans hpartition'.symm, hsort.trans hsort'.symm⟩

/-! ### Steps -/

/-- The facets that a step puts a range by. -/
def Step.partials : Step → List Json
  | .compare _ facets | .beginsWith facets => [facets]
  | .between low high => [low, high]
  | .filter _ | .named _ _ => []

def Step.withoutNulls : Step → Step
  | .compare comparison facets => .compare comparison facets.withoutNulls
  | .beginsWith facets => .beginsWith facets.withoutNulls
  | .between low high => .between low.withoutNulls high.withoutNulls
  | other => other

theorem Step.conditions_withoutNulls (s : Step) (e : Entity) : s.withoutNulls.conditions e = s.conditions e := by
  cases s <;> rfl

theorem filter_withoutNulls (q : Query) (condition : Condition) :
    q.withoutNulls.filter condition = (q.filter condition).map withoutNulls := by
  show (q.clauses.apply q.entity.surface condition).map _ = ((q.clauses.apply q.entity.surface condition).map _).map _
  cases q.clauses.apply q.entity.surface condition <;> rfl

/-- **A step without the nulls leads to the same chain without the nulls, if they erase nothing.** -/
theorem step_withoutNulls {q : Query} {s : Step} (h : ∀ facets ∈ s.partials, ¬ q.Erases facets) :
    q.withoutNulls.step s.withoutNulls = (q.step s).map withoutNulls := by
  have hfault : q.withoutNulls.rangeFault? = q.rangeFault? := rfl
  cases s with
  | compare comparison facets =>
    have hbound := boundOf_withoutNulls (h facets (List.mem_singleton_self _))
    simp only [Step.withoutNulls, step, compare, hfault, hbound]
    cases q.rangeFault? with
    | some fault => rfl
    | none => cases q.boundOf facets <;> rfl
  | beginsWith facets =>
    have hbound := boundOf_withoutNulls (h facets (List.mem_singleton_self _))
    simp only [Step.withoutNulls, step, beginsWith, hfault, hbound]
    cases q.rangeFault? with
    | some fault => rfl
    | none => cases q.boundOf facets <;> rfl
  | between low high =>
    have hlow := boundOf_withoutNulls (h low (List.mem_cons_self ..))
    have hhigh := boundOf_withoutNulls (h high (List.mem_cons_of_mem _ (List.mem_singleton_self _)))
    simp only [Step.withoutNulls, step, between, hfault, hlow, hhigh]
    cases q.rangeFault? with
    | some fault => rfl
    | none =>
      cases q.boundOf low with
      | error fault => rfl
      | ok low => cases q.boundOf high <;> rfl
  | filter condition => exact q.filter_withoutNulls condition
  | named name arguments =>
    have hfilters : q.withoutNulls.entity.filters.get? name = q.entity.filters.get? name := rfl
    show named q.withoutNulls name arguments = (q.named name arguments).map withoutNulls
    rw [named, named, hfilters]
    cases q.entity.filters.get? name with
    | none => rfl
    | some f => exact q.filter_withoutNulls _

/-- The parameters of a chain on an index with a sort key tell its range. -/
theorem sortRange_eq_of_params {q q' : Query} (hindex : q.index = q'.index) (hsort : q.index.sort.isSome = true)
    (h : q.params = q'.params) : q.sortRange = q'.sortRange := by
  obtain ⟨sort, hsort⟩ := Option.isSome_iff_exists.mp hsort
  have hkey := q.params_key
  have hkey' := q'.params_key
  rw [← h, ← hindex] at hkey'
  obtain ⟨phrase, hphrase⟩ : ∃ phrase, q.params.key.sort = some phrase := by
    rw [← Option.isSome_iff_exists, hkey.present, hsort, Option.isSome_some]
  exact ((hkey.sort phrase sort hphrase hsort).unique (hkey'.sort phrase sort hphrase hsort)).2

/-- Steps that put the same range erase nothing. -/
theorem not_erases_of_range? {q : Query} {s : Step} {range : SortRange} (hwith : s.range? q = some range)
    (hwithout : s.withoutNulls.range? q.withoutNulls = some range) : ∀ facets ∈ s.partials, ¬ q.Erases facets := by
  cases s with
  | compare comparison facets =>
    obtain ⟨key, hkey, rfl⟩ := Option.map_eq_some_iff.mp hwith
    obtain ⟨key', hkey', heq⟩ := Option.map_eq_some_iff.mp hwithout
    obtain ⟨-, rfl⟩ := SortRange.compare.inj heq
    rw [Step.partials, List.forall_mem_singleton]
    exact not_erases_of_boundOf (Fault.ok_of_toOption hkey) (Fault.ok_of_toOption hkey')
  | beginsWith facets =>
    obtain ⟨key, hkey, rfl⟩ := Option.map_eq_some_iff.mp hwith
    obtain ⟨key', hkey', heq⟩ := Option.map_eq_some_iff.mp hwithout
    obtain rfl := SortRange.beginsWith.inj heq
    rw [Step.partials, List.forall_mem_singleton]
    exact not_erases_of_boundOf (Fault.ok_of_toOption hkey) (Fault.ok_of_toOption hkey')
  | between low high =>
    obtain ⟨lower, hlow, hwith⟩ := Option.bind_eq_some_iff.mp hwith
    obtain ⟨upper, hhigh, rfl⟩ := Option.map_eq_some_iff.mp hwith
    obtain ⟨lower', hlow', hwithout⟩ := Option.bind_eq_some_iff.mp hwithout
    obtain ⟨upper', hhigh', heq⟩ := Option.map_eq_some_iff.mp hwithout
    obtain ⟨rfl, rfl⟩ := SortRange.between.inj heq
    rw [Step.partials, List.forall_mem_cons, List.forall_mem_singleton]
    exact ⟨not_erases_of_boundOf (Fault.ok_of_toOption hlow) (Fault.ok_of_toOption hlow'),
      not_erases_of_boundOf (Fault.ok_of_toOption hhigh) (Fault.ok_of_toOption hhigh')⟩
  | filter condition | named name arguments => exact fun facets hfacets => nomatch hfacets

/-- **A step that asks for the same with and without the nulls erases nothing.** -/
theorem not_erases_of_params {q r r' : Query} {s : Step} (hwith : q.step s = .ok r)
    (hwithout : q.withoutNulls.step s.withoutNulls = .ok r') (hparams : r.params = r'.params) :
    ∀ facets ∈ s.partials, ¬ q.Erases facets := by
  rcases step_ok hwith with ⟨range, hrange, hconditions, hfault, rfl⟩ | ⟨condition, clauses, -, hconditions, -, rfl⟩
  · rcases step_ok hwithout with ⟨range', hrange', -, -, rfl⟩ | ⟨condition, clauses, -, hconditions', -, rfl⟩
    · have heq : range = range' := @sortRange_eq_of_params (q.withRange range) (q.withoutNulls.withRange range') rfl
        (rangeFault?_eq_none hfault).2 hparams
      subst heq
      exact not_erases_of_range? hrange hrange'
    · have hnone : s.conditions q.entity = [condition] := s.conditions_withoutNulls q.entity ▸ hconditions'
      rw [hconditions] at hnone
      exact nomatch hnone
  · cases s with
    | compare | beginsWith | between => exact nomatch hconditions
    | filter | named => exact fun facets hfacets => nomatch hfacets

end Query

/-! ### A range on a fresh chain -/

/-- What a chain asks for after one step, or what is wrong with its facets or with the step. -/
def Entity.ranged (e : Entity) (pattern : String) (input : Json) (s : Query.Step) : Except Fault QueryParams :=
  match e.query pattern input with
  | .error fault => .error fault
  | .ok q => (q.step s).map Query.params

/-- A null among the facets of a step erases a facet that its chain starts with. -/
def Entity.Erases (e : Entity) (pattern : String) (input : Json) (s : Query.Step) : Prop :=
  ∃ q, e.query pattern input = .ok q ∧ ∃ facets ∈ s.partials, q.Erases facets

/-- **Nulls count as absent in a query, up to those that erase.** If none of them erases a facet of the
chain that the keys of the range are composed of, the step succeeds or fails as it does without the
nulls, and asks for the same; where it succeeds without them, it is only then that it asks for the same. -/
theorem Entity.ranged_eq_unless_erased (e : Entity) (pattern : String) (input : Json) (s : Query.Step) :
    (¬ e.Erases pattern input s → e.ranged pattern input s = e.ranged pattern input.withoutNulls s.withoutNulls) ∧
      ∀ p, e.ranged pattern input.withoutNulls s.withoutNulls = .ok p →
        (e.ranged pattern input s = .ok p ↔ ¬ e.Erases pattern input s) := by
  have hsame (h : ¬ e.Erases pattern input s) :
      e.ranged pattern input s = e.ranged pattern input.withoutNulls s.withoutNulls := by
    unfold ranged
    rw [query_withoutNulls]
    cases hquery : e.query pattern input with
    | error fault => rfl
    | ok q =>
      have hstep := Query.step_withoutNulls fun facets hfacets herases => h ⟨q, hquery, facets, hfacets, herases⟩
      show (q.step s).map Query.params = (q.withoutNulls.step s.withoutNulls).map Query.params
      rw [hstep]
      cases q.step s with
      | error fault => rfl
      | ok r =>
        show Except.ok r.params = .ok r.withoutNulls.params
        rw [r.params_withoutNulls]
  refine ⟨hsame, fun p hwithout => ⟨fun hwith => ?_, fun h => (hsame h).trans hwithout⟩⟩
  rintro ⟨q, hquery, facets, hfacets, herases⟩
  unfold ranged at hwith hwithout
  rw [query_withoutNulls, hquery] at hwithout
  rw [hquery] at hwith
  obtain ⟨r, hstep, rfl⟩ := Fault.map_ok hwith
  obtain ⟨r', hstep', hparams⟩ := Fault.map_ok hwithout
  exact Query.not_erases_of_params hstep hstep' hparams facets hfacets herases

/-- A floor of a building, to start a chain by. -/
def floorFacets : Json := .object [("building", .string "A"), ("floor", .string "1"), ("note", .null)]

/-- The theorem for a null that erases nothing and for one that does. -/
theorem Entity.ranged_eq_unless_erased_floor : ∃ e, ofSchema rooms = .ok e ∧
    e.ranged "building" floorFacets (.beginsWith (.object [("id", .null)])) =
      e.ranged "building" floorFacets.withoutNulls (.beginsWith (.object [])) ∧
    ∃ p, e.ranged "building" floorFacets.withoutNulls (.beginsWith (.object [])) = .ok p ∧
      e.ranged "building" floorFacets (.beginsWith (.object [("floor", .null)])) ≠ .ok p := by
  refine ⟨_, rfl, (ranged_eq_unless_erased _ "building" floorFacets (.beginsWith (.object [("id", .null)]))).1 ?_, _, rfl, ?_⟩
  · rintro ⟨q, hquery, facets, hfacets, given, hgiven, name, -, hnull, hhas⟩
    obtain rfl := Except.ok.inj hquery
    obtain rfl := List.mem_singleton.mp hfacets
    obtain rfl := Except.ok.inj hgiven
    obtain ⟨rfl, -⟩ := Prod.mk.inj (List.mem_singleton.mp (Dict.mem_entries_iff.mpr hnull))
    exact nomatch hhas
  · intro hwith
    refine ((ranged_eq_unless_erased _ "building" floorFacets (.beginsWith (.object [("floor", .null)]))).2 _ rfl).mp hwith ?_
    exact ⟨_, rfl, _, List.mem_singleton_self _, _, rfl, "floor", by decide, rfl, rfl⟩

/-- A null for the floor erases the floor of the chain: the range is that of the whole building, where
without the null it is that of the floor. -/
theorem Entity.ranged_widened : ∃ e p p', ofSchema rooms = .ok e ∧
    e.ranged "building" floorFacets (.beginsWith (.object [("floor", .null)])) = .ok p ∧
    e.ranged "building" floorFacets.withoutNulls (.beginsWith (.object [])) = .ok p' ∧
    p.values.get? ":sk1" = some (.string "$room") ∧ p'.values.get? ":sk1" = some (.string "$room#floor_1") := by
  exact ⟨_, _, _, rfl, rfl, rfl, rfl, rfl⟩

end SingleTable
