import SingleTable.Query.Find
import SingleTable.Proofs.Item.Put
import SingleTable.Proofs.Query.Params

/-! No stored item is missed.

A query knows some of the facets of an item, and its key condition asks for a
partition key and the beginning of a sort key that they compose. The item was
stored under keys that all facets compose. `stored_item_found` says that these
fit: an item that has the values asked for satisfies the key condition, and the
equalities that a search leaves to its filter. -/
namespace SingleTable

/-! ### Conditions on a stored item -/

/-- A key condition without a range holds of an item: it has the partition key, and
its sort key goes on from the one asked for. -/
structure KeyPhrase.Finds (names : Dict String) (values : Dict Json) (item : Dict Json) (index : Index)
    (k : KeyPhrase) : Prop where
  name : names.get? k.name = some index.partition.field
  value : ∃ key, values.get? k.value = some key ∧ item.get? index.partition.field = some key
  unsorted : index.sort = none → k.sort = none
  sort : ∀ key, index.sort = some key → ∃ name start bound rest, k.sort = some (.beginsWith name start) ∧
    names.get? name = some key.field ∧ values.get? start = some (.string bound) ∧
    item.get? key.field = some (.string (bound ++ rest))

/-- A test for equality holds of an item. -/
structure Phrase.Test.Equates (names : Dict String) (values : Dict Json) (item : Dict Json)
    (t : Phrase.Test) : Prop where
  operator : t.operator = .eq
  fields : ∃ field placeholder value, names.get? t.name = some field ∧ t.values = [placeholder] ∧
    values.get? placeholder = some value ∧ item.get? field = some value

def Phrase.Test.phrase (t : Phrase.Test) : Phrase := .test t.operator t.name t.values

/-! ### Key conditions -/

namespace Query

/-- Whether a step puts no range on the chain. -/
def Step.isFilter : Step → Bool
  | .filter _ | .named _ _ => true
  | _ => false

theorem Step.range?_of_isFilter {s : Step} (h : s.isFilter = true) (q : Query) : s.range? q = none := by
  cases s with
  | filter | named => rfl
  | compare | beginsWith | between => exact nomatch h

/-- Filters put no range on any chain. -/
theorem range_of_filters {steps : List Step} (h : ∀ s ∈ steps, s.isFilter = true) (q : Query) :
    steps.findSome? (Step.range? q) = none :=
  List.findSome?_eq_none_iff.mpr fun s hs => s.range?_of_isFilter (h s hs) q

theorem Step.isFilter_eq_false_of_range? {q : Query} {s : Step} {range : SortRange} (h : s.range? q = some range) :
    s.isFilter = false := by
  cases s with
  | compare | beginsWith | between => rfl
  | filter | named => exact nomatch h

/-- A step that filters by a condition puts no range on the chain. -/
theorem Step.isFilter_of_conditions {e : Entity} {s : Step} {condition : Condition}
    (h : s.conditions e = [condition]) : s.isFilter = true := by
  cases s with
  | filter | named => rfl
  | compare | beginsWith | between => exact nomatch h

/-- A range among the steps is the one that the chain keeps. -/
theorem range_of_mem {e : Entity} {index : Index} {facets : Facets} {q₀ q : Query} {steps : List Step}
    (hstart : start e index facets = .ok q₀) (hrun : q₀.run steps = .ok q) {s : Step} (hmem : s ∈ steps)
    (hs : s.isFilter = false) :
    index.sort.isSome = true ∧ ∃ range, s.range? q₀ = some range ∧ steps.findSome? (Step.range? q₀) = some range := by
  obtain ⟨before, after, rfl⟩ := List.append_of_mem hmem
  obtain ⟨q₁, hbefore, hafter⟩ := run_append hrun
  have hreached := (Reached.start hstart).run hbefore
  obtain ⟨q₂, hstep, -⟩ := run_cons_ok hafter
  rcases step_ok hstep with ⟨range, hput, -, hfault, -⟩ | ⟨condition, clauses, -, hconditions, -, -⟩
  · obtain ⟨hseeded, hsort⟩ := rangeFault?_eq_none hfault
    have hnone := hreached.fresh hseeded
    rw [hreached.range, List.nil_append] at hnone
    rw [hreached.range?_eq] at hput
    obtain ⟨-, rfl⟩ := start_ok hstart
    rw [hreached.index] at hsort
    refine ⟨hsort, range, hput, ?_⟩
    rw [List.findSome?_append, hnone, Option.none_or, List.findSome?_cons, hput]
  · rw [Step.isFilter_of_conditions hconditions] at hs
    cases hs

/-- What is known of an item's facets is what its attributes say. -/
def Knows (names : List String) (known full : Facets) : Prop :=
  ∀ name ∈ names, ∀ value, known.value? name = some value → full.get? name = some value

theorem Knows.value? {names : List String} {known full : Facets} (h : Knows names known full) :
    ∀ name ∈ names, ∀ value, known.value? name = some value → full.value? name = some value := by
  intro name hname value hvalue
  have hne := (Facets.value?_eq_some_iff.mp hvalue).2
  exact Facets.value?_eq_some_iff.mpr ⟨h name hname value hvalue, hne⟩

/-- **A chain without a range finds every item of which it knows the facets.** -/
theorem finds {e : Entity} (he : e.Accepted) {input : Json} {p : Put} (hput : e.put input = .ok p)
    {index : Index} (hindex : index ∈ e.registry.indexes) {facets : Facets} {q₀ q : Query} {steps : List Step}
    (hstart : start e index facets = .ok q₀) (hrun : q₀.run steps = .ok q)
    (hsteps : ∀ s ∈ steps, s.isFilter = true) (hknows : Knows index.facetNames facets p.attributes) :
    q.params.key.Finds q.params.names q.params.values p.item index := by
  obtain ⟨hname, hvalue, hpresent, hsort⟩ := key_of_run hstart hrun
  obtain ⟨hhas, -⟩ := start_ok hstart
  obtain ⟨-, -, hitem⟩ := Entity.put_ok hput
  rw [range_of_filters hsteps, Option.getD_none] at hsort
  have hpartition : e.registry.partitionKey index facets =
      composeKey e.registry.partitionScope index.partition.facets p.attributes :=
    composeKey_eq_of_has _ hhas fun name hmem => hknows.value? name (List.mem_append_left _ hmem)
  refine ⟨hname, ⟨_, hvalue, ?_⟩, fun hnone => ?_, fun key hkey => ?_⟩
  · rw [hitem, hpartition]
    exact he.item_key p.attributes hindex (List.mem_cons_self ..)
  · rw [hnone, Option.isSome_none, Option.isSome_eq_false_iff, Option.isNone_iff_eq_none] at hpresent
    exact hpresent
  · rw [hkey, Option.isSome_some] at hpresent
    obtain ⟨phrase, hphrase⟩ := Option.isSome_iff_exists.mp hpresent
    have hscoped := e.registry.scoped_sort hkey
    obtain ⟨rest, hrest⟩ : ∃ rest, composeKey e.registry.sortScope key.facets p.attributes =
        e.registry.sortKey index facets ++ rest := by
      rw [Registry.sortKey_eq _ hkey]
      refine exists_composeKey_eq_append _ fun name hmem => hknows.value? name ?_
      exact Registry.mem_facetNames_of_keyField (Registry.mem_keyFields_of_scoped hscoped) hmem
    cases hsort phrase key hphrase hkey with
    | beginsWith hsortName hbound =>
      refine ⟨_, _, _, rest, hphrase, hsortName, hbound, ?_⟩
      rw [hitem, ← hrest]
      exact he.item_key p.attributes hindex hscoped

end Query

/-! ### Where a chain starts -/

theorem Registry.byName_ok {r : Registry} {name : String} {i : Index} (h : r.byName name = .ok i) :
    i ∈ r.indexes := by
  unfold byName at h
  split at h
  · next j hj =>
    obtain rfl := Except.ok.inj h
    exact List.mem_of_find?_eq_some hj
  · exact nomatch h

/-- A route is of an index whose partition facets are all supplied, and matches the sort facets up to
the first that is not. -/
theorem Registry.route?_ok {r : Registry} {supplied : List String} {route : Route}
    (h : r.route? supplied = some route) :
    route.index ∈ r.indexes ∧ (∀ name ∈ route.index.partition.facets, name ∈ supplied) ∧
      route.sortFacets = route.index.sortFacets.takeWhile (· ∈ supplied) := by
  obtain ⟨i, hi, hroute⟩ := List.mem_filterMap.mp (Route.best?_mem h)
  unfold Route.of? at hroute
  split at hroute
  · next hall =>
    obtain rfl := Option.some.inj hroute
    exact ⟨hi, by simpa using hall, rfl⟩
  · exact nomatch hroute

/-- Of some values, those that a route matches. -/
def Route.matched (r : Route) (supplied : Facets) : Facets := supplied.present.filter fun name _ => name ∈ r.facets

/-- The values that it leaves. -/
def Route.remaining (r : Route) (supplied : Facets) : Facets := supplied.present.filter fun name _ => name ∉ r.facets

namespace Entity

theorem query_ok {e : Entity} {pattern : String} {given : Json} {q : Query} (h : e.query pattern given = .ok q) :
    ∃ facets, e.facets given = .ok facets ∧ q.index ∈ e.registry.indexes ∧
      Query.start e q.index facets = .ok q := by
  unfold query at h
  split at h
  · exact nomatch h
  next index hindex =>
  split at h
  · exact nomatch h
  next facets hfacets =>
  have hq : q.index = index := by
    obtain ⟨-, rfl⟩ := Query.start_ok h
    rfl
  rw [hq]
  exact ⟨facets, hfacets, Registry.byName_ok hindex, h⟩

/-- A search is a chain on the index of a route with the values that the route matches, filtered by
the others if there are any. -/
theorem find_route {e : Entity} {given : Json} {q : Query} (h : e.find given = .ok q) :
    ∃ supplied route q₀, e.facets given = .ok supplied ∧ e.registry.route? supplied.present.keys = some route ∧
      q.index = route.index ∧ Query.start e route.index (route.matched supplied) = .ok q₀ ∧
      ((route.remaining supplied).isEmpty = true ∧ q = q₀ ∨
        (route.remaining supplied).isEmpty = false ∧
          q₀.filter (equalities (route.remaining supplied).entries) = .ok q) := by
  unfold find at h
  split at h
  · exact nomatch h
  next supplied hsupplied =>
  split at h
  · exact nomatch h
  next route hroute =>
  simp only at h
  split at h
  · exact nomatch h
  next q₀ hstart =>
  refine ⟨supplied, route, q₀, hsupplied, hroute, ?_, hstart, ?_⟩
  · obtain ⟨-, rfl⟩ := Query.start_ok hstart
    split at h
    · rw [← Except.ok.inj h]
    · obtain ⟨clauses, -, rfl⟩ := Fault.map_ok h
      rfl
  · split at h
    · next hempty => exact .inl ⟨hempty, (Except.ok.inj h).symm⟩
    · next hremaining => exact .inr ⟨Bool.eq_false_iff.mpr hremaining, h⟩

/-- A search is a chain on the index of a route, filtered by whatever the route leaves. -/
theorem find_ok {e : Entity} {given : Json} {q : Query} (h : e.find given = .ok q) :
    ∃ supplied matched remaining q₀, e.facets given = .ok supplied ∧ q.index ∈ e.registry.indexes ∧
      (∀ name value, matched.get? name = some value → supplied.value? name = some value) ∧
      (∀ name value, (name, value) ∈ remaining → supplied.value? name = some value) ∧
      Query.start e q.index matched = .ok q₀ ∧
      (q = q₀ ∨ q₀.filter (equalities remaining) = .ok q) := by
  obtain ⟨supplied, route, q₀, hsupplied, hroute, hindex, hstart, hq⟩ := find_route h
  refine ⟨supplied, route.matched supplied, (route.remaining supplied).entries, q₀, hsupplied, ?_,
    fun name value hget => ?_, fun name value hmem => ?_, hindex ▸ hstart, hq.imp And.right And.right⟩
  · rw [hindex]
    exact (Registry.route?_ok hroute).1
  · exact (Facets.get?_present ..).symm.trans (Dict.get?_filter hget).1
  · exact (Facets.get?_present ..).symm.trans (Dict.get?_filter (Dict.mem_entries_iff.mp hmem)).1

end Entity

/-! ### Filters of a search -/

namespace Condition

/-- The parts of a join that are tests are written as tests. -/
theorem compileParts_tests {surface : Surface} {connective : Connective} {parts : List Condition}
    {b b' : Bindings} {phrases : List Phrase}
    (hparts : ∀ part ∈ parts, ∃ name operator operands, part = .test name operator operands)
    (h : compileParts surface connective parts b = .ok (phrases, b')) :
    phrases = (Phrase.testsOf phrases).map Phrase.Test.phrase := by
  induction parts generalizing b phrases with
  | nil =>
    obtain ⟨rfl, rfl⟩ := Prod.mk.inj (Except.ok.inj h)
    rfl
  | cons part rest ih =>
    obtain ⟨name, operator, operands, rfl⟩ := hparts part (List.mem_cons_self ..)
    obtain ⟨p, b₁, others, hpart, hrest, rfl⟩ := compileParts_cons_ok h
    obtain ⟨-, placeholders, -, -, -, rfl⟩ := compile_test_ok hpart
    have hothers := ih (fun part hmem => hparts part (List.mem_cons_of_mem _ hmem)) hrest
    show _ :: others = _ :: (Phrase.testsOf others).map Phrase.Test.phrase
    rw [← hothers]
    rfl

end Condition

theorem Entity.tests_equalities (entries : List (String × Json)) :
    (equalities entries).tests = entries.map fun entry => ⟨entry.1, .eq, [entry.2]⟩ := by
  rw [equalities, Condition.all, Condition.tests]
  induction entries with
  | nil => rfl
  | cons entry rest ih => rw [List.map_cons, Condition.testsOf, ih]; rfl

/-- The filter of a search is a conjunction of tests. -/
theorem Query.filter_equalities {e : Entity} {index : Index} {facets : Facets} {q₀ q : Query}
    {entries : List (String × Json)} (hstart : start e index facets = .ok q₀)
    (h : q₀.filter (Entity.equalities entries) = .ok q) {phrase : Phrase} (hphrase : q.params.filter = some phrase) :
    phrase = .chain .and (phrase.tests.map Phrase.Test.phrase) := by
  obtain ⟨-, rfl⟩ := start_ok hstart
  obtain ⟨clauses, happly, rfl⟩ := Fault.map_ok h
  obtain ⟨written, hcompile, hphrases⟩ := Clauses.apply_ok happly
  obtain ⟨phrases, hparts, rfl⟩ := Condition.compile_join_ok hcompile
  have htests := Condition.compileParts_tests (fun part hmem => ?_) hparts
  · cases phrases with
    | nil =>
      have hnone : clauses.phrase? = none := by rw [Clauses.phrase?, hphrases]; rfl
      simp [params, Expressions.join, hnone] at hphrase
    | cons first rest =>
      have hsome : clauses.phrase? = some (.chain .and (first :: rest)) := by rw [Clauses.phrase?, hphrases]; rfl
      simp only [params, Expressions.join, hsome, Option.some.injEq] at hphrase
      rw [← hphrase, Phrase.tests, ← htests]
  · obtain ⟨entry, -, rfl⟩ := List.mem_map.mp hmem
    exact ⟨_, _, _, rfl⟩

/-! ### The theorem -/

/-- The placeholders of a written test for equality are an attribute's field and a value. -/
theorem Phrase.Test.StandsFor.equality {e : Entity} {names : Dict String} {values : Dict Json} {t : Phrase.Test}
    {name : String} {value : Json} (h : t.StandsFor e.surface names values ⟨name, .eq, [value]⟩) :
    ∃ a placeholder, e.attributes.get? name = some a ∧ names.get? t.name = some a.field ∧
      t.values = [placeholder] ∧ values.get? placeholder = some value := by
  obtain ⟨-, ⟨field, hfield, hname⟩, hoperands⟩ := h
  obtain ⟨placeholder, rest, hplaceholder, hrest, hvalues⟩ := List.forall₂_cons_right_iff.mp hoperands
  rw [List.forall₂_nil_right_iff] at hrest
  subst hrest
  obtain ⟨a, ha, rfl⟩ := Surface.field_ok hfield
  exact ⟨a, placeholder, ha, hname, hvalues, hplaceholder⟩

/-- A written test for equality holds of an item that has the value. -/
theorem Phrase.Test.equates_of_standsFor {e : Entity} (he : e.Accepted) {resolved : Facets} {names : Dict String}
    {values : Dict Json} {t : Phrase.Test} {name : String} {value : Json}
    (h : t.StandsFor e.surface names values ⟨name, .eq, [value]⟩) (hvalue : resolved.get? name = some value) :
    t.Equates names values (Dict.ofList (e.itemEntries resolved)) := by
  obtain ⟨a, placeholder, ha, hname, hvalues, hplaceholder⟩ := h.equality
  refine ⟨h.operator, a.field, placeholder, value, hname, hvalues, hplaceholder, ?_⟩
  rw [he.item_attribute resolved (Dict.mem_values_of_get? ha), he.named name a ha, hvalue]

/-- Filtering is a step. -/
theorem Query.run_filter {q₀ q : Query} {condition : Condition} (h : q₀.filter condition = .ok q) :
    q₀.run [.filter condition] = .ok q := by
  rw [run, step, h]
  rfl

/-- The tests of a search are those of its entries. -/
theorem Query.conditionsOf_equalities (e : Entity) (entries : List (String × Json)) :
    Condition.testsOf (conditionsOf e [.filter (Entity.equalities entries)]) =
      entries.map fun entry => ⟨entry.1, .eq, [entry.2]⟩ := by
  rw [← Entity.tests_equalities]
  exact List.append_nil _

/-- **The filter of a search holds of an item that has the values asked for.** -/
theorem Query.filter_equates {e : Entity} (he : e.Accepted) {resolved facets : Facets} {index : Index}
    {q₀ q : Query} {entries : List (String × Json)} (hstart : start e index facets = .ok q₀)
    (hfilter : q₀.filter (Entity.equalities entries) = .ok q)
    (hknows : ∀ name value, (name, value) ∈ entries → resolved.get? name = some value)
    {phrase : Phrase} (hphrase : q.params.filter = some phrase) :
    ∃ tests : List Phrase.Test, phrase = .chain .and (tests.map Phrase.Test.phrase) ∧
      ∀ t ∈ tests, t.Equates q.params.names q.params.values (Dict.ofList (e.itemEntries resolved)) := by
  refine ⟨phrase.tests, filter_equalities hstart hfilter hphrase, fun t ht => ?_⟩
  have hstands := tests_of_run hstart (run_filter hfilter)
  rw [hphrase, conditionsOf_equalities, Option.toList_some, Phrase.testsOf, Phrase.testsOf, List.append_nil] at hstands
  obtain ⟨test, htest, hstand⟩ := exists_mem_of_forall₂ hstands ht
  obtain ⟨entry, hentry, rfl⟩ := List.mem_map.mp htest
  exact Phrase.Test.equates_of_standsFor he hstand (hknows _ _ hentry)

/-- **No stored item is missed.** A chain without a range on any access pattern, and a search by any
attributes, finds every item that has the values asked for. -/
theorem Entity.stored_item_found {s : Schema} {e : Entity} (he : ofSchema s = .ok e) {input : Json} {p : Put}
    (hput : e.put input = .ok p) :
    (∀ pattern given facets q₀ steps q, e.query pattern given = .ok q₀ → e.facets given = .ok facets →
      Query.Knows q₀.index.facetNames facets p.attributes → (∀ step ∈ steps, step.isFilter = true) →
      q₀.run steps = .ok q → q.params.key.Finds q.params.names q.params.values p.item q.index) ∧
    (∀ given facets q, e.find given = .ok q → e.facets given = .ok facets →
      (∀ name value, facets.value? name = some value → p.attributes.get? name = some value) →
      q.params.key.Finds q.params.names q.params.values p.item q.index ∧
      ∀ phrase, q.params.filter = some phrase → ∃ tests : List Phrase.Test,
        phrase = .chain .and (tests.map Phrase.Test.phrase) ∧ ∀ t ∈ tests, t.Equates q.params.names q.params.values p.item) := by
  have hacc := accepted_of_ofSchema he
  obtain ⟨-, -, hitem⟩ := put_ok hput
  constructor
  · intro pattern given facets q₀ steps q hquery hfacets hknows hsteps hrun
    obtain ⟨facets', hfacets', hindex, hstart⟩ := query_ok hquery
    obtain rfl := Except.ok.inj (hfacets.symm.trans hfacets')
    have hsame : q.index = q₀.index := ((Query.Reached.start hstart).run hrun).index
    rw [hsame]
    exact Query.finds hacc hput hindex hstart hrun hsteps hknows
  · intro given facets q hfind hfacets hknows
    obtain ⟨facets', matched, remaining, q₀, hfacets', hindex, hmatched, hremaining, hstart, hq⟩ := find_ok hfind
    obtain rfl := Except.ok.inj (hfacets.symm.trans hfacets')
    have hknown : Query.Knows q.index.facetNames matched p.attributes := by
      intro name _ value hvalue
      exact hknows name value (hmatched name value (Facets.value?_eq_some_iff.mp hvalue).1)
    rcases hq with rfl | hfilter
    · have hrun : q.run [] = .ok q := rfl
      refine ⟨Query.finds hacc hput hindex hstart hrun (by simp) hknown, fun phrase hphrase => ?_⟩
      obtain ⟨-, hq⟩ := Query.start_ok hstart
      have hnone : q.params.filter = none := by rw [hq]; rfl
      rw [hnone] at hphrase
      exact nomatch hphrase
    · have hkey := Query.finds hacc hput hindex hstart (Query.run_filter hfilter) (by simp [Query.Step.isFilter]) hknown
      refine ⟨hkey, fun phrase hphrase => ?_⟩
      rw [hitem]
      exact Query.filter_equates hacc hstart hfilter (fun name value hmem => hknows _ _ (hremaining _ _ hmem)) hphrase

/-- What is asked of the rooms: the building, and for the search also the note. -/
def inBuilding : Json := .object [("building", .string "A")]

def withNote : Json := .object [("building", .string "A"), ("note", .string "x")]

/-- The theorem for a room, a query by building and a search by building and note. -/
theorem Entity.stored_room_found : ∃ e p q q', ofSchema rooms = .ok e ∧ e.put room = .ok p ∧
    e.query "building" inBuilding = .ok q ∧ e.find withNote = .ok q' ∧
    q.params.key.Finds q.params.names q.params.values p.item q.index ∧
    q'.params.key.Finds q'.params.names q'.params.values p.item q'.index ∧
    ∃ phrase, q'.params.filter = some phrase ∧ ∃ tests : List Phrase.Test,
      phrase = .chain .and (tests.map Phrase.Test.phrase) ∧
      ∀ t ∈ tests, t.Equates q'.params.names q'.params.values p.item := by
  have hmem {facets : Facets} {name : String} {value : Json} (h : facets.value? name = some value) :
      (name, value) ∈ facets.entries := Dict.mem_entries_iff.mpr (Facets.value?_eq_some_iff.mp h).1
  obtain ⟨hquery, hfind⟩ := @stored_item_found rooms _ rfl room _ rfl
  have hkey := hquery "building" inBuilding _ _ [] _ rfl rfl
    (by
      intro name _ value hvalue
      obtain ⟨rfl, rfl⟩ := Prod.mk.inj (List.mem_singleton.mp (hmem hvalue))
      rfl)
    (fun _ h => nomatch h) rfl
  obtain ⟨hkey', hfilter⟩ := hfind withNote _ _ rfl rfl
    (by
      intro name value hvalue
      rcases List.mem_pair.mp (hmem hvalue) with h | h <;>
        (obtain ⟨rfl, rfl⟩ := Prod.mk.inj h; rfl))
  exact ⟨_, _, _, _, rfl, rfl, rfl, rfl, hkey, hkey', _, rfl, hfilter _ rfl⟩

end SingleTable
