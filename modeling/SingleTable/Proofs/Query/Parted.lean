import Mathlib.Data.List.TakeWhile
import SingleTable.Proofs.Index.Choice
import SingleTable.Proofs.Query.Alike
import SingleTable.Proofs.Query.Found
import SingleTable.Proofs.Query.Protocol

/-! How a search uses what it is given.

The chosen index matches all of its partition facets and a run of its sort facets. The
entries of these are composed into the keys, one segment each, and every other entry is a
test for equality in the filter: `find_parts` says that the entries are parted between the
three places, none left out or used twice, and when a search succeeds and how it fails. -/
namespace SingleTable

/-! ### Entries of a map -/

/-- Pairs that a map has, one for each of its names, are its entries. -/
theorem Dict.perm_entries {α : Type} {d : Dict α} {pairs : List (String × α)} (hnodup : (Assoc.keys pairs).Nodup)
    (hget : ∀ pair ∈ pairs, d.get? pair.1 = some pair.2) (hall : ∀ name ∈ d.keys, name ∈ Assoc.keys pairs) :
    pairs.Perm d.entries := by
  refine (List.perm_ext_iff_of_nodup hnodup.of_map d.nodup.of_map).mpr fun pair => ?_
  constructor
  · exact fun hpair => Dict.mem_entries_iff.mpr (hget pair hpair)
  · intro hentry
    obtain ⟨other, hother, hname⟩ := List.mem_map.mp (hall pair.1 (List.mem_map_of_mem hentry))
    have hvalue := (hget other hother).symm.trans (hname ▸ Dict.mem_entries_iff.mp hentry)
    rwa [← Prod.ext hname (Option.some.inj hvalue)]

/-- What is taken from a list by a condition is taken by a stronger one that it meets. -/
theorem takeWhile_eq_of_imp {α : Type} {p q : α → Bool} {list : List α} (h : ∀ a ∈ list.takeWhile q, p a = true)
    (himp : ∀ a, p a = true → q a = true) : list.takeWhile p = list.takeWhile q := by
  induction list with
  | nil => rfl
  | cons a rest ih =>
    rw [List.takeWhile_cons] at h
    rw [List.takeWhile_cons, List.takeWhile_cons]
    cases hq : q a with
    | false =>
      have hp : p a = false := Bool.eq_false_iff.mpr fun hp => Bool.eq_false_iff.mp hq (himp a hp)
      rw [hp, if_neg Bool.false_ne_true, if_neg Bool.false_ne_true]
    | true =>
      rw [hq] at h
      obtain ⟨hp, hrest⟩ := List.forall_mem_cons.mp h
      rw [hp, if_pos rfl, if_pos rfl, ih hrest]

/-! ### The entries of a route -/

namespace Route

variable {route : Route} {supplied : Facets} {name : String}

theorem map_keys (route : Route) : route.keys.map Prod.fst = route.facets := by
  simp [keys, facets, Function.comp_def]

theorem keys_eq {partition sort : List (String × Json)} (hpartition : partition.map Prod.fst = route.index.partition.facets)
    (hsort : sort.map Prod.fst = route.sortFacets) :
    route.keys = partition.map (fun entry => (entry.1, .partition)) ++ sort.map fun entry => (entry.1, .sort) := by
  rw [keys, ← hpartition, ← hsort, List.map_map, List.map_map]
  rfl

/-- What a route matches is what is supplied of its facets, -/
theorem has_matched :
    (route.matched supplied).has name = true ↔ name ∈ route.facets ∧ name ∈ supplied.present.keys := by
  rw [Facets.mem_keys_present, Facets.has, Option.isSome_iff_exists]
  constructor
  · rintro ⟨value, hvalue⟩
    have hkept := (Dict.get?_filter (Facets.value?_eq_some_iff.mp hvalue).1).2
    exact ⟨of_decide_eq_true hkept, value, value?_of_matched hvalue⟩
  · rintro ⟨hname, value, hvalue⟩
    exact ⟨value, value?_matched hname hvalue⟩

/-- and everything else remains. -/
theorem mem_keys_remaining :
    name ∈ (route.remaining supplied).keys ↔ name ∈ supplied.present.keys ∧ name ∉ route.facets := by
  rw [remaining, Dict.keys_filter _ fun name => decide (name ∉ route.facets), List.mem_filter, decide_eq_true_eq]

end Route

namespace Registry

variable {r : Registry} {supplied : Facets} {route : Route}

theorem bestMatch_of_route {names : List String} (h : r.route? names = some route) :
    r.bestMatch names = ⟨route.index.id, route.keys⟩ := by
  rw [bestMatch, h]

/-- The facets of a route are supplied. -/
theorem facets_supplied (h : r.route? supplied.present.keys = some route) :
    ∀ name ∈ route.facets, name ∈ supplied.present.keys := by
  obtain ⟨-, hviable, hsort⟩ := route?_ok h
  intro name hname
  rcases List.mem_append.mp hname with hpartition | hrun
  · exact hviable name hpartition
  · rw [hsort] at hrun
    have hmem := List.mem_takeWhile_imp hrun
    exact of_decide_eq_true hmem

/-- **The keys of a search are composed of what its route matches**: no gap comes before the end of the run. -/
theorem names_leading (h : r.route? supplied.present.keys = some route) :
    ((route.matched supplied).leading route.index.partition.facets).map Prod.fst = route.index.partition.facets ∧
      ((route.matched supplied).leading route.index.sortFacets).map Prod.fst = route.sortFacets := by
  have hhas {name : String} (hname : name ∈ route.facets) : (route.matched supplied).has name = true :=
    Route.has_matched.mpr ⟨hname, facets_supplied h name hname⟩
  obtain ⟨-, -, hsort⟩ := route?_ok h
  rw [Facets.map_leading, Facets.map_leading]
  constructor
  · exact List.takeWhile_eq_self_iff.mpr fun name hname => hhas (List.mem_append_left _ hname)
  · rw [hsort]
    refine takeWhile_eq_of_imp (fun name hname => ?_) fun name hname => ?_
    · rw [← hsort] at hname
      exact hhas (List.mem_append_right _ hname)
    · exact decide_eq_true (Route.has_matched.mp hname).2

/-- **The entries that count as present are those of the two keys and those that remain.** -/
theorem perm_parts (h : r.route? supplied.present.keys = some route) (hnodup : route.index.facetNames.Nodup) :
    ((route.matched supplied).leading route.index.partition.facets ++
      (route.matched supplied).leading route.index.sortFacets ++ (route.remaining supplied).entries).Perm
        supplied.present.entries := by
  obtain ⟨hpartition, hsort⟩ := names_leading h
  have hkeys : Assoc.keys ((route.matched supplied).leading route.index.partition.facets ++
      (route.matched supplied).leading route.index.sortFacets ++ (route.remaining supplied).entries) =
        route.facets ++ (route.remaining supplied).keys := by
    rw [Assoc.keys, List.map_append, List.map_append, hpartition, hsort]
    rfl
  have hfacets : route.facets.Nodup := by
    refine (List.Sublist.append (.refl _) ?_).nodup hnodup
    rw [(route?_ok h).2.2]
    exact (List.takeWhile_prefix _).sublist
  have hleading {names : List String} {pair : String × Json} (hpair : pair ∈ (route.matched supplied).leading names) :
      supplied.present.get? pair.1 = some pair.2 := by
    rw [Facets.get?_present]
    exact Route.value?_of_matched (Facets.value?_of_mem_leading hpair).2
  refine Dict.perm_entries ?_ (fun pair hpair => ?_) fun name hname => ?_
  · rw [hkeys]
    refine List.nodup_append.mpr ⟨hfacets, (route.remaining supplied).nodup, ?_⟩
    rintro name hfacet other hother rfl
    exact (Route.mem_keys_remaining.mp hother).2 hfacet
  · rcases List.mem_append.mp hpair with hkeyed | hleft
    · exact (List.mem_append.mp hkeyed).elim hleading hleading
    · exact (Dict.get?_filter (Dict.mem_entries_iff.mp hleft)).1
  · rw [hkeys]
    by_cases hfacet : name ∈ route.facets
    · exact List.mem_append_left _ hfacet
    · exact List.mem_append_right _ (Route.mem_keys_remaining.mpr ⟨hname, hfacet⟩)

end Registry

/-! ### The chain of a search -/

/-- A scope with a segment for each of some entries. -/
def segmented (scope : String) (entries : List (String × Json)) : String :=
  scope ++ String.join (entries.map fun entry => segment entry.1 entry.2)

/-- A chain asks for a partition key of some entries, for sort keys that begin with others, and for the equality
of yet others in its filter, and for nothing else; it is filtered if it has a filter. -/
structure Query.Parts (e : Entity) (q : Query) (partition sort others : List (String × Json)) : Prop where
  key : q.params.key.Resolves q.params.names q.params.values q.index
    (segmented e.registry.partitionScope partition) (.beginsWith (segmented e.registry.sortScope sort))
  sorted : sort ≠ [] → q.params.key.sort.isSome = true
  filter : ∃ tests : List Phrase.Test, q.params.filter = Phrase.chain? .and (tests.map Phrase.Test.phrase) ∧
    List.Forall₂ (Phrase.Test.StandsFor e.surface q.params.names q.params.values) tests
      (others.map fun entry => ⟨entry.1, .eq, [entry.2]⟩)
  stage : q.stage = if others = [] then .seeded else .filtered

theorem Phrase.chain?_of_ne_nil {connective : Connective} {parts : List Phrase} (h : parts ≠ []) :
    chain? connective parts = some (.chain connective parts) := by
  cases parts with
  | nil => exact absurd rfl h
  | cons part rest => rfl

namespace Query

variable {e : Entity} {index : Index} {facets : Facets} {q₀ q : Query}

/-- Filters leave the keys as the facets of the chain compose them. -/
theorem key_of_filters {steps : List Step} (hstart : start e index facets = .ok q₀) (hrun : q₀.run steps = .ok q)
    (hsteps : ∀ s ∈ steps, s.isFilter = true) :
    q.params.key.Resolves q.params.names q.params.values q.index
        (segmented e.registry.partitionScope (facets.leading index.partition.facets))
        (.beginsWith (segmented e.registry.sortScope (facets.leading index.sortFacets))) ∧
      (facets.leading index.sortFacets ≠ [] → q.params.key.sort.isSome = true) := by
  have hkey := key_of_run hstart hrun
  have hindex := index_of_run hstart hrun
  rw [range_of_filters hsteps, Option.getD_none] at hkey
  rw [hindex, segmented, segmented, ← composeKey_eq_join, ← composeKey_eq_join]
  refine ⟨hkey, fun hleading => ?_⟩
  rw [hkey.present]
  cases hsort : index.sort with
  | some sort => rfl
  | none =>
    rw [Index.sortFacets, hsort] at hleading
    exact absurd rfl hleading

/-- A chain that has just started asks for the keys that its facets compose. -/
theorem parts_of_start (hstart : start e index facets = .ok q) :
    q.Parts e (facets.leading index.partition.facets) (facets.leading index.sortFacets) [] := by
  obtain ⟨hkey, hsorted⟩ := key_of_filters hstart (rfl : q.run [] = .ok q) nofun
  refine ⟨hkey, hsorted, ⟨[], ?_, .nil⟩, ?_⟩
  · obtain ⟨-, rfl⟩ := start_ok hstart
    exact params_filter _
  · obtain ⟨-, rfl⟩ := start_ok hstart
    rfl

/-- Filtered by some entries, it asks for these too. -/
theorem parts_of_filter (hstart : start e index facets = .ok q₀) {entries : List (String × Json)}
    (hentries : entries ≠ []) (hfilter : q₀.filter (Entity.equalities entries) = .ok q) :
    q.Parts e (facets.leading index.partition.facets) (facets.leading index.sortFacets) entries := by
  obtain ⟨hkey, hsorted⟩ := key_of_filters hstart (run_filter hfilter) (List.forall_mem_singleton.mpr rfl)
  have htests := tests_of_run hstart (run_filter hfilter)
  rw [conditionsOf_equalities] at htests
  refine ⟨hkey, hsorted, ⟨_, ?_, htests⟩, ?_⟩
  · cases hphrase : q.params.filter with
    | none =>
      rw [hphrase] at htests
      exact absurd (List.map_eq_nil_iff.mp (List.forall₂_nil_left_iff.mp htests)) hentries
    | some phrase =>
      have hone : Phrase.testsOf [phrase] = phrase.tests := List.append_nil _
      rw [hphrase, Option.toList_some, hone] at htests
      rw [Option.toList_some, hone]
      have hsome : phrase.tests.map Phrase.Test.phrase ≠ [] := by
        intro hnone
        rw [List.map_eq_nil_iff.mp hnone, List.forall₂_nil_left_iff, List.map_eq_nil_iff] at htests
        exact hentries htests
      rw [Phrase.chain?_of_ne_nil hsome]
      exact congrArg some (filter_equalities hstart hfilter hphrase)
  · rw [if_neg hentries]
    obtain ⟨clauses, -, rfl⟩ := Fault.map_ok hfilter
    rfl

/-- What a filter asks for are values of attributes. -/
theorem Parts.known {partition sort others : List (String × Json)} (h : q.Parts e partition sort others) :
    ∀ entry ∈ others, entry.1 ∈ e.attributes.keys := by
  intro entry hentry
  obtain ⟨tests, -, htests⟩ := h.filter
  obtain ⟨t, -, hstands⟩ := exists_mem_of_forall₂ htests.flip (List.mem_map_of_mem hentry)
  obtain ⟨a, -, ha, -⟩ := hstands.equality
  exact Dict.contains_iff.mp (by rw [Dict.contains, ha]; rfl)

/-- Every chain can be filtered by values of attributes. -/
theorem exists_filter_of_known (q₀ : Query) {entries : List (String × Json)}
    (h : ∀ entry ∈ entries, entry.1 ∈ q₀.entity.attributes.keys) :
    ∃ q, q₀.filter (Entity.equalities entries) = .ok q := by
  have hfits : ∀ t ∈ (Entity.equalities entries).tests, t.Fits q₀.entity.surface := by
    intro t ht
    rw [Entity.tests_equalities] at ht
    obtain ⟨entry, hentry, rfl⟩ := List.mem_map.mp ht
    obtain ⟨a, ha⟩ := Option.isSome_iff_exists.mp (Dict.contains_iff.mpr (h entry hentry))
    have hfield : q₀.entity.surface.field entry.1 = .ok a.field := by rw [Surface.field, Entity.surface, ha]
    exact ⟨⟨a.field, hfield⟩, rfl⟩
  obtain ⟨result, hcompile⟩ := Condition.compile_total _ q₀.clauses.bindings hfits
  rw [filter, Clauses.apply, hcompile]
  exact ⟨_, rfl⟩

end Query

namespace Entity

variable {e : Entity} {given : Json} {supplied : Facets} {route : Route}

theorem find_of_no_route (hfacets : e.facets given = .ok supplied)
    (hroute : e.registry.route? supplied.present.keys = none) :
    e.find given =
      .error (.incompleteFacets partitionLabel (supplied.missing e.registry.primary.partition.facets)) := by
  rw [find, hfacets]
  simp only [hroute]

theorem exists_find_of_route (hfacets : e.facets given = .ok supplied)
    (hroute : e.registry.route? supplied.present.keys = some route)
    (hknown : ∀ entry ∈ (route.remaining supplied).entries, entry.1 ∈ e.attributes.keys) :
    ∃ q, e.find given = .ok q := by
  have hhas : ∀ name ∈ route.index.partition.facets, (route.matched supplied).has name = true := fun name hname =>
    Route.has_matched.mpr ⟨List.mem_append_left _ hname, (Registry.route?_ok hroute).2.1 name hname⟩
  obtain ⟨taken, htaken⟩ := Facets.require_of_has partitionLabel hhas
  obtain ⟨q₀, hstart⟩ : ∃ q₀, Query.start e route.index (route.matched supplied) = .ok q₀ := by
    rw [Query.start, htaken]
    exact ⟨_, rfl⟩
  have hentity : q₀.entity = e := by
    obtain ⟨-, rfl⟩ := Query.start_ok hstart
    rfl
  obtain ⟨q, hfilter⟩ := q₀.exists_filter_of_known (hentity ▸ hknown)
  rw [Route.matched] at hstart
  rw [Route.remaining] at hfilter
  rw [find, hfacets]
  simp only [hroute, hstart, hfilter]
  split
  · exact ⟨_, rfl⟩
  · exact ⟨_, rfl⟩

/-- **A search asks for what its route matches by its keys, and for what remains by its filter.** -/
theorem parts_of_find (hfacets : e.facets given = .ok supplied)
    (hroute : e.registry.route? supplied.present.keys = some route) {q : Query} (hfind : e.find given = .ok q) :
    q.index = route.index ∧
      q.Parts e ((route.matched supplied).leading route.index.partition.facets)
        ((route.matched supplied).leading route.index.sortFacets) (route.remaining supplied).entries := by
  obtain ⟨supplied', route', q₀, hsupplied', hroute', hindex, hstart, hq⟩ := find_route hfind
  obtain rfl := Except.ok.inj (hfacets.symm.trans hsupplied')
  obtain rfl := Option.some.inj (hroute.symm.trans hroute')
  refine ⟨hindex, ?_⟩
  rcases hq with ⟨hempty, rfl⟩ | ⟨hremaining, hfilter⟩
  · rw [Dict.isEmpty, List.isEmpty_iff] at hempty
    rw [hempty]
    exact Query.parts_of_start hstart
  · exact Query.parts_of_filter hstart (List.isEmpty_eq_false_iff.mp hremaining) hfilter

/-- **A search uses every entry exactly once.** -/
theorem find_parts {s : Schema} (he : ofSchema s = .ok e) (hgiven : Facets.ofJson given = .ok supplied)
    (htyped : e.Typed supplied) {best : IndexMatch} (hbest : e.registry.bestMatch supplied.present.keys = best) :
    ((∃ q, e.find given = .ok q) ↔ (∃ i ∈ e.registry.indexes, i.Viable supplied.present.keys) ∧
        ∀ name ∈ supplied.present.keys, name ∉ best.keys.map Prod.fst → name ∈ e.attributes.keys) ∧
      (∀ q, e.find given = .ok q → e.registry.get best.index = .ok q.index ∧
        ∃ partition sort others, (partition ++ sort ++ others).Perm supplied.present.entries ∧
          best.keys = partition.map (fun entry => (entry.1, .partition)) ++ sort.map (fun entry => (entry.1, .sort)) ∧
          q.Parts e partition sort others) ∧
      ((∀ i ∈ e.registry.indexes, ¬ i.Viable supplied.present.keys) → ∃ missing, missing ≠ [] ∧
        e.find given = .error (.incompleteFacets partitionLabel missing) ∧
        missing = e.registry.primary.partition.facets.filter fun name => supplied.value? name = none) := by
  have hacc := accepted_of_ofSchema he
  have hfacets := facets_ok_iff.mpr ⟨hgiven, htyped⟩
  cases hroute : e.registry.route? supplied.present.keys with
  | none =>
    have hviable := Registry.route?_eq_none_iff.mp hroute
    have hfind := find_of_no_route hfacets hroute
    rw [hfind]
    refine ⟨iff_of_false (fun ⟨q, h⟩ => nomatch h) fun ⟨⟨i, hi, h⟩, _⟩ => hviable i hi h, fun q h => (nomatch h),
      fun _ => ⟨_, fun hnone => ?_, rfl, ?_⟩⟩
    · -- an index whose partition facets are all there is viable
      refine hviable _ hacc.primary fun name hname => Facets.mem_keys_present.mpr ?_
      exact Option.isSome_iff_exists.mp (Facets.missing_eq_nil_iff.mp hnone name hname)
    · refine List.filter_congr fun name _ => ?_
      rw [Facets.has]
      cases supplied.value? name <;> rfl
  | some route =>
    obtain rfl := (Registry.bestMatch_of_route hroute).symm.trans hbest
    obtain ⟨hindex, hviable, -⟩ := Registry.route?_ok hroute
    have hparts {q : Query} (hfind : e.find given = .ok q) := parts_of_find hfacets hroute hfind
    rw [Route.map_keys]
    refine ⟨⟨?_, ?_⟩, fun q hfind => ⟨?_, _, _, _, Registry.perm_parts hroute ?_, ?_, (hparts hfind).2⟩,
      fun hnone => absurd hviable (hnone _ hindex)⟩
    · rintro ⟨q, hfind⟩
      refine ⟨⟨_, hindex, hviable⟩, fun name hname hfacet => ?_⟩
      obtain ⟨value, hvalue⟩ := Facets.mem_keys_present.mp hname
      exact (hparts hfind).2.known _ (Route.mem_remaining hfacet hvalue)
    · rintro ⟨-, hknown⟩
      refine exists_find_of_route hfacets hroute fun entry hentry => ?_
      obtain ⟨hname, hfacet⟩ := Route.mem_keys_remaining.mp (List.mem_map_of_mem hentry)
      exact hknown entry.1 hname hfacet
    · rw [(hparts hfind).1]
      exact hacc.get_of_mem hindex
    · have hbuild := (ofSchema_ok he).1
      rw [(Registry.build_ok hbuild).1.2.2] at hindex
      exact (Registry.facets_of_build hbuild _ hindex).2
    · obtain ⟨hpartition, hsort⟩ := Registry.names_leading hroute
      exact Route.keys_eq hpartition hsort

/-- A floor of a building, and a note that no key is composed of. -/
def noteOnFloor : Json :=
  .object [("note", .string "x"), ("id", .null), ("floor", .string "1"), ("building", .string "A")]

/-- The theorem for this search, and for one by the floor alone, which no index serves. -/
theorem find_parts_room : ∃ e q partition sort others, ofSchema rooms = .ok e ∧ e.find noteOnFloor = .ok q ∧
    (partition ++ sort ++ others).Perm
      [("note", Json.string "x"), ("floor", .string "1"), ("building", .string "A")] ∧
    partition.map (fun entry => (entry.1, KeyRole.partition)) ++ sort.map (fun entry => (entry.1, KeyRole.sort)) =
      [("building", .partition), ("floor", .sort)] ∧
    q.Parts e partition sort others ∧
    e.find (.object [("floor", .string "1")]) = .error (.incompleteFacets partitionLabel ["id"]) := by
  have htyped (given : Json) {e : Entity} {supplied : Facets} (h : e.facets given = .ok supplied) : e.Typed supplied :=
    (facets_ok_iff.mp h).2
  obtain ⟨-, hparts, -⟩ := @find_parts _ noteOnFloor _ rooms rfl rfl (htyped noteOnFloor rfl) _ rfl
  obtain ⟨-, partition, sort, others, hperm, hkeys, hasked⟩ := hparts _ rfl
  obtain ⟨-, -, hnone⟩ := @find_parts _ (.object [("floor", .string "1")]) _ rooms rfl rfl
    (htyped (.object [("floor", .string "1")]) rfl) _ rfl
  obtain ⟨missing, -, hfind, rfl⟩ := hnone (by decide)
  exact ⟨_, _, partition, sort, others, rfl, rfl, hperm, hkeys.symm, hasked, hfind⟩

end Entity

end SingleTable
