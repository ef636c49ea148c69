import SingleTable.Index.Key
import Mathlib.Data.List.Forall2

/-! How composed keys depend on the values of their facets.

Two maps that agree on the facets of a key compose the same key. A map that knows
only some of the values composes a string that the key of all values goes on from:
composition stops at the first gap. -/
namespace SingleTable

/-- If each of a list has a result, the list has theirs. -/
theorem mapM_of_forall₂ {α β γ : Type} {f : α → Option β} {g : γ → β} {as : List α} {cs : List γ}
    (h : List.Forall₂ (fun a c => f a = some (g c)) as cs) : as.mapM f = some (cs.map g) := by
  induction h with
  | nil => rfl
  | cons hfirst _ ih =>
    rw [List.mapM_cons, ih, hfirst]
    rfl

namespace Facets

theorem leading_congr {a b : Facets} {names : List String} (h : ∀ name ∈ names, a.value? name = b.value? name) :
    a.leading names = b.leading names := by
  induction names with
  | nil => rfl
  | cons name rest ih =>
    have hrest := ih fun other hother => h other (List.mem_cons_of_mem _ hother)
    rw [leading, leading, h name (List.mem_cons_self ..), hrest]

/-- What is composed are values of the facets. -/
theorem value?_of_mem_leading {values : Facets} {names : List String} {pair : String × Json}
    (h : pair ∈ values.leading names) : pair.1 ∈ names ∧ values.value? pair.1 = some pair.2 := by
  induction names with
  | nil => exact nomatch h
  | cons name rest ih =>
    rw [leading] at h
    split at h
    · next value hvalue =>
      rcases List.mem_cons.mp h with rfl | h
      · exact ⟨List.mem_cons_self .., hvalue⟩
      · exact ⟨List.mem_cons_of_mem _ (ih h).1, (ih h).2⟩
    · exact nomatch h

/-- Values that have all that is composed of others are composed on from it. -/
theorem leading_append_of_mem {known full : Facets} {names : List String}
    (h : ∀ pair ∈ known.leading names, full.value? pair.1 = some pair.2) :
    ∃ more, full.leading names = known.leading names ++ more := by
  induction names with
  | nil => exact ⟨[], rfl⟩
  | cons name rest ih =>
    cases hvalue : known.value? name with
    | none =>
      refine ⟨full.leading (name :: rest), ?_⟩
      rw [leading.eq_2 known, hvalue, List.nil_append]
    | some value =>
      have hleading : known.leading (name :: rest) = (name, value) :: known.leading rest := by rw [leading, hvalue]
      rw [hleading] at h ⊢
      obtain ⟨more, hmore⟩ := ih fun pair hpair => h pair (List.mem_cons_of_mem _ hpair)
      refine ⟨more, ?_⟩
      rw [leading, h _ (List.mem_cons_self ..), hmore]
      rfl

/-- What is known of the values leads into what all of them are. -/
theorem leading_append {known full : Facets} {names : List String}
    (h : ∀ name ∈ names, ∀ value, known.value? name = some value → full.value? name = some value) :
    ∃ more, full.leading names = known.leading names ++ more := by
  refine leading_append_of_mem fun pair hpair => ?_
  obtain ⟨hname, hvalue⟩ := value?_of_mem_leading hpair
  exact h pair.1 hname pair.2 hvalue

/-- The names of what leads are those up to the first without a value. -/
theorem map_leading (values : Facets) (names : List String) :
    (values.leading names).map Prod.fst = names.takeWhile values.has := by
  induction names with
  | nil => rfl
  | cons name rest ih =>
    rw [leading, List.takeWhile_cons, has]
    cases values.value? name with
    | none => rfl
    | some value => exact congrArg (name :: ·) ih

end Facets

theorem composeKey_congr (scope : String) {a b : Facets} {names : List String}
    (h : ∀ name ∈ names, a.value? name = b.value? name) : composeKey scope names a = composeKey scope names b := by
  rw [composeKey, composeKey, Facets.leading_congr h]

/-- A key is its scope and then its segments. -/
theorem composeKey_eq_join (scope : String) (names : List String) (values : Facets) :
    composeKey scope names values =
      scope ++ String.join ((values.leading names).map fun pair => segment pair.1 pair.2) := by
  have hgo (segments : List String) (start : String) :
      segments.foldl (· ++ ·) start = start ++ String.join segments := by
    induction segments generalizing start with
    | nil => simp
    | cons s rest ih => rw [List.foldl_cons, ih, String.join_cons, String.append_assoc]
  exact hgo _ scope

/-- **The key of all values goes on from the key of those that are known.** -/
theorem exists_composeKey_eq_append (scope : String) {known full : Facets} {names : List String}
    (h : ∀ name ∈ names, ∀ value, known.value? name = some value → full.value? name = some value) :
    ∃ rest, composeKey scope names full = composeKey scope names known ++ rest := by
  obtain ⟨more, hmore⟩ := Facets.leading_append h
  refine ⟨String.join (more.map fun pair => segment pair.1 pair.2), ?_⟩
  rw [composeKey_eq_join, composeKey_eq_join, hmore, List.map_append, String.join_append, String.append_assoc]

/-- If all of the facets are known, both keys are the same. -/
theorem composeKey_eq_of_has (scope : String) {known full : Facets} {names : List String}
    (hhas : ∀ name ∈ names, known.has name = true)
    (h : ∀ name ∈ names, ∀ value, known.value? name = some value → full.value? name = some value) :
    composeKey scope names known = composeKey scope names full := by
  refine composeKey_congr scope fun name hname => ?_
  obtain ⟨value, hvalue⟩ := Option.isSome_iff_exists.mp (hhas name hname)
  rw [hvalue, h name hname value hvalue]

/-! ### Full keys -/

/-- The key of facets that all have values: after its scope one segment for each of them, in their order. -/
def fullKey? (value? : String → Option Json) (scope : String) (facets : List String) : Option String :=
  (facets.mapM fun facet => (value? facet).map (segment facet)).map fun segments => scope ++ String.join segments

/-- **Values for all facets compose the full key.** -/
theorem fullKey?_of_has {values : Facets} {facets : List String} (scope : String)
    (h : ∀ name ∈ facets, values.has name = true) :
    fullKey? values.value? scope facets = some (composeKey scope facets values) := by
  have hsegments : (facets.mapM fun facet => (values.value? facet).map (segment facet)) =
      some ((values.leading facets).map fun pair => segment pair.1 pair.2) := by
    induction facets with
    | nil => rfl
    | cons name rest ih =>
      obtain ⟨value, hvalue⟩ := Option.isSome_iff_exists.mp (h name (List.mem_cons_self ..))
      rw [List.mapM_cons, hvalue, ih fun other hother => h other (List.mem_cons_of_mem _ hother), Facets.leading, hvalue]
      rfl
  rw [fullKey?, hsegments, composeKey_eq_join]
  rfl

/-! ### The keys of an index -/

namespace Registry

/-- The key fields of an index, each with the leading part of its keys. -/
def scopedKeys (r : Registry) (i : Index) : List (String × KeyField) :=
  (r.partitionScope, i.partition) :: i.sort.toList.map fun sort => (r.sortScope, sort)

theorem sortKey_eq (r : Registry) {i : Index} {sort : KeyField} (h : i.sort = some sort) (values : Facets) :
    r.sortKey i values = composeKey r.sortScope sort.facets values := by
  rw [sortKey, Index.sortFacets, h]

theorem scoped_sort (r : Registry) {i : Index} {sort : KeyField} (h : i.sort = some sort) :
    (r.sortScope, sort) ∈ r.scopedKeys i := by
  rw [scopedKeys, h]
  exact List.mem_cons_of_mem _ (List.mem_singleton_self _)

theorem keyEntries_eq (r : Registry) (i : Index) (values : Facets) :
    r.keyEntries i values = (r.scopedKeys i).map fun key =>
      (key.2.field, .string (composeKey key.1 key.2.facets values)) := by
  rw [keyEntries, scopedKeys, List.map_cons, List.map_map]
  cases hsort : i.sort with
  | none => rfl
  | some sort =>
    rw [r.sortKey_eq hsort]
    rfl

theorem map_scopedKeys (r : Registry) (i : Index) : (r.scopedKeys i).map Prod.snd = i.keyFields := by
  rw [scopedKeys, Index.keyFields, List.map_cons, List.map_map]
  cases i.sort <;> rfl

theorem mem_keyFields_of_sort {i : Index} {sort : KeyField} (h : i.sort = some sort) : sort ∈ i.keyFields := by
  rw [Index.keyFields, h]
  exact List.mem_cons_of_mem _ (List.mem_singleton_self _)

theorem mem_keyFields_of_scoped {r : Registry} {i : Index} {key : String × KeyField}
    (h : key ∈ r.scopedKeys i) : key.2 ∈ i.keyFields := by
  rw [← r.map_scopedKeys i]
  exact List.mem_map_of_mem h

theorem exists_scoped (r : Registry) {i : Index} {key : KeyField} (h : key ∈ i.keyFields) :
    ∃ scope, (scope, key) ∈ r.scopedKeys i := by
  rw [← r.map_scopedKeys i] at h
  obtain ⟨⟨scope, other⟩, hmem, rfl⟩ := List.mem_map.mp h
  exact ⟨scope, hmem⟩

/-- The facets of a key are facets of its index. -/
theorem mem_facetNames_of_keyField {i : Index} {key : KeyField} (hkey : key ∈ i.keyFields) {name : String}
    (hname : name ∈ key.facets) : name ∈ i.facetNames := by
  rw [Index.facetNames, List.mem_append]
  rcases List.mem_cons.mp hkey with rfl | hkey
  · exact .inl hname
  · rw [Index.sortFacets, Option.mem_toList.mp hkey]
    exact .inr hname

end Registry

end SingleTable
