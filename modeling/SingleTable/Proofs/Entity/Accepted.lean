import SingleTable.Entity
import Mathlib.Data.List.Nodup

/-! What the checks of a schema establish.

`Accepted` lists the facts that every entity has and that the requests rest on:
an attribute is known by its own name, every facet is an attribute, no two
attributes or keys share a field, and the primary index is one of the indexes,
with facets that no update may name. -/
namespace SingleTable

/-! ### Indexes -/

theorem Index.fault?_eq_none_iff {earlier : List String} {i : Index} :
    i.fault? earlier = none ↔ i.id ∉ earlier ∧ i.partition.facets ≠ [] ∧ i.facetNames.Nodup := by
  unfold fault?
  split
  · next hid => exact ⟨(nomatch ·), fun h => absurd hid h.1⟩
  · next hid =>
    split
    · next hempty => exact ⟨(nomatch ·), fun h => absurd hempty h.2.1⟩
    · next hempty =>
      rw [Option.map_eq_none_iff, firstRepeat?_eq_none_iff]
      exact ⟨fun h => ⟨hid, hempty, h.1⟩, fun h => ⟨h.2.2, fun _ _ => List.not_mem_nil⟩⟩

/-- Indexes are without a fault when their identifiers are their own and each has facets to find
an item by, none of them twice. -/
theorem Index.firstFault?_eq_none_iff {earlier : List String} {indexes : List Index} :
    firstFault? earlier indexes = none ↔
      (indexes.map Index.id).Nodup ∧ (∀ i ∈ indexes, i.id ∉ earlier) ∧
        ∀ i ∈ indexes, i.partition.facets ≠ [] ∧ i.facetNames.Nodup := by
  induction indexes generalizing earlier with
  | nil => simp [firstFault?]
  | cons i rest ih =>
    rw [firstFault?, Option.or_eq_none_iff, fault?_eq_none_iff, ih, List.map_cons, List.nodup_cons,
      List.forall_mem_cons, List.forall_mem_cons]
    have hfirst : (∀ j ∈ rest, j.id ∉ i.id :: earlier) ↔
        i.id ∉ rest.map Index.id ∧ ∀ j ∈ rest, j.id ∉ earlier := by
      simp only [List.mem_cons, not_or, List.mem_map, not_exists, not_and]
      exact ⟨fun h => ⟨fun j hj => (h j hj).1, fun j hj => (h j hj).2⟩, fun h j hj => ⟨h.1 j hj, h.2 j hj⟩⟩
    rw [hfirst]
    constructor
    · rintro ⟨⟨hid, hi⟩, hnodup, ⟨hown, hids⟩, hrest⟩
      exact ⟨⟨hown, hnodup⟩, ⟨hid, hids⟩, hi, hrest⟩
    · rintro ⟨⟨hown, hnodup⟩, ⟨hid, hids⟩, hi, hrest⟩
      exact ⟨⟨hid, hi⟩, hnodup, ⟨hown, hids⟩, hrest⟩

theorem Registry.build_ok {partitionScope sortScope : String} {indexes : List Index} {r : Registry}
    (h : build partitionScope sortScope indexes = .ok r) :
    (r.partitionScope = partitionScope ∧ r.sortScope = sortScope ∧ r.indexes = indexes) ∧
      (indexes.map Index.id).Nodup ∧ r.primary ∈ indexes ∧ r.primary.isPrimary = true := by
  unfold build at h
  split at h
  · exact nomatch h
  · next hfault =>
    split at h
    · next primary hprimary =>
      obtain rfl := Except.ok.inj h
      exact ⟨⟨rfl, rfl, rfl⟩, (Index.firstFault?_eq_none_iff.mp hfault).1, List.mem_of_find?_eq_some hprimary,
        List.find?_some hprimary⟩
    · exact nomatch h

/-- An element is found among others by a name of its own. -/
theorem find?_of_nodup_map {α : Type} {name : α → String} {list : List α} (h : (list.map name).Nodup) {a : α}
    (ha : a ∈ list) : (list.find? fun other => name other == name a) = some a := by
  cases hfind : list.find? fun other => name other == name a with
  | none => exact absurd (beq_self_eq_true (name a)) (List.find?_eq_none.mp hfind a ha)
  | some other =>
    have hname : name other = name a := by simpa using List.find?_some hfind
    rw [List.inj_on_of_nodup_map h (List.mem_of_find?_eq_some hfind) ha hname]

/-! ### Entities -/

structure Entity.Accepted (e : Entity) : Prop where
  named : ∀ name a, e.attributes.get? name = some a → a.name = name
  facet : ∀ i ∈ e.registry.indexes, ∀ name ∈ i.facetNames, ∃ a, e.attributes.get? name = some a
  fields : (Assoc.keys (Schema.attributeFields e.attributes ++ Schema.keyFields e.registry.indexes)).Nodup
  ids : (e.registry.indexes.map Index.id).Nodup
  primary : e.registry.primary ∈ e.registry.indexes
  isPrimary : e.registry.primary.isPrimary = true
  readOnly : ∀ name ∈ e.registry.primary.facetNames, ∀ a, e.attributes.get? name = some a → a.readOnly = true

theorem Entity.checked_of_ofSchema {s : Schema} {e : Entity} (h : ofSchema s = .ok e) : checked s = .ok e := by
  unfold ofSchema at h
  cases hs : checked s with
  | error fault =>
    rw [hs] at h
    exact nomatch h
  | ok e' =>
    rw [hs] at h
    rw [Except.ok.inj h]

/-- What the checks leave: an entity has the registry and the attributes that its schema declares,
every facet is declared, and no two fields are the same. -/
theorem Entity.ofSchema_ok {s : Schema} {e : Entity} (h : ofSchema s = .ok e) :
    s.registry = .ok e.registry ∧
      e.attributes = s.attributes.map (Attribute.ofDeclaration e.registry.primary.facetNames) ∧
      s.indexList.findSome? s.undefinedFacet? = none ∧
      Schema.sharedField? [] (Schema.attributeFields e.attributes ++ Schema.keyFields e.registry.indexes) = none := by
  have hchecked := checked_of_ofSchema h
  unfold checked at hchecked
  split at hchecked
  · cases hchecked
  split at hchecked
  · cases hchecked
  next hundefined =>
  split at hchecked
  · cases hchecked
  next registry hregistry =>
  simp only at hchecked
  split at hchecked
  · cases hchecked
  next hshared =>
  obtain rfl := Except.ok.inj hchecked
  exact ⟨hregistry, rfl, hundefined, hshared⟩

/-- The scopes of an entity are made of the names in its schema, and its indexes are declared there. -/
theorem Entity.scopes_of_ofSchema {s : Schema} {e : Entity} (h : ofSchema s = .ok e) :
    e.registry.partitionScope = "$" ++ s.service ++ "_" ++ s.version ∧ e.registry.sortScope = "$" ++ s.entity ∧
      e.registry.indexes = s.indexList :=
  (Registry.build_ok (ofSchema_ok h).1).1

/-- **A schema that passes every check gives an accepted entity.** -/
theorem Entity.accepted_of_ofSchema {s : Schema} {e : Entity} (h : ofSchema s = .ok e) : e.Accepted := by
  obtain ⟨hregistry, hattributes, hundefined, hshared⟩ := ofSchema_ok h
  obtain ⟨⟨-, -, hindexes⟩, hids, hprimary, hisPrimary⟩ := Registry.build_ok hregistry
  have hget (name : String) : e.attributes.get? name =
      (s.attributes.get? name).map (Attribute.ofDeclaration e.registry.primary.facetNames name) := by
    rw [hattributes, Dict.get?_map]
  refine ⟨fun name a ha => ?_, fun i hi name hname => ?_, ?_, ?_, ?_, hisPrimary, fun name hname a ha => ?_⟩
  · rw [hget] at ha
    obtain ⟨declaration, -, rfl⟩ := Option.map_eq_some_iff.mp ha
    rfl
  · rw [hindexes] at hi
    have hfacet := List.findSome?_eq_none_iff.mp hundefined i hi
    rw [Schema.undefinedFacet?, Option.map_eq_none_iff, List.find?_eq_none] at hfacet
    have hcontains : s.attributes.contains name = true := by simpa using hfacet name hname
    obtain ⟨declaration, hdeclaration⟩ := Option.isSome_iff_exists.mp hcontains
    exact ⟨_, by rw [hget, hdeclaration]; rfl⟩
  · exact (Schema.sharedField?_eq_none_iff.mp hshared).1
  · rwa [hindexes]
  · rwa [hindexes]
  · rw [hget] at ha
    obtain ⟨declaration, -, rfl⟩ := Option.map_eq_some_iff.mp ha
    simp only [Attribute.ofDeclaration, Bool.or_eq_true, decide_eq_true_eq]
    exact .inr hname

/-- An attribute among all is the one of its name. -/
theorem Entity.Accepted.get?_of_mem {e : Entity} (h : e.Accepted) {a : Attribute}
    (ha : a ∈ e.attributes.values) : e.attributes.get? a.name = some a := by
  obtain ⟨⟨name, a'⟩, hmem, rfl⟩ := List.mem_map.mp ha
  have hget := Dict.mem_entries_iff.mp hmem
  rw [h.named name a' hget, hget]

end SingleTable
