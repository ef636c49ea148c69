import SingleTable.Proofs.Entity.Accepted
import SingleTable.Proofs.Item.Put

/-! Which schemas are accepted.

`Schema.WellFormed` says what a schema must be, in terms of its declarations alone. The
checks of `Entity.ofSchema` run one after another and stop at the first fault; together
they decide exactly this, so a schema gives an entity when it is well-formed and a fault
of a schema otherwise. -/
namespace SingleTable

/-! ### What a schema declares -/

namespace IndexDeclaration

/-- A missing identifier is the empty one, that of the primary index. -/
def identifier (d : IndexDeclaration) : String := d.id.getD ""

def keys (d : IndexDeclaration) : List KeyField := d.partition :: d.sort.toList

def facets (d : IndexDeclaration) : List String := d.keys.flatMap KeyField.facets

end IndexDeclaration

namespace Schema

def identifiers (s : Schema) : List String := s.indexes.values.map IndexDeclaration.identifier

/-- The physical fields of all attributes and then those of all keys. -/
def fields (s : Schema) : List String :=
  s.attributes.entries.map (fun pair => pair.2.field.getD pair.1) ++
    s.indexes.values.flatMap fun d => d.keys.map KeyField.field

/-- The facets of an index without an identifier. -/
def IsPrimaryFacet (s : Schema) (name : String) : Prop :=
  ∃ d ∈ s.indexes.values, d.identifier = "" ∧ name ∈ d.facets

structure WellFormed (s : Schema) : Prop where
  filters : ∀ name ∈ s.filters.keys, name ≠ "go" ∧ name ≠ "params" ∧ name ≠ "filter"
  declared : ∀ d ∈ s.indexes.values, ∀ facet ∈ d.facets, facet ∈ s.attributes.keys
  distinct : s.identifiers.Nodup
  primary : s.identifiers.count "" = 1
  partitioned : ∀ d ∈ s.indexes.values, d.partition.facets ≠ []
  once : ∀ d ∈ s.indexes.values, d.facets.Nodup
  fields : s.fields.Nodup

theorem wellFormed_iff {s : Schema} : s.WellFormed ↔
    (∀ name ∈ s.filters.keys, name ≠ "go" ∧ name ≠ "params" ∧ name ≠ "filter") ∧
      (∀ d ∈ s.indexes.values, ∀ facet ∈ d.facets, facet ∈ s.attributes.keys) ∧
      (s.identifiers.Nodup ∧ s.identifiers.count "" = 1 ∧
        ∀ d ∈ s.indexes.values, d.partition.facets ≠ [] ∧ d.facets.Nodup) ∧
      s.fields.Nodup := by
  constructor
  · intro h
    exact ⟨h.filters, h.declared, ⟨h.distinct, h.primary, fun d hd => ⟨h.partitioned d hd, h.once d hd⟩⟩, h.fields⟩
  · rintro ⟨hfilters, hdeclared, ⟨hdistinct, hprimary, hindexes⟩, hfields⟩
    exact ⟨hfilters, hdeclared, hdistinct, hprimary, fun d hd => (hindexes d hd).1,
      fun d hd => (hindexes d hd).2, hfields⟩

instance (s : Schema) : Decidable s.WellFormed := decidable_of_iff _ wellFormed_iff.symm

/-! ### From declarations to what is checked -/

theorem facetNames_ofDeclaration (name : String) (d : IndexDeclaration) :
    (Index.ofDeclaration name d).facetNames = d.facets := by
  obtain ⟨id, partition, sort⟩ := d
  cases sort <;> simp [Index.ofDeclaration, Index.facetNames, Index.sortFacets,
    IndexDeclaration.facets, IndexDeclaration.keys]

theorem ids_indexList (s : Schema) : s.indexList.map Index.id = s.identifiers := by
  simp [indexList, identifiers, Dict.values, Index.ofDeclaration, IndexDeclaration.identifier]

/-- A property of the indexes that does not mention their names is one of the declarations. -/
theorem forall_indexList {s : Schema} {P : Index → Prop} {Q : IndexDeclaration → Prop}
    (h : ∀ name d, P (.ofDeclaration name d) ↔ Q d) :
    (∀ i ∈ s.indexList, P i) ↔ ∀ d ∈ s.indexes.values, Q d := by
  simp only [indexList, Dict.values, List.forall_mem_map, h]

theorem keys_fields (s : Schema) (primaryFacets : List String) :
    Assoc.keys (attributeFields (s.attributes.map (Attribute.ofDeclaration primaryFacets)) ++
      keyFields s.indexList) = s.fields := by
  simp only [Assoc.keys, attributeFields, keyFields, Dict.values, Dict.map, indexList, fields,
    List.map_append, List.map_map, List.map_flatMap, List.flatMap_map]
  rfl

/-! ### Each check -/

theorem hasReservedFilter_eq_false_iff {s : Schema} : s.hasReservedFilter = false ↔
    ∀ name ∈ s.filters.keys, name ≠ "go" ∧ name ≠ "params" ∧ name ≠ "filter" := by
  simp [hasReservedFilter, reservedNames]

theorem undefinedFacet?_eq_none_iff {s : Schema} {i : Index} :
    s.undefinedFacet? i = none ↔ ∀ facet ∈ i.facetNames, facet ∈ s.attributes.keys := by
  simp [undefinedFacet?, List.find?_eq_none, Dict.contains_iff]

theorem allFacets_declared_iff {s : Schema} : s.indexList.findSome? s.undefinedFacet? = none ↔
    ∀ d ∈ s.indexes.values, ∀ facet ∈ d.facets, facet ∈ s.attributes.keys := by
  rw [List.findSome?_eq_none_iff]
  refine forall_indexList fun name d => ?_
  rw [undefinedFacet?_eq_none_iff, facetNames_ofDeclaration]

/-- Among identifiers of their own, the empty one is there exactly once or not at all. -/
theorem primary_iff {ids : List String} (h : ids.Nodup) : ids.count "" = 1 ↔ "" ∈ ids := by
  constructor
  · intro hcount
    exact List.count_pos_iff.mp (by omega)
  · exact List.count_eq_one_of_mem h

theorem registry_ok_iff {s : Schema} : (∃ r, s.registry = .ok r) ↔
    s.identifiers.Nodup ∧ s.identifiers.count "" = 1 ∧
      ∀ d ∈ s.indexes.values, d.partition.facets ≠ [] ∧ d.facets.Nodup := by
  have hfault : Index.firstFault? [] s.indexList = none ↔
      s.identifiers.Nodup ∧ ∀ d ∈ s.indexes.values, d.partition.facets ≠ [] ∧ d.facets.Nodup := by
    rw [Index.firstFault?_eq_none_iff, ids_indexList]
    have hindexes := @forall_indexList s (fun i => i.partition.facets ≠ [] ∧ i.facetNames.Nodup)
      (fun d => d.partition.facets ≠ [] ∧ d.facets.Nodup) fun name d => by
        rw [facetNames_ofDeclaration]
        rfl
    exact ⟨fun h => ⟨h.1, hindexes.mp h.2.2⟩, fun h => ⟨h.1, fun _ _ => List.not_mem_nil, hindexes.mpr h.2⟩⟩
  have hprimary : (s.indexList.find? Index.isPrimary).isSome ↔ "" ∈ s.identifiers := by
    rw [List.find?_isSome, ← ids_indexList, List.mem_map]
    simp only [Index.isPrimary, beq_iff_eq]
  unfold registry Registry.build
  split
  · next fault hsome =>
    refine iff_of_false (fun h => ?_) fun h => ?_
    · cases h.choose_spec
    · rw [hfault.mpr ⟨h.1, h.2.2⟩] at hsome
      cases hsome
  · next hnone =>
    obtain ⟨hids, hindexes⟩ := hfault.mp hnone
    rw [primary_iff hids, ← hprimary]
    split
    · next primary hfound => exact ⟨fun _ => ⟨hids, by rw [hfound]; rfl, hindexes⟩, fun _ => ⟨_, rfl⟩⟩
    · next hfound =>
      rw [hfound]
      refine iff_of_false (fun h => ?_) fun h => ?_
      · cases h.choose_spec
      · cases h.2.1

end Schema

/-! ### All checks -/

/-- The checks pass exactly when each does; the last one looks at the fields of the declarations,
whatever the primary index is. -/
theorem Entity.checked_ok_iff {s : Schema} : (∃ e, checked s = .ok e) ↔
    s.hasReservedFilter = false ∧ s.indexList.findSome? s.undefinedFacet? = none ∧
      (∃ r, s.registry = .ok r) ∧ s.fields.Nodup := by
  unfold checked
  by_cases hreserved : s.hasReservedFilter = true
  · rw [if_pos hreserved, hreserved]
    exact ⟨fun ⟨_, h⟩ => (nomatch h), fun h => nomatch h.1⟩
  rw [if_neg hreserved]
  cases hundefined : s.indexList.findSome? s.undefinedFacet? with
  | some fault => exact ⟨fun ⟨_, h⟩ => (nomatch h), fun h => nomatch h.2.1⟩
  | none =>
    cases hregistry : s.registry with
    | error fault => exact ⟨fun ⟨_, h⟩ => (nomatch h), fun h => nomatch h.2.2.1⟩
    | ok registry =>
      have hindexes : registry.indexes = s.indexList := (Registry.build_ok hregistry).1.2.2
      have hfields := @Schema.sharedField?_eq_none_iff []
        (Schema.attributeFields (s.attributes.map (Attribute.ofDeclaration registry.primary.facetNames)) ++
          Schema.keyFields registry.indexes)
      rw [hindexes, Schema.keys_fields] at hfields
      simp only [hindexes]
      split
      · next fault hshared =>
        refine ⟨fun ⟨_, h⟩ => (nomatch h), fun h => ?_⟩
        rw [hfields.mpr ⟨h.2.2.2, fun _ _ => List.not_mem_nil⟩] at hshared
        exact nomatch hshared
      · next hshared =>
        exact ⟨fun _ => ⟨Bool.not_eq_true _ ▸ hreserved, trivial, ⟨_, rfl⟩, (hfields.mp hshared).1⟩, fun _ => ⟨_, rfl⟩⟩

theorem Entity.checked_ok_iff_wellFormed {s : Schema} : (∃ e, checked s = .ok e) ↔ s.WellFormed := by
  rw [checked_ok_iff, Schema.hasReservedFilter_eq_false_iff, Schema.allFacets_declared_iff, Schema.registry_ok_iff,
    Schema.wellFormed_iff]

/-- The primary index of an entity is the only one that its schema declares without an identifier. -/
theorem Entity.mem_primaryFacets {s : Schema} {e : Entity} (h : ofSchema s = .ok e) {name : String} :
    name ∈ e.registry.primary.facetNames ↔ s.IsPrimaryFacet name := by
  obtain ⟨⟨-, -, hindexes⟩, hids, hmem, hprimary⟩ := Registry.build_ok (ofSchema_ok h).1
  obtain ⟨⟨name₀, d₀⟩, hd₀, hd₀eq⟩ := List.mem_map.mp hmem
  have hempty : d₀.identifier = "" := by
    rw [← hd₀eq] at hprimary
    exact beq_iff_eq.mp hprimary
  rw [← hd₀eq, Schema.facetNames_ofDeclaration]
  constructor
  · exact fun hname => ⟨d₀, List.mem_map_of_mem hd₀, hempty, hname⟩
  · rintro ⟨d, hd, hid, hname⟩
    rw [Schema.ids_indexList] at hids
    -- two declarations without an identifier are one, for their identifiers differ otherwise
    have heq : d = d₀ := List.inj_on_of_nodup_map hids hd (List.mem_map_of_mem hd₀) (hid.trans hempty.symm)
    rwa [← heq]

/-- **The well-formed schemas are accepted and all others are refused.** An accepted entity has the
attributes of its schema, each read-only when it is declared so or is a facet of the primary index. -/
theorem Entity.ofSchema_ok_iff_wellFormed (s : Schema) :
    (s.WellFormed ↔ ∃ e, ofSchema s = .ok e ∧ e.attributes.keys = s.attributes.keys ∧
      ∀ entry ∈ s.attributes.entries, ∃ a, e.attributes.get? entry.1 = some a ∧
        (a.readOnly = true ↔ entry.2.readOnly = true ∨ s.IsPrimaryFacet entry.1)) ∧
      (¬ s.WellFormed ↔ ∃ fault, ofSchema s = .error (.schema fault)) := by
  rw [← checked_ok_iff_wellFormed]
  cases hchecked : checked s with
  | error fault =>
    have herror : ofSchema s = .error (.schema fault) := by
      rw [ofSchema, hchecked]
      rfl
    rw [herror]
    refine ⟨⟨fun ⟨_, h⟩ => (nomatch h), fun ⟨_, h, _⟩ => nomatch h⟩, fun _ => ⟨fault, rfl⟩, fun _ ⟨_, h⟩ => nomatch h⟩
  | ok e =>
    have hok : ofSchema s = .ok e := by
      rw [ofSchema, hchecked]
      rfl
    have hattributes := (ofSchema_ok hok).2.1
    rw [hok]
    refine ⟨⟨fun _ => ⟨e, rfl, ?_, fun entry hentry => ?_⟩, fun _ => ⟨e, rfl⟩⟩,
      fun h => absurd ⟨e, rfl⟩ h, fun ⟨_, h⟩ => nomatch h⟩
    · rw [hattributes, Dict.keys_map]
    · refine ⟨_, by rw [hattributes, Dict.get?_map, Dict.mem_entries_iff.mp hentry]; rfl, ?_⟩
      rw [Attribute.ofDeclaration, Bool.or_eq_true, decide_eq_true_eq, mem_primaryFacets hok]

example : rooms.WellFormed := by decide

/-- A key may not be kept in the field of an attribute. -/
example : ¬ { rooms with indexes := .ofList [("room", ⟨none, ⟨"buildingId", ["id"]⟩, none⟩)] }.WellFormed := by
  decide

end SingleTable
