import SingleTable.Item.Put
import SingleTable.Proofs.Entity.Accepted
import SingleTable.Proofs.Index.Key
import Mathlib.Data.List.Nodup

/-! What a stored item holds.

All fields of an accepted entity are different, so nothing in an item is written
over: the field of an attribute holds its resolved value, and the field of a key
holds the key that the resolved values compose, which all facets go into. -/
namespace SingleTable

/-! ### Facets of a registry -/

theorem Index.exists_slot_iff {i : Index} {name : String} :
    (∃ s ∈ i.slots, s.facet = name) ↔ name ∈ i.facetNames := by
  rw [slots, facetNames, List.mem_append]
  constructor
  · rintro ⟨s, hs, rfl⟩
    rcases List.mem_append.mp hs with hs | hs
    · obtain ⟨facet, hfacet, rfl⟩ := List.mem_map.mp hs
      exact .inl hfacet
    · obtain ⟨facet, hfacet, rfl⟩ := List.mem_map.mp hs
      exact .inr hfacet
  · rintro (hname | hname)
    · exact ⟨_, List.mem_append_left _ (List.mem_map_of_mem hname), rfl⟩
    · exact ⟨_, List.mem_append_right _ (List.mem_map_of_mem hname), rfl⟩

/-- The facets of slots, each once, after the names that were there before. -/
theorem Registry.mem_foldl_slots {name : String} {slots : List Slot} {names : List String} :
    name ∈ slots.foldl (fun names s => if s.facet ∈ names then names else names ++ [s.facet]) names ↔
      name ∈ names ∨ ∃ s ∈ slots, s.facet = name := by
  induction slots generalizing names with
  | nil => simp
  | cons s rest ih =>
    rw [List.foldl_cons, ih]
    by_cases hs : s.facet ∈ names
    · rw [if_pos hs, List.exists_mem_cons_iff]
      constructor
      · exact Or.imp_right .inr
      · rintro (hname | rfl | hrest)
        · exact .inl hname
        · exact .inl hs
        · exact .inr hrest
    · rw [if_neg hs, List.mem_append, List.mem_singleton, List.exists_mem_cons_iff, or_assoc, eq_comm]

theorem Registry.mem_facetNames {r : Registry} {name : String} :
    name ∈ r.facetNames ↔ ∃ i ∈ r.indexes, name ∈ i.facetNames := by
  rw [facetNames, mem_foldl_slots, slots]
  simp only [List.not_mem_nil, false_or, List.mem_flatMap]
  constructor
  · rintro ⟨s, ⟨i, hi, hs⟩, hname⟩
    exact ⟨i, hi, Index.exists_slot_iff.mp ⟨s, hs, hname⟩⟩
  · rintro ⟨i, hi, hname⟩
    obtain ⟨s, hs, hfacet⟩ := Index.exists_slot_iff.mpr hname
    exact ⟨s, ⟨i, hi, hs⟩, hfacet⟩

/-! ### Entries of an item -/

/-- Entries for some of a list have their names in its order. -/
theorem Assoc.keys_filterMap_sublist {α β : Type} (list : List α) (name : α → String) (value? : α → Option β) :
    (keys (list.filterMap fun a => (value? a).map fun value => (name a, value))).Sublist (list.map name) := by
  rw [keys]
  induction list with
  | nil => exact .slnil
  | cons a rest ih =>
    rw [List.filterMap_cons, List.map_cons]
    cases value? a with
    | none => exact ih.cons _
    | some value => exact ih.cons_cons _

theorem Registry.keys_keyEntries (r : Registry) (i : Index) (values : Facets) :
    Assoc.keys (r.keyEntries i values) = i.keyFields.map KeyField.field := by
  rw [r.keyEntries_eq, ← r.map_scopedKeys, Assoc.keys, List.map_map, List.map_map]
  rfl

namespace Entity

variable {e : Entity}

/-- The fields of attributes with their values. -/
def attributeEntries (e : Entity) (values : Facets) : List (String × Json) :=
  e.attributes.values.filterMap fun a => (values.get? a.name).map fun value => (a.field, value)

theorem attributeEntries_sublist (e : Entity) (values : Facets) :
    (Assoc.keys (e.attributeEntries values)).Sublist (Assoc.keys (Schema.attributeFields e.attributes)) := by
  rw [Schema.attributeFields, Assoc.keys, Assoc.keys, List.map_map]
  exact Assoc.keys_filterMap_sublist e.attributes.values Attribute.field fun a => values.get? a.name

/-- No field is written twice if the other entries are for fields of keys. -/
theorem Accepted.nodup_entries (h : e.Accepted) (values : Facets) {others : List (String × Json)}
    (hothers : (Assoc.keys others).Sublist (Assoc.keys (Schema.keyFields e.registry.indexes))) :
    (Assoc.keys (e.attributeEntries values ++ others)).Nodup := by
  have hsublist := (e.attributeEntries_sublist values).append hothers
  have hfields := h.fields
  rw [Assoc.keys, List.map_append] at hfields ⊢
  exact hsublist.nodup hfields

/-- The fields of attributes differ, those of keys differ, and no field is of both. -/
theorem Accepted.fields_apart (h : e.Accepted) :
    (e.attributes.values.map Attribute.field).Nodup ∧
      (Assoc.keys (Schema.keyFields e.registry.indexes)).Nodup ∧
      ∀ a ∈ e.attributes.values, ∀ field ∈ Assoc.keys (Schema.keyFields e.registry.indexes), a.field ≠ field := by
  have hnodup := h.fields
  rw [Assoc.keys, List.map_append, Schema.attributeFields, List.map_map, List.nodup_append] at hnodup
  obtain ⟨hattributes, hkeys, hapart⟩ := hnodup
  exact ⟨hattributes, hkeys, fun a ha => hapart a.field (List.mem_map_of_mem ha)⟩

/-- Two attributes with one field are the same. -/
theorem Accepted.eq_of_field (h : e.Accepted) {a b : Attribute} (ha : a ∈ e.attributes.values)
    (hb : b ∈ e.attributes.values) (hfield : a.field = b.field) : a = b :=
  List.inj_on_of_nodup_map h.fields_apart.1 ha hb hfield

theorem field_mem_keyFields {indexes : List Index} {i : Index} (hi : i ∈ indexes) {key : KeyField}
    (hkey : key ∈ i.keyFields) : key.field ∈ Assoc.keys (Schema.keyFields indexes) :=
  List.mem_map.mpr ⟨(key.field, .index i.name), List.mem_flatMap.mpr ⟨i, hi, List.mem_map_of_mem hkey⟩, rfl⟩

/-- No key has the field of an attribute. -/
theorem Accepted.field_ne (h : e.Accepted) {a : Attribute} (ha : a ∈ e.attributes.values) {field : String}
    (hfield : field ∈ Assoc.keys (Schema.keyFields e.registry.indexes)) : a.field ≠ field :=
  h.fields_apart.2.2 a ha field hfield

/-- Two keys with one field are the same key of the same index. -/
theorem Accepted.key_of_field (h : e.Accepted) {i j : Index} (hi : i ∈ e.registry.indexes)
    (hj : j ∈ e.registry.indexes) {key other : KeyField} (hkey : key ∈ i.keyFields) (hother : other ∈ j.keyFields)
    (hfield : key.field = other.field) : i = j ∧ key = other := by
  let pairs := e.registry.indexes.flatMap fun i => i.keyFields.map fun key => (i, key)
  have hmem {i : Index} (hi : i ∈ e.registry.indexes) {key : KeyField} (hkey : key ∈ i.keyFields) :
      (i, key) ∈ pairs := List.mem_flatMap.mpr ⟨i, hi, List.mem_map_of_mem hkey⟩
  have hpairs : pairs.map (fun pair => pair.2.field) = Assoc.keys (Schema.keyFields e.registry.indexes) := by
    rw [Schema.keyFields, Assoc.keys, List.map_flatMap, List.map_flatMap]
    refine List.flatMap_congr fun i _ => ?_
    rw [List.map_map, List.map_map]
    rfl
  have hnodup : (pairs.map fun pair => pair.2.field).Nodup := by
    rw [hpairs]
    exact h.fields_apart.2.1
  have heq := List.inj_on_of_nodup_map hnodup (hmem hi hkey) (hmem hj hother) hfield
  exact Prod.mk.inj heq

/-- **The field of an attribute holds its value**, whatever is written for keys. -/
theorem Accepted.get?_attribute (h : e.Accepted) (values : Facets) {others : List (String × Json)}
    (hothers : (Assoc.keys others).Sublist (Assoc.keys (Schema.keyFields e.registry.indexes)))
    {a : Attribute} (ha : a ∈ e.attributes.values) :
    (Dict.ofList (e.attributeEntries values ++ others)).get? a.field = values.get? a.name := by
  refine Option.ext fun value => ?_
  rw [Dict.get?_ofList (h.nodup_entries values hothers), List.mem_append]
  constructor
  · rintro (hmem | hmem)
    · obtain ⟨b, hb, hvalue⟩ := List.mem_filterMap.mp hmem
      obtain ⟨v, hv, hpair⟩ := Option.map_eq_some_iff.mp hvalue
      obtain ⟨hfield, rfl⟩ := Prod.mk.inj hpair
      rw [h.eq_of_field ha hb hfield.symm, hv]
    · exact absurd rfl (h.field_ne ha (hothers.subset (List.mem_map_of_mem hmem)))
  · intro hvalue
    exact .inl (List.mem_filterMap.mpr ⟨a, ha, by rw [hvalue]; rfl⟩)

/-! ### Items -/

theorem keys_keyEntries (e : Entity) (values : Facets) :
    Assoc.keys (e.registry.indexes.flatMap fun i => e.registry.keyEntries i values) =
      Assoc.keys (Schema.keyFields e.registry.indexes) := by
  rw [Schema.keyFields, Assoc.keys, Assoc.keys, List.map_flatMap, List.map_flatMap]
  refine List.flatMap_congr fun i _ => ?_
  rw [List.map_map]
  exact e.registry.keys_keyEntries i values

/-- No field of an item is written twice. -/
theorem Accepted.nodup_itemEntries (h : e.Accepted) (resolved : Facets) :
    (Assoc.keys (e.itemEntries resolved)).Nodup :=
  h.nodup_entries resolved (by rw [keys_keyEntries])

/-- The field of an attribute holds its value. -/
theorem Accepted.item_attribute (h : e.Accepted) (resolved : Facets) {a : Attribute}
    (ha : a ∈ e.attributes.values) :
    (Dict.ofList (e.itemEntries resolved)).get? a.field = resolved.get? a.name :=
  h.get?_attribute resolved (by rw [keys_keyEntries]) ha

/-- **The field of a key holds the key that the values compose.** -/
theorem Accepted.item_key (h : e.Accepted) (resolved : Facets) {i : Index} (hi : i ∈ e.registry.indexes)
    {key : String × KeyField} (hkey : key ∈ e.registry.scopedKeys i) :
    (Dict.ofList (e.itemEntries resolved)).get? key.2.field =
      some (.string (composeKey key.1 key.2.facets resolved)) := by
  rw [Dict.get?_ofList (h.nodup_itemEntries resolved), itemEntries]
  refine List.mem_append_right _ (List.mem_flatMap.mpr ⟨i, hi, ?_⟩)
  rw [Registry.keyEntries_eq]
  exact List.mem_map_of_mem hkey

/-! ### Accepted items -/

/-- What an accepted item is: its resolved attributes have all facets, and give all its entries. -/
theorem put_ok {input : Json} {p : Put} (h : e.put input = .ok p) :
    (∃ supplied, e.facets input = .ok supplied ∧
      resolveAll supplied e.attributes.values .empty = .ok p.attributes) ∧
    (∀ i ∈ e.registry.indexes, ∀ name ∈ i.facetNames, p.attributes.has name = true) ∧
    p.item = Dict.ofList (e.itemEntries p.attributes) := by
  unfold put at h
  split at h
  · exact nomatch h
  next supplied hsupplied =>
  split at h
  · exact nomatch h
  next resolved hresolved =>
  split at h
  · exact nomatch h
  next required hrequired =>
  obtain rfl := Except.ok.inj h
  refine ⟨⟨supplied, hsupplied, hresolved⟩, fun i hi name hname => ?_, rfl⟩
  exact (Facets.require_ok hrequired).1 name (Registry.mem_facetNames.mpr ⟨i, hi, hname⟩)

/-- Values that resolve and then have all facets are accepted. -/
theorem put_of_resolveAll {input : Json} {supplied resolved : Facets} (hsupplied : e.facets input = .ok supplied)
    (hresolved : resolveAll supplied e.attributes.values .empty = .ok resolved)
    (hhas : ∀ i ∈ e.registry.indexes, ∀ name ∈ i.facetNames, resolved.has name = true) :
    e.put input = .ok ⟨e, resolved, Dict.ofList (e.itemEntries resolved), .empty⟩ := by
  have hmissing : resolved.missing e.registry.facetNames = [] := by
    refine Facets.missing_eq_nil_iff.mpr fun name hname => ?_
    obtain ⟨i, hi, hfacet⟩ := Registry.mem_facetNames.mp hname
    exact hhas i hi name hfacet
  rw [put, hsupplied]
  simp only [hresolved, Facets.require, hmissing, if_true]

end Entity

/-! ### Rooms -/

/-- Rooms, found by identifier, or by building and floor. The floor has a default. -/
def rooms : Schema where
  service := "s"
  entity := "room"
  table := "t"
  version := "1"
  attributes := .ofList
    [("id", ⟨none, none, none, false, false, .scalar .string⟩),
      ("building", ⟨none, some "buildingId", none, false, true, .scalar .string⟩),
      ("floor", ⟨some (.string "0"), none, none, false, false, .scalar .string⟩),
      ("note", ⟨none, none, none, false, false, .scalar .string⟩)]
  indexes := .ofList
    [("room", ⟨none, ⟨"pk", ["id"]⟩, none⟩),
      ("building", ⟨some "gsi1", ⟨"gsi1pk", ["building"]⟩, some ⟨"gsi1sk", ["floor", "id"]⟩⟩)]
  filters := .empty

def room : Json := .object [("id", .string "7"), ("building", .string "A"), ("note", .string "x")]

end SingleTable
