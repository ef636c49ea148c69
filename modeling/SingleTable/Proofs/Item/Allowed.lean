import SingleTable.Proofs.Item.Request
import SingleTable.Proofs.Schema.WellFormed

/-! What an update may write.

The fields of the primary keys and those of read-only attributes are locked. An update
assigns attributes that were set, none of which is read-only, and keys of secondary
indexes. The fields of an entity are all different, so none of these is locked and none
is assigned twice: `Update.assigns_unlocked`, after any steps. -/
namespace SingleTable

/-! ### Locked fields -/

/-- Fields that no update may write: of the primary keys, and of attributes that are declared
read-only or are facets of these keys. -/
inductive Schema.Locked (s : Schema) : String → Prop
  | key {d : IndexDeclaration} {key : KeyField} (declared : d ∈ s.indexes.values) (primary : d.identifier = "")
      (own : key ∈ d.keys) : s.Locked key.field
  | column {entry : String × AttributeDeclaration} (declared : entry ∈ s.attributes.entries)
      (readOnly : entry.2.readOnly = true ∨ s.IsPrimaryFacet entry.1) : s.Locked (entry.2.field.getD entry.1)

/-- Fields that an update may write: of attributes that are not read-only, and of secondary keys. -/
inductive Entity.Writable (e : Entity) : String → Prop
  | column {a : Attribute} (ha : a ∈ e.attributes.values) (free : a.readOnly = false) : e.Writable a.field
  | key {i : Index} {key : KeyField} (hi : i ∈ e.registry.indexes) (secondary : i.isPrimary = false)
      (hkey : key ∈ i.keyFields) : e.Writable key.field

namespace Entity

variable {s : Schema} {e : Entity}

theorem index_of_declaration (he : ofSchema s = .ok e) {d : IndexDeclaration} (hd : d ∈ s.indexes.values) :
    ∃ i ∈ e.registry.indexes, i.id = d.identifier ∧ i.keyFields = d.keys := by
  obtain ⟨⟨-, -, hindexes⟩, -⟩ := Registry.build_ok (ofSchema_ok he).1
  obtain ⟨⟨name, d⟩, hmem, rfl⟩ := List.mem_map.mp hd
  exact ⟨.ofDeclaration name d, hindexes ▸ List.mem_map_of_mem hmem, rfl, rfl⟩

theorem attribute_of_declaration (he : ofSchema s = .ok e) {entry : String × AttributeDeclaration}
    (hentry : entry ∈ s.attributes.entries) :
    ∃ a ∈ e.attributes.values, a.field = entry.2.field.getD entry.1 ∧
      (a.readOnly = true ↔ entry.2.readOnly = true ∨ s.IsPrimaryFacet entry.1) := by
  have hget : e.attributes.get? entry.1 = some (.ofDeclaration e.registry.primary.facetNames entry.1 entry.2) := by
    rw [(ofSchema_ok he).2.1, Dict.get?_map, Dict.mem_entries_iff.mp hentry]
    rfl
  refine ⟨_, Dict.mem_values_of_get? hget, rfl, ?_⟩
  rw [Attribute.ofDeclaration, Bool.or_eq_true, decide_eq_true_eq, mem_primaryFacets he]

/-- **No field is both**, for no two fields of an entity are the same. -/
theorem Writable.not_locked {field : String} (h : e.Writable field) (he : ofSchema s = .ok e) : ¬ s.Locked field := by
  have hacc := accepted_of_ofSchema he
  intro hlocked
  cases h with
  | column ha free =>
    generalize hfield : Attribute.field _ = field at hlocked
    cases hlocked with
    | key declared primary own =>
      obtain ⟨i, hi, -, hkeys⟩ := index_of_declaration he declared
      exact hacc.field_ne ha (field_mem_keyFields hi (hkeys ▸ own)) hfield
    | column declared readOnly =>
      obtain ⟨b, hb, hbfield, hreadOnly⟩ := attribute_of_declaration he declared
      obtain rfl := hacc.eq_of_field ha hb (hfield.trans hbfield.symm)
      exact Bool.eq_false_iff.mp free (hreadOnly.mpr readOnly)
  | key hi secondary hkey =>
    generalize hfield : KeyField.field _ = field at hlocked
    cases hlocked with
    | key declared primary own =>
      obtain ⟨j, hj, hid, hkeys⟩ := index_of_declaration he declared
      obtain ⟨rfl, -⟩ := hacc.key_of_field hi hj hkey (hkeys ▸ own) hfield
      rw [primary] at hid
      exact Bool.eq_false_iff.mp secondary (beq_iff_eq.mpr hid)
    | column declared readOnly =>
      obtain ⟨b, hb, hbfield, -⟩ := attribute_of_declaration he declared
      exact hacc.field_ne hb (field_mem_keyFields hi hkey) (hbfield.trans hfield.symm)

end Entity

/-! ### Assigned fields -/

/-- The fields that the names of the assignments stand for. -/
def UpdateParams.fields? (p : UpdateParams) : Option (List String) :=
  p.assignments.mapM fun a => p.expressions.names.get? a.name

namespace Update

/-- The assigned fields are those that are written. -/
theorem fields?_params {u : Update} (hset : u.set.isEmpty = false) :
    ∃ p, u.params = .ok p ∧ p.fields? = some (Assoc.keys u.written) := by
  obtain ⟨p, hparams, hresolves⟩ := assignments_resolve hset
  refine ⟨p, hparams, ?_⟩
  rw [Assoc.keys, written, List.map_map]
  exact mapM_of_forall₂ (hresolves.imp fun assignment write hw => hw.1)

/-- **An update writes what is writable**, as long as what it has set may be set. -/
theorem written_writable {u : Update} (hacc : u.entity.Accepted) (hset : Settable u.entity u.set) :
    ∀ field ∈ Assoc.keys u.written, u.entity.Writable field := by
  intro field hfield
  rw [u.written_eq, Assoc.keys, List.map_append, List.mem_append] at hfield
  rcases hfield with hattribute | hkey
  · obtain ⟨entry, hentry, rfl⟩ := List.mem_map.mp hattribute
    obtain ⟨a, ha, hvalue⟩ := List.mem_filterMap.mp hentry
    obtain ⟨value, hset', rfl⟩ := Option.map_eq_some_iff.mp hvalue
    obtain ⟨a', ha', -, hfree⟩ := hset a.name value hset'
    obtain rfl := Option.some.inj ((hacc.get?_of_mem ha).symm.trans ha')
    exact .column ha hfree
  · obtain ⟨entry, hentry, rfl⟩ := List.mem_map.mp hkey
    obtain ⟨i, hi, hkeys⟩ := List.mem_flatMap.mp hentry
    obtain ⟨key, hrecomposed, rfl⟩ := List.mem_map.mp hkeys
    obtain ⟨hi, hsecondary⟩ := List.mem_filter.mp hi
    have hscoped := (List.mem_filter.mp hrecomposed).1
    exact .key hi (Bool.not_eq_true' _ ▸ hsecondary) (Registry.mem_keyFields_of_scoped hscoped)

/-- **An update assigns no field twice, and none that is locked**, whatever steps led to it. -/
theorem assigns_unlocked {s : Schema} {e : Entity} (he : Entity.ofSchema s = .ok e) {address : Json} {u₀ u : Update}
    {steps : List Step} (hupdate : e.update address = .ok u₀) (hrun : u₀.run steps = .ok u)
    (hset : u.set.isEmpty = false) :
    ∃ p fields, u.params = .ok p ∧ p.fields? = some fields ∧ fields.Nodup ∧ ∀ field ∈ fields, ¬ s.Locked field := by
  obtain ⟨rfl, -, hsettable⟩ := settable_of_run hupdate hrun
  have hacc := Entity.accepted_of_ofSchema he
  obtain ⟨p, hparams, hfields⟩ := fields?_params hset
  refine ⟨p, _, hparams, hfields, ?_, fun field hfield => ?_⟩
  · rw [u.written_eq]
    exact hacc.nodup_entries u.set u.writtenKeys_sublist
  · exact (written_writable hacc hsettable field hfield).not_locked he

/-- The theorem for attributes that are named like placeholders and like the key that is assigned with them. -/
theorem assigns_unlocked_crowded : ∃ e u₀ u p, Entity.ofSchema crowded = .ok e ∧
    e.update (.object [("id", .string "7")]) = .ok u₀ ∧ u₀.run crowdedSteps = .ok u ∧ u.params = .ok p ∧
    p.fields? = some ["a", "a1", "letter", "gsi1pk"] ∧
    ∀ field ∈ ["a", "a1", "letter", "gsi1pk"], ¬ crowded.Locked field := by
  obtain ⟨p, fields, hparams, hfields, -, hunlocked⟩ :=
    @assigns_unlocked crowded _ rfl (.object [("id", .string "7")]) _ _ crowdedSteps rfl rfl rfl
  obtain rfl := Except.ok.inj hparams
  obtain rfl := Option.some.inj hfields
  exact ⟨_, _, _, _, rfl, rfl, rfl, rfl, rfl, hunlocked⟩

end Update

end SingleTable
