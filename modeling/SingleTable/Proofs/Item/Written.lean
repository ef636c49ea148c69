import SingleTable.Item.Stored
import SingleTable.Proofs.Index.Reread
import SingleTable.Proofs.Item.Identity

/-! What comes back of a stored item.

The store keeps a value for every field of an item, of the attributes and of all keys, in no order. A
read takes out the fields of the attributes, in the order of their declaration. As no field has two
owners, each of them holds what was written for its attribute, and nothing else does: a read gives the
attributes of the item as they were written, but for numbers that the store gives back as others
(`Accepted.format_eq`). If all numbers are integers, it gives exactly what the put gave
(`stored_item_read`). -/
namespace SingleTable

/-! ### Maps under a change of their values -/

namespace Dict

variable {α β : Type}

theorem map_eq_self {d : Dict α} {f : String → α → α} (h : ∀ key value, d.get? key = some value → f key value = value) :
    d.map f = d := by
  refine ext ((List.map_congr_left fun entry hentry => ?_).trans (List.map_id d.entries))
  exact Prod.ext rfl (h entry.1 entry.2 (mem_entries_iff.mp hentry))

theorem map_map {γ : Type} (f : String → β → γ) (g : String → α → β) (d : Dict α) :
    (d.map g).map f = d.map fun key value => f key (g key value) :=
  ext (List.map_map ..)

/-- A map that is looked up like the image of another is itself an image, in its own order, of one that
is looked up like the other. -/
theorem eq_map_of_get? [Inhabited α] (f : α → β) {d : Dict β} {e : Dict α}
    (h : ∀ key, d.get? key = (e.get? key).map f) :
    ∃ e' : Dict α, d = e'.map (fun _ => f) ∧ ∀ key, e'.get? key = e.get? key := by
  refine ⟨d.map fun key _ => (e.get? key).getD default, ?_, fun key => ?_⟩
  · rw [map_map, map_eq_self]
    intro key value hvalue
    rw [h] at hvalue
    obtain ⟨original, horiginal, rfl⟩ := Option.map_eq_some_iff.mp hvalue
    rw [horiginal, Option.getD_some]
  · rw [get?_map, h]
    cases e.get? key <;> rfl

end Dict

/-- The item as the store holds it. -/
def Put.stored (p : Put) : StoredItem := p.item.map fun _ value => StoredValue.ofJson value

namespace Entity

variable {e : Entity}

/-! ### What a read gives -/

/-- Every value of an item is of some kind. -/
theorem Accepted.kind_of_put (h : e.Accepted) {input : Json} {p : Put} (hput : e.put input = .ok p) {field : String}
    {value : Json} (hvalue : p.item.get? field = some value) : ∃ kind : Kind, kind.refusal? value = none := by
  obtain ⟨-, -, hitem⟩ := put_ok hput
  rw [hitem] at hvalue
  rcases List.mem_append.mp (Dict.mem_of_get?_ofList hvalue) with hmem | hmem
  · obtain ⟨a, -, hpair⟩ := List.mem_filterMap.mp hmem
    obtain ⟨v, hv, heq⟩ := Option.map_eq_some_iff.mp hpair
    obtain ⟨-, rfl⟩ := Prod.mk.inj heq
    obtain ⟨b, -, hkind⟩ := h.fits_of_put hput _ _ hv
    exact ⟨b.kind, hkind⟩
  · obtain ⟨i, -, hentry⟩ := List.mem_flatMap.mp hmem
    rw [Registry.keyEntries_eq] at hentry
    obtain ⟨key, -, heq⟩ := List.mem_map.mp hentry
    obtain ⟨-, rfl⟩ := Prod.mk.inj heq
    exact ⟨.scalar .string, rfl⟩

/-- Values of kinds are all readable. -/
theorem toMembers?_ofJson {entries : List (String × Json)}
    (h : ∀ entry ∈ entries, ∃ kind : Kind, kind.refusal? entry.2 = none) :
    StoredValue.toMembers? (entries.map fun entry => (entry.1, StoredValue.ofJson entry.2)) =
      some (entries.map fun entry => (entry.1, entry.2.reread)) := by
  induction entries with
  | nil => rfl
  | cons entry rest ih =>
    obtain ⟨kind, hkind⟩ := h entry (List.mem_cons_self ..)
    rw [List.map_cons, StoredValue.toMembers?, kind.toJson?_ofJson hkind,
      ih fun other hother => h other (List.mem_cons_of_mem _ hother), List.map_cons]

theorem readFields_map {fields : Dict Json}
    (h : ∀ field value, fields.get? field = some value → ∃ kind : Kind, kind.refusal? value = none) :
    readFields (fields.map fun _ value => StoredValue.ofJson value) = .ok (fields.map fun _ value => value.reread) := by
  have hread := @toMembers?_ofJson fields.entries fun entry hentry => h _ _ (Dict.mem_entries_iff.mp hentry)
  rw [readFields, Dict.map, hread]
  exact congrArg Except.ok (Dict.ext (Dict.entries_ofList (fields.map fun _ (value : Json) => value.reread).nodup))

/-! ### In the order of the declaration -/

/-- Resolved values stand in the order in which their attributes are resolved. -/
theorem entries_resolveAll {supplied resolved acc : Facets} {attributes : List Attribute}
    (hnodup : (attributes.map Attribute.name).Nodup) (hnew : ∀ a ∈ attributes, a.name ∉ acc.keys)
    (h : resolveAll supplied attributes acc = .ok resolved) :
    resolved.entries =
      acc.entries ++ attributes.filterMap fun a => (resolved.get? a.name).map fun value => (a.name, value) := by
  induction attributes generalizing acc with
  | nil =>
    obtain rfl := Except.ok.inj h
    exact (List.append_nil _).symm
  | cons a rest ih =>
    have hall := (Entity.resolveAll_ok hnodup h).2 a (List.mem_cons_self ..)
      (Dict.get?_eq_none_iff.mpr (hnew a (List.mem_cons_self ..)))
    rw [List.map_cons, List.nodup_cons] at hnodup
    rw [resolveAll, hall] at h
    have hrest (b : Attribute) (hb : b ∈ rest) : b.name ∉ acc.keys := hnew b (List.mem_cons_of_mem _ hb)
    rw [List.filterMap_cons]
    cases hvalue : resolved.get? a.name with
    | none =>
      rw [hvalue] at h
      exact ih hnodup.2 hrest h
    | some value =>
      rw [hvalue] at h
      have hnew' (b : Attribute) (hb : b ∈ rest) : b.name ∉ (acc.insert a.name value).keys := by
        rw [Dict.mem_keys_insert, not_or]
        exact ⟨fun heq => hnodup.1 (heq ▸ List.mem_map_of_mem hb), hrest b hb⟩
      rw [ih hnodup.2 hnew' h, Dict.entries_insert_of_notMem (hnew a (List.mem_cons_self ..)), List.append_assoc]
      rfl

/-- **The attributes of an item stand in the order of their declaration.** -/
theorem Accepted.entries_of_put (h : e.Accepted) {input : Json} {p : Put} (hput : e.put input = .ok p) :
    p.attributes.entries =
      e.attributes.values.filterMap fun a => (p.attributes.get? a.name).map fun value => (a.name, value) := by
  obtain ⟨⟨supplied, -, hresolve⟩, -, -⟩ := put_ok hput
  have hnodup : (e.attributes.values.map Attribute.name).Nodup := by
    rw [h.map_names]
    exact e.attributes.nodup
  exact entries_resolveAll hnodup (fun _ _ => List.not_mem_nil) hresolve

/-- No attribute is among them that is not declared. -/
theorem Accepted.keys_sublist_of_put (h : e.Accepted) {input : Json} {p : Put} (hput : e.put input = .ok p) :
    p.attributes.keys.Sublist e.attributes.keys := by
  rw [Dict.keys, h.entries_of_put hput, ← h.map_names]
  exact Assoc.keys_filterMap_sublist e.attributes.values Attribute.name fun a => p.attributes.get? a.name

/-- **A read gives the attributes of an item as the store gives back their values**, in whatever order
the store keeps the fields. -/
theorem Accepted.format_eq (h : e.Accepted) {input : Json} {p : Put} (hput : e.put input = .ok p)
    {stored : StoredItem} (hstored : ∀ field, stored.get? field = p.stored.get? field) :
    e.format stored = .ok (p.attributes.map fun _ value => value.reread) := by
  obtain ⟨-, -, hitem⟩ := put_ok hput
  obtain ⟨fields, rfl, hfields⟩ := Dict.eq_map_of_get? (d := stored) StoredValue.ofJson fun field => by
    rw [hstored, Put.stored, Dict.get?_map]
  have hread := readFields_map fun field value hvalue => h.kind_of_put hput ((hfields field).symm.trans hvalue)
  -- What is read of the field of an attribute is what was written for the attribute.
  have hfield : ∀ a ∈ e.attributes.values,
      ((fields.map fun _ value => value.reread).get? a.field).map (fun value => (a.name, value)) =
        ((p.attributes.get? a.name).map fun value => (a.name, value)).map fun entry => (entry.1, entry.2.reread) := by
    intro a ha
    rw [Dict.get?_map, hfields, hitem, h.item_attribute p.attributes ha, Option.map_map, Option.map_map]
    rfl
  have hentries : (e.attributes.values.filterMap fun a =>
      ((fields.map fun _ value => value.reread).get? a.field).map fun value => (a.name, value)) =
        (p.attributes.map fun _ value => value.reread).entries := by
    rw [List.filterMap_congr hfield, ← List.map_filterMap, ← h.entries_of_put hput]
    rfl
  rw [format, hread, Except.map, hentries]
  exact congrArg Except.ok (Dict.ext (Dict.entries_ofList (p.attributes.map fun _ value => value.reread).nodup))

/-- It gives them as they were written exactly if every value comes back as itself. -/
theorem Accepted.format_eq_iff (h : e.Accepted) {input : Json} {p : Put} (hput : e.put input = .ok p)
    {stored : StoredItem} (hstored : ∀ field, stored.get? field = p.stored.get? field) :
    e.format stored = .ok p.attributes ↔ ∀ name value, p.attributes.get? name = some value → value.Stable := by
  rw [h.format_eq hput hstored, Except.ok.injEq]
  constructor
  · intro heq name value hvalue
    have hget := congrArg (Dict.get? · name) heq
    simp only [Dict.get?_map, hvalue, Option.map_some, Option.some_inj] at hget
    exact value.keyText_reread_iff.mp (congrArg Json.keyText hget)
  · intro hstable
    exact Dict.map_eq_self fun name value hvalue => Json.reread_of_stable (hstable name value hvalue)

end Entity

/-! ### The theorem -/

/-- **Stored items read back as they were written.** If all numbers of an item are integers that a 64-bit
word holds, a read gives exactly the attributes that the put gave when it was done: all of them, with
their values, in the order of their declaration, and nothing for the fields of keys. The store keeps the
fields in an order of its own. -/
theorem Entity.stored_item_read {s : Schema} {e : Entity} (he : ofSchema s = .ok e) {input : Json} {p : Put}
    (hput : e.put input = .ok p)
    (hintegers : ∀ name x, p.attributes.get? name = some (.number x) → ∃ value fits, x = .integer value fits)
    {stored : StoredItem} (hstored : ∀ field, stored.get? field = (p.item.get? field).map StoredValue.ofJson) :
    e.format stored = .ok p.attributes ∧ p.attributes.keys.Sublist s.attributes.keys ∧
      ∀ response, response.done = .ok () → p.receive response = .ok p.attributes := by
  have hacc := accepted_of_ofSchema he
  have hkeys : e.attributes.keys = s.attributes.keys := by
    rw [(ofSchema_ok he).2.1, Dict.keys_map]
  refine ⟨(hacc.format_eq_iff hput fun field => ?_).mpr fun name value hvalue => ?_,
    hkeys ▸ hacc.keys_sublist_of_put hput, fun response hdone => ?_⟩
  · rw [hstored, Put.stored, Dict.get?_map]
  · cases value with
    | number x =>
      obtain ⟨value, fits, rfl⟩ := hintegers name x hvalue
      trivial
    | null | bool | string | array | object => trivial
  · rw [Put.receive, hdone]
    rfl

/-! ### Readings -/

/-- Readings of an instrument, found by number and, one of a number, by value. -/
def readings : Schema where
  service := "s"
  entity := "reading"
  table := "t"
  version := "1"
  attributes := .ofList
    [("n", ⟨none, none, none, false, false, .scalar .number⟩),
      ("value", ⟨none, none, none, false, false, .scalar .number⟩)]
  indexes := .ofList [("reading", ⟨none, ⟨"pk", ["n"]⟩, some ⟨"sk", ["value"]⟩⟩)]
  filters := .empty

/-- A value as a caller gives it, before the number that it is declared after. -/
def countReading : Json :=
  .object [("value", .number (.integer 3 (by decide))), ("n", .number (.integer (-1) (by decide)))]

/-- The theorem for a reading of integers. -/
theorem Entity.stored_reading_read : ∃ e p, ofSchema readings = .ok e ∧ e.put countReading = .ok p ∧
    e.format p.stored = .ok p.attributes ∧ p.attributes.keys = ["n", "value"] := by
  refine ⟨_, _, rfl, rfl, ?_, rfl⟩
  refine (@stored_item_read readings _ rfl countReading _ rfl ?_ _ fun field => Dict.get?_map ..).1
  intro name x hx
  have hmem := List.mem_map_of_mem (f := Prod.snd) (Dict.mem_entries_iff.mpr hx)
  rcases List.mem_pair.mp hmem with hn | hvalue
  · exact ⟨-1, by decide, Json.number.inj hn⟩
  · exact ⟨3, by decide, Json.number.inj hvalue⟩

end SingleTable
