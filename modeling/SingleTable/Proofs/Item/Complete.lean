import SingleTable.Proofs.Item.Identity
import SingleTable.Proofs.Schema.WellFormed

/-! Which items a put accepts, and what it stores of them.

`Schema.Completes` says when given values make a whole item, and `Schema.wholeItem?` which one, both in
terms of the declarations alone. A put looks at the values three times: it checks those that are given,
resolves each attribute, and asks for the facets of all indexes. Together that accepts the values that
complete an item and no others, and what is stored is the whole item (`put_ok_iff_completes`): no key is
left out, cut short or written over. -/
namespace SingleTable

/-! ### Whole items -/

namespace Schema

/-- The value of an attribute in an item: the one that is given, unless it is null, or else the default. -/
def valueOf? (s : Schema) (given : Facets) (name : String) : Option Json :=
  (s.attributes.get? name).bind fun d => (given.value? name).or d.default

/-- Given values complete an item: they are of the kinds of their attributes, each attribute resolves to
what it may have, and each facet of each index to a value. -/
structure Completes (s : Schema) (given : Facets) : Prop where
  typed : ∀ name d value, s.attributes.get? name = some d → given.value? name = some value →
    d.kind.refusal? value = none
  resolves : ∀ name d, s.attributes.get? name = some d → d.kind.Takes d.required (s.valueOf? given name)
  keyed : ∀ d ∈ s.indexes.values, ∀ facet ∈ d.facets, ∃ value, s.valueOf? given facet = some value

/-- The fields of the attributes that have values, in the order of their declaration. -/
def fieldEntries (s : Schema) (given : Facets) : List (String × Json) :=
  s.attributes.entries.filterMap fun entry =>
    (s.valueOf? given entry.1).map fun value => (entry.2.field.getD entry.1, value)

/-- The keys of all indexes in the order of their declaration, each with the leading part of its text. -/
def scopedKeys (s : Schema) : List (String × KeyField) :=
  s.indexes.values.flatMap fun d =>
    ("$" ++ s.service ++ "_" ++ s.version, d.partition) :: d.sort.toList.map fun sort => ("$" ++ s.entity, sort)

/-- The fields of the attributes and then those of all keys, if each key has all its facets. -/
def wholeItem? (s : Schema) (given : Facets) : Option (List (String × Json)) :=
  (s.scopedKeys.mapM fun key =>
      (fullKey? (s.valueOf? given) key.1 key.2.facets).map fun text => (key.2.field, Json.string text)).map
    fun keys => s.fieldEntries given ++ keys

end Schema

/-! ### Attributes and their declarations -/

namespace Entity

variable {s : Schema} {e : Entity} {given resolved : Facets}

/-- What a schema declares of an attribute is what its entity has for it. -/
theorem get?_of_declared (he : ofSchema s = .ok e) (name : String) : e.attributes.get? name =
    (s.attributes.get? name).map (Attribute.ofDeclaration e.registry.primary.facetNames name) := by
  rw [(ofSchema_ok he).2.1, Dict.get?_map]

/-- A property of all attributes is one of all declarations. -/
theorem forall_attributes (he : ofSchema s = .ok e) {P : Attribute → Prop} : (∀ a ∈ e.attributes.values, P a) ↔
    ∀ name d, s.attributes.get? name = some d → P (.ofDeclaration e.registry.primary.facetNames name d) := by
  rw [(ofSchema_ok he).2.1]
  simp only [Dict.values, Dict.map, List.forall_mem_map, ← Dict.mem_entries_iff, Prod.forall]

theorem typed_iff_declared (he : ofSchema s = .ok e) : e.Typed given ↔
    ∀ name d value, s.attributes.get? name = some d → given.value? name = some value →
      d.kind.refusal? value = none := by
  constructor
  · intro h name d value hd hvalue
    exact h name value _ hvalue (by rw [get?_of_declared he, hd]; rfl)
  · intro h name value a hvalue ha
    rw [get?_of_declared he] at ha
    obtain ⟨d, hd, rfl⟩ := Option.map_eq_some_iff.mp ha
    exact h name d value hd hvalue

/-! ### The three passes -/

/-- An attribute resolves to its value in an item, if it may have that. -/
theorem resolve_declared_ok_iff {name : String} {d : AttributeDeclaration} (hd : s.attributes.get? name = some d)
    {primaryFacets : List String} {result : Option Json} :
    (Attribute.ofDeclaration primaryFacets name d).resolve (given.get? name) = .ok result ↔
      s.valueOf? given name = result ∧ d.kind.Takes d.required result := by
  rw [Attribute.resolve_ok_iff, Schema.valueOf?, hd]
  rfl

/-- **All attributes resolve exactly if each has what it may have.** -/
theorem resolveAll_ok_iff (he : ofSchema s = .ok e) :
    (∃ resolved, resolveAll given e.attributes.values .empty = .ok resolved) ↔
      ∀ name d, s.attributes.get? name = some d → d.kind.Takes d.required (s.valueOf? given name) := by
  constructor
  · rintro ⟨resolved, hresolved⟩ name d hd
    have hall := ((accepted_of_ofSchema he).resolveAll_ok hresolved).2
    obtain ⟨hvalue, htakes⟩ := (resolve_declared_ok_iff hd).mp ((forall_attributes he).mp hall name d hd)
    rw [hvalue]
    exact htakes
  · intro h
    refine resolveAll_total ((forall_attributes he).mpr fun name d hd => ?_) _
    exact ⟨_, (resolve_declared_ok_iff hd).mpr ⟨rfl, h name d hd⟩⟩

/-- A put writes the value of each attribute under its name, -/
theorem get?_resolved (he : ofSchema s = .ok e) (h : resolveAll given e.attributes.values .empty = .ok resolved)
    (name : String) : resolved.get? name = s.valueOf? given name := by
  obtain ⟨hother, hall⟩ := (accepted_of_ofSchema he).resolveAll_ok h
  cases hd : s.attributes.get? name with
  | none =>
    rw [Schema.valueOf?, hd]
    exact hother name (by rw [get?_of_declared he, hd]; rfl)
  | some d => exact ((resolve_declared_ok_iff hd).mp ((forall_attributes he).mp hall name d hd)).1.symm

/-- and all of them count as present. -/
theorem value?_resolved (he : ofSchema s = .ok e) (h : resolveAll given e.attributes.values .empty = .ok resolved)
    (name : String) : resolved.value? name = s.valueOf? given name := by
  have hfits := ((accepted_of_ofSchema he).resolved_of_resolveAll h).fits
  rw [hfits.value?_eq, get?_resolved he h]

/-- All facets are there exactly if each facet that is declared has a value. -/
theorem has_resolved_iff (he : ofSchema s = .ok e) (h : resolveAll given e.attributes.values .empty = .ok resolved) :
    (∀ i ∈ e.registry.indexes, ∀ name ∈ i.facetNames, resolved.has name = true) ↔
      ∀ d ∈ s.indexes.values, ∀ facet ∈ d.facets, ∃ value, s.valueOf? given facet = some value := by
  rw [(scopes_of_ofSchema he).2.2]
  refine Schema.forall_indexList fun name d => ?_
  simp only [Schema.facetNames_ofDeclaration, Facets.has, value?_resolved he h, Option.isSome_iff_exists]

/-- **A put accepts the values that complete an item.** -/
theorem put_ok_iff (he : ofSchema s = .ok e) {input : Json} (hinput : Facets.ofJson input = .ok given) :
    (∃ p, e.put input = .ok p) ↔ s.Completes given := by
  constructor
  · rintro ⟨p, hput⟩
    obtain ⟨⟨supplied, hsupplied, hresolved⟩, hhas, -⟩ := put_ok hput
    obtain ⟨hgiven, htyped⟩ := facets_ok_iff.mp hsupplied
    obtain rfl := Except.ok.inj (hinput.symm.trans hgiven)
    exact ⟨(typed_iff_declared he).mp htyped, (resolveAll_ok_iff he).mp ⟨_, hresolved⟩,
      (has_resolved_iff he hresolved).mp hhas⟩
  · rintro ⟨htyped, hresolves, hkeyed⟩
    have hsupplied : e.facets input = .ok given := facets_ok_iff.mpr ⟨hinput, (typed_iff_declared he).mpr htyped⟩
    obtain ⟨resolved, hresolved⟩ := (resolveAll_ok_iff he).mpr hresolves
    exact ⟨_, put_of_resolveAll hsupplied hresolved ((has_resolved_iff he hresolved).mpr hkeyed)⟩

/-! ### What is stored -/

theorem attributeEntries_eq (he : ofSchema s = .ok e) {values : Facets}
    (hvalues : ∀ name, values.get? name = s.valueOf? given name) : e.attributeEntries values = s.fieldEntries given := by
  rw [attributeEntries, Schema.fieldEntries, (ofSchema_ok he).2.1]
  simp only [Dict.values, Dict.map, List.map_map, List.filterMap_map]
  refine List.filterMap_congr fun entry _ => ?_
  show (values.get? entry.1).map _ = _
  rw [hvalues]
  rfl

theorem scopedKeys_eq (he : ofSchema s = .ok e) : s.scopedKeys = e.registry.indexes.flatMap e.registry.scopedKeys := by
  obtain ⟨hscope, hsortScope, hindexes⟩ := scopes_of_ofSchema he
  rw [hindexes, Schema.indexList, List.flatMap_map, Schema.scopedKeys, Dict.values, List.flatMap_map]
  refine List.flatMap_congr fun entry _ => ?_
  rw [Registry.scopedKeys, hscope, hsortScope]
  rfl

/-- **What is stored is the whole item**, with each key in full. -/
theorem wholeItem?_of_put (he : ofSchema s = .ok e) {input : Json} (hinput : Facets.ofJson input = .ok given) {p : Put}
    (hput : e.put input = .ok p) : s.wholeItem? given = some p.item.entries := by
  obtain ⟨⟨supplied, hsupplied, hresolved⟩, hhas, hitem⟩ := put_ok hput
  obtain rfl := Except.ok.inj (hinput.symm.trans (facets_ok_iff.mp hsupplied).1)
  have hentries : p.item.entries = e.itemEntries p.attributes := by
    rw [hitem, Dict.entries_ofList ((accepted_of_ofSchema he).nodup_itemEntries p.attributes)]
  have hvalues : s.valueOf? given = p.attributes.value? := funext fun name => (value?_resolved he hresolved name).symm
  have hkeys : (e.registry.indexes.flatMap fun i => e.registry.keyEntries i p.attributes) =
      s.scopedKeys.map fun key => (key.2.field, .string (composeKey key.1 key.2.facets p.attributes)) := by
    rw [scopedKeys_eq he, List.map_flatMap]
    exact List.flatMap_congr fun i _ => e.registry.keyEntries_eq i p.attributes
  have hfull : (s.scopedKeys.mapM fun key => (fullKey? p.attributes.value? key.1 key.2.facets).map fun text =>
      (key.2.field, Json.string text)) =
        some (e.registry.indexes.flatMap fun i => e.registry.keyEntries i p.attributes) := by
    rw [hkeys]
    refine mapM_of_forall₂ (List.forall₂_same.mpr fun key hkey => ?_)
    rw [scopedKeys_eq he] at hkey
    obtain ⟨i, hi, hkey⟩ := List.mem_flatMap.mp hkey
    rw [fullKey?_of_has key.1 fun name hname =>
      hhas i hi name (Registry.mem_facetNames_of_keyField (Registry.mem_keyFields_of_scoped hkey) hname)]
    rfl
  rw [Schema.wholeItem?, hvalues, hfull, hentries, Option.map_some,
    ← attributeEntries_eq he (get?_resolved he hresolved)]
  rfl

end Entity

/-! ### The theorem -/

/-- **A put is complete, or it is refused.** It accepts exactly the values that complete an item. What it
stores then is the whole item: the value of each attribute that has one, under its field, and behind these
the keys of all indexes, each with a segment for every one of its facets. All is in the order of the
declaration, and as an item has no field twice, nothing is written over. -/
theorem Entity.put_ok_iff_completes {s : Schema} {e : Entity} (he : ofSchema s = .ok e) {input : Json} {given : Facets}
    (hinput : Facets.ofJson input = .ok given) :
    ((∃ p, e.put input = .ok p) ↔ s.Completes given) ∧
      ∀ p, e.put input = .ok p → s.wholeItem? given = some p.item.entries :=
  ⟨put_ok_iff he hinput, fun _ hput => wholeItem?_of_put he hinput hput⟩

/-- The theorem for a room that has its floor by default. -/
theorem Entity.put_ok_iff_completes_room : ∃ e given, ofSchema rooms = .ok e ∧ Facets.ofJson room = .ok given ∧
    rooms.Completes given ∧ ∀ p, e.put room = .ok p → p.item.entries =
      [("id", .string "7"), ("buildingId", .string "A"), ("floor", .string "0"), ("note", .string "x"),
        ("pk", .string "$s_1#id_7"), ("gsi1pk", .string "$s_1#building_A"),
        ("gsi1sk", .string "$room#floor_0#id_7")] := by
  obtain ⟨hiff, hwhole⟩ := @put_ok_iff_completes rooms _ rfl room _ rfl
  exact ⟨_, _, rfl, rfl, hiff.mp ⟨_, rfl⟩, fun p hput => (Option.some.inj (hwhole p hput)).symm⟩

end SingleTable
