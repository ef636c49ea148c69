import SingleTable.Proofs.Item.Address
import SingleTable.Proofs.Item.Written
import SingleTable.Proofs.Query.Match

/-! Requests for an item that was read.

What a read gives for a stored item is its attributes, as the store gives back their values.
They have all facets that the item had, so they address it in every request. The keys that they
compose are those that the item is stored under, each as far as its facets come back as they
were (`keys_survive_read`): a double whose text is that of an integer does not. -/
namespace SingleTable

namespace Entity

variable {e : Entity}

/-- What a read gives for an item, name by name. -/
theorem Accepted.format_stored (h : e.Accepted) {input : Json} {p : Put} (hput : e.put input = .ok p) :
    ∃ r, e.format p.stored = .ok r ∧ ∀ name, r.get? name = (p.attributes.get? name).map Json.reread :=
  ⟨_, h.format_eq hput fun _ => rfl, fun name => Dict.get?_map _ p.attributes name⟩

/-! ### What was read, as input -/

/-- What a read gives for an item. -/
structure ReadBack (e : Entity) (stored r : Facets) : Prop where
  get? : ∀ name, r.get? name = (stored.get? name).map Json.reread
  fits : e.Fits stored

namespace ReadBack

variable {stored r : Facets}

theorem fits_back (h : e.ReadBack stored r) : e.Fits r := by
  intro name value hvalue
  rw [h.get?] at hvalue
  obtain ⟨v, hv, rfl⟩ := Option.map_eq_some_iff.mp hvalue
  obtain ⟨a, ha, hkind⟩ := h.fits name v hv
  exact ⟨a, ha, Kind.refusal?_reread hkind⟩

theorem value? (h : e.ReadBack stored r) (name : String) : r.value? name = (stored.value? name).map Json.reread := by
  rw [h.fits_back.value?_eq, h.fits.value?_eq, h.get?]

theorem has (h : e.ReadBack stored r) (name : String) : r.has name = stored.has name := by
  rw [Facets.has, Facets.has, h.value?, Option.isSome_map]

end ReadBack

/-! ### Requests -/

/-- The primary key of facets that are all there: a value for each of its fields. -/
theorem Accepted.primaryKey_of_has (h : e.Accepted) {facets : Facets}
    (hhas : ∀ name ∈ e.registry.primary.facetNames, facets.has name = true) :
    ∃ key, e.primaryKey facets = .ok key ∧ key.keys = e.registry.primary.keyFields.map KeyField.field ∧
      ∀ keyed ∈ e.registry.scopedKeys e.registry.primary,
        key.get? keyed.2.field = some (.string (composeKey keyed.1 keyed.2.facets facets)) := by
  have hnodup := h.nodup_keyEntries h.primary facets
  refine ⟨e.locatedKey facets, primaryKey_ok_iff.mpr ⟨hhas, rfl⟩, ?_, fun keyed hscoped => ?_⟩
  · rw [locatedKey, Dict.keys, Dict.entries_ofList hnodup, Registry.keys_keyEntries]
  · rw [locatedKey, Dict.get?_ofList hnodup, Registry.keyEntries_eq]
    exact List.mem_map_of_mem hscoped

/-- Facets that fit and have those of the primary index address an item in every request. -/
theorem requests_of_has {facets : Facets} (hfits : e.Fits facets)
    (hhas : ∀ name ∈ e.registry.primary.facetNames, facets.has name = true) {key : Dict Json}
    (hkey : e.primaryKey facets = .ok key) :
    (∃ g, e.get (.ofDict facets) = .ok g ∧ g.params.key = key) ∧
      (∃ d, e.delete (.ofDict facets) = .ok d ∧ d.params.key = key) ∧
      ∃ u, e.update (.ofDict facets) = .ok u ∧ u.key = key := by
  have hinput : Facets.ofJson (.ofDict facets) = .ok facets :=
    congrArg Except.ok (Dict.ext (Dict.entries_ofList facets.nodup))
  have hlocates : e.Locates facets := ⟨hfits.typed, hhas⟩
  obtain ⟨-, rfl⟩ := primaryKey_ok_iff.mp hkey
  obtain ⟨taken, htaken⟩ := Facets.require_of_has Facets.defaultLabel hhas
  exact ⟨⟨_, (get_ok_iff hinput).mpr ⟨hlocates, rfl⟩, rfl⟩, ⟨_, (delete_ok_iff hinput).mpr ⟨hlocates, rfl⟩, rfl⟩,
    _, (update_ok_iff hinput).mpr ⟨hlocates, taken, htaken, rfl⟩, rfl⟩

end Entity

/-! ### Queries -/

/-- The names of a schema's indexes are their own, so each index is found by its name. -/
theorem Registry.byName_of_mem {r : Registry} (hnames : (r.indexes.map Index.name).Nodup) {i : Index}
    (hi : i ∈ r.indexes) : r.byName i.name = .ok i := by
  rw [byName, find?_of_nodup_map hnames hi]

theorem Schema.names_indexList (s : Schema) : s.indexList.map Index.name = s.indexes.keys := by
  rw [indexList, List.map_map]
  rfl

namespace Entity

variable {e : Entity}

theorem nodup_names {s : Schema} (he : ofSchema s = .ok e) : (e.registry.indexes.map Index.name).Nodup := by
  obtain ⟨hregistry, -⟩ := ofSchema_ok he
  obtain ⟨⟨-, -, hindexes⟩, -⟩ := Registry.build_ok hregistry
  rw [hindexes, s.names_indexList]
  exact s.indexes.nodup

/-- Facets that fit and have those of a partition key start a query, which asks for the keys that
they compose. -/
theorem query_of_has {i : Index} {facets : Facets} (hname : e.registry.byName i.name = .ok i) (hfits : e.Fits facets)
    (hhas : ∀ name ∈ i.partition.facets, facets.has name = true) :
    ∃ q, e.query i.name (.ofDict facets) = .ok q ∧
      q.params.key.Resolves q.params.names q.params.values i (e.registry.partitionKey i facets)
        (.beginsWith (e.registry.sortKey i facets)) := by
  have hfacets : e.facets (.ofDict facets) = .ok facets := hfits.facets_eq
  obtain ⟨taken, htaken⟩ := Facets.require_of_has partitionLabel hhas
  refine ⟨⟨e, i, facets, e.registry.partitionKey i facets, none, .empty, .seeded⟩, ?_, Query.params_key _⟩
  rw [query, hname]
  simp only [hfacets, Query.start, htaken]

end Entity

/-! ### The theorem -/

/-- **Keys survive a read, as far as their values do.** What is read of a stored item is accepted by
every request. Each key field of a get, a delete or an update is the one that the item is stored under
exactly when its facets come back as they are, and so is each value that a query on any index asks for. -/
theorem Entity.keys_survive_read {s : Schema} {e : Entity} (he : ofSchema s = .ok e) {input : Json} {p : Put}
    (hput : e.put input = .ok p) :
    ∃ r key, e.format p.stored = .ok r ∧
      (∃ g, e.get (.ofDict r) = .ok g ∧ g.params.key = key) ∧
      (∃ d, e.delete (.ofDict r) = .ok d ∧ d.params.key = key) ∧
      (∃ u, e.update (.ofDict r) = .ok u ∧ u.key = key) ∧
      key.keys = e.registry.primary.keyFields.map KeyField.field ∧
      (∀ k ∈ e.registry.primary.keyFields, key.get? k.field = p.item.get? k.field ↔ p.attributes.Stable k.facets) ∧
      ∀ i ∈ e.registry.indexes, ∃ q pk sk, e.query i.name (.ofDict r) = .ok q ∧
        q.params.key.Resolves q.params.names q.params.values i pk (.beginsWith sk) ∧
        (p.item.get? i.partition.field = some (.string pk) ↔ p.attributes.Stable i.partition.facets) ∧
        ∀ sort ∈ i.sort, p.item.get? sort.field = some (.string sk) ↔ p.attributes.Stable sort.facets := by
  have hacc := accepted_of_ofSchema he
  obtain ⟨-, hhas, -⟩ := put_ok hput
  obtain ⟨r, hformat, hget⟩ := hacc.format_stored hput
  have hback : e.ReadBack p.attributes r := ⟨hget, hacc.fits_of_put hput⟩
  have hhasr {i : Index} (hi : i ∈ e.registry.indexes) : ∀ name ∈ i.facetNames, r.has name = true := fun name hname =>
    (hback.has name).trans (hhas i hi name hname)
  obtain ⟨key, hkey, hfields, hvalues⟩ := hacc.primaryKey_of_has (hhasr hacc.primary)
  -- A key that the read values compose is compared with the one that the item is stored under.
  have hsame {i : Index} (hi : i ∈ e.registry.indexes) {keyed : String × KeyField}
      (hscoped : keyed ∈ e.registry.scopedKeys i) :
      p.item.get? keyed.2.field = some (.string (composeKey keyed.1 keyed.2.facets r)) ↔
        p.attributes.Stable keyed.2.facets := by
    have hfacet (name : String) (hname : name ∈ keyed.2.facets) : name ∈ i.facetNames :=
      Registry.mem_facetNames_of_keyField (Registry.mem_keyFields_of_scoped hscoped) hname
    rw [hacc.get?_key_of_put hput hi hscoped, Option.some_inj, Json.string.injEq, eq_comm]
    exact composeKey_reread_iff keyed.1 (fun name hname => hhas i hi name (hfacet name hname)) fun name _ =>
      hback.value? name
  obtain ⟨hgets, hdeletes, hupdates⟩ := requests_of_has hback.fits_back (hhasr hacc.primary) hkey
  refine ⟨r, key, hformat, hgets, hdeletes, hupdates, hfields, fun k hk => ?_, fun i hi => ?_⟩
  · obtain ⟨scope, hscoped⟩ := e.registry.exists_scoped hk
    rw [hvalues _ hscoped, eq_comm]
    exact hsame hacc.primary hscoped
  · obtain ⟨q, hquery, hresolves⟩ := query_of_has (Registry.byName_of_mem (nodup_names he) hi) hback.fits_back
      fun name hname => hhasr hi name (List.mem_append_left _ hname)
    refine ⟨q, _, _, hquery, hresolves, hsame hi (List.mem_cons_self ..), fun sort hsort => ?_⟩
    rw [e.registry.sortKey_eq hsort]
    exact hsame hi (e.registry.scoped_sort hsort)

/-! ### Readings -/

def Binary64.one : Binary64 := ⟨false, 4503599627370496, 1022, by decide, by decide, .inr (by decide)⟩

def Binary64.oneAndHalf : Binary64 := ⟨false, 6755399441055744, 1022, by decide, by decide, .inr (by decide)⟩

/-- A reading of one and a half, under a number. -/
def reading (n : Number) : Json := .object [("n", .number n), ("value", .number (.double .oneAndHalf))]

/-- The theorem for a reading whose number is an integer, and whose value has digits behind the point. -/
theorem Entity.keys_survive_read_reading : ∃ e p r key, ofSchema readings = .ok e ∧
    e.put (reading (.integer 1 (by decide))) = .ok p ∧ e.format p.stored = .ok r ∧
    (∃ g, e.get (.ofDict r) = .ok g ∧ g.params.key = key) ∧
    ∀ k ∈ e.registry.primary.keyFields, key.get? k.field = p.item.get? k.field := by
  obtain ⟨r, key, hformat, hget, -, -, -, hkeys, -⟩ :=
    @keys_survive_read readings _ rfl (reading (.integer 1 (by decide))) _ rfl
  refine ⟨_, _, r, key, rfl, rfl, hformat, hget, fun k hk => (hkeys k hk).mpr ?_⟩
  have hnone : Binary64.oneAndHalf.whole? = none := by decide +kernel
  rcases List.mem_pair.mp hk with rfl | rfl <;> intro name hname value hvalue <;>
    obtain rfl := List.mem_singleton.mp hname <;> obtain rfl := Option.some.inj hvalue
  · trivial
  · intro whole hwhole
    rw [hnone] at hwhole
    exact nomatch hwhole

/-- A number with the text of an integer is read as this integer, which has another text in a key. -/
theorem Entity.key_changed_by_read : ∃ e p r g, ofSchema readings = .ok e ∧
    e.put (reading (.double .one)) = .ok p ∧ e.format p.stored = .ok r ∧ e.get (.ofDict r) = .ok g ∧
    p.item.get? "pk" = some (.string "$s_1#n_1.0") ∧ g.params.key.get? "pk" = some (.string "$s_1#n_1") := by
  let r : Facets := .ofList
    [("n", .number (.integer 1 (by decide))), ("value", .number (.double .oneAndHalf))]
  refine ⟨_, _, r, _, rfl, rfl, ?_, rfl, ?_, ?_⟩
  · rw [format, Put.stored, readFields_map fun field value =>
      (@accepted_of_ofSchema readings _ rfl).kind_of_put (rfl : Entity.put _ (reading (.double .one)) = .ok _)]
    refine congrArg Except.ok ?_
    decide +kernel
  · decide +kernel
  · decide +kernel

end SingleTable
