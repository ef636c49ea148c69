import SingleTable.Proofs.Item.Writes

/-! The item that a request is for.

A get, a delete and an update compose the primary key of what they are given; a put composes the keys of
all indexes, of attributes that it has resolved. Still the three are for the item that the put writes:
their key is what the item holds in the fields of the primary index (`requests_address_put`), whatever
else they are given. -/
namespace SingleTable

/-! ### Entries of one index -/

/-- Entries that stand in others, of different names, are those of their names. -/
theorem Assoc.filter_of_sublist {α : Type} {entries others : List (String × α)} (h : entries.Sublist others)
    (hnodup : (keys others).Nodup) : (others.filter fun entry => entry.1 ∈ keys entries) = entries := by
  induction h with
  | slnil => rfl
  | @cons entries others entry h ih =>
    obtain ⟨hnew, hrest⟩ := List.nodup_cons.mp hnodup
    have hout : entry.1 ∉ keys entries := fun hmem => hnew ((h.map Prod.fst).subset hmem)
    rw [List.filter_cons_of_neg (by simpa using hout)]
    exact ih hrest
  | @cons_cons entries others entry h ih =>
    obtain ⟨hnew, hrest⟩ := List.nodup_cons.mp hnodup
    have hkept : (others.filter fun other => other.1 ∈ keys (entry :: entries)) =
        others.filter fun other => other.1 ∈ keys entries := by
      refine List.filter_congr fun other hother => ?_
      have hne : other.1 ≠ entry.1 := fun heq => hnew (heq ▸ List.mem_map_of_mem hother)
      exact decide_eq_decide.mpr (List.mem_cons.trans (or_iff_right hne))
    rw [List.filter_cons_of_pos (by simp [keys]), hkept, ih hrest]

/-- What an item holds in the fields of an index. -/
def Index.keyOf (i : Index) (item : Dict Json) : Dict Json :=
  item.filter fun field _ => field ∈ i.keyFields.map KeyField.field

namespace Entity

variable {e : Entity}

/-- The entries of an index stand together in an item. -/
theorem keyEntries_sublist {i : Index} (hi : i ∈ e.registry.indexes) (values : Facets) :
    (e.registry.keyEntries i values).Sublist (e.itemEntries values) := by
  refine .trans ?_ (List.sublist_append_right _ _)
  rw [List.flatMap_def]
  exact List.sublist_flatten_of_mem (List.mem_map_of_mem hi)

/-- The key fields of an index are different. -/
theorem Accepted.nodup_keyEntries (h : e.Accepted) {i : Index} (hi : i ∈ e.registry.indexes) (values : Facets) :
    (Assoc.keys (e.registry.keyEntries i values)).Nodup :=
  ((keyEntries_sublist hi values).map Prod.fst).nodup (h.nodup_itemEntries values)

/-- **The part of an item in the fields of an index is the key that its attributes compose.** -/
theorem Accepted.keyOf_put (h : e.Accepted) {item : Json} {p : Put} (hput : e.put item = .ok p) {i : Index}
    (hi : i ∈ e.registry.indexes) : i.keyOf p.item = Dict.ofList (e.registry.keyEntries i p.attributes) := by
  obtain ⟨-, -, hitem⟩ := put_ok hput
  have hnodup := h.nodup_itemEntries p.attributes
  rw [hitem, Index.keyOf, ← e.registry.keys_keyEntries i p.attributes]
  refine Dict.ext (.trans ?_ (Dict.entries_ofList (h.nodup_keyEntries hi p.attributes)).symm)
  refine .trans ?_ (Assoc.filter_of_sublist (keyEntries_sublist hi p.attributes) hnodup)
  exact congrArg _ (Dict.entries_ofList hnodup)

/-- Values that agree on the facets of an index compose the same keys for it. -/
theorem keyEntries_congr (r : Registry) {i : Index} {a b : Facets}
    (h : ∀ name ∈ i.facetNames, a.value? name = b.value? name) : r.keyEntries i a = r.keyEntries i b := by
  rw [r.keyEntries_eq, r.keyEntries_eq]
  refine List.map_congr_left fun key hkey => ?_
  rw [composeKey_congr key.1 fun name hname =>
    h name (Registry.mem_facetNames_of_keyField (Registry.mem_keyFields_of_scoped hkey) hname)]

end Entity

/-! ### Steps -/

/-- An update is for the same item after each step, -/
theorem Update.key_of_step {u u' : Update} {step : Step} (h : u.step step = .ok u') : u'.key = u.key := by
  cases step with
  | set values =>
    simp only [Update.step, setValues] at h
    split at h
    · cases h
    · obtain ⟨set, -, rfl⟩ := Fault.map_ok h
      rfl
  | condition condition =>
    obtain ⟨clauses, -, rfl⟩ := Fault.map_ok h
    rfl

/-- and so after all. -/
theorem Update.key_of_run {u u' : Update} {steps : List Step} (h : u.run steps = .ok u') : u'.key = u.key := by
  induction steps generalizing u with
  | nil =>
    obtain rfl := Except.ok.inj h
    rfl
  | cons step rest ih =>
    obtain ⟨next, hnext, hothers⟩ := run_cons_ok h
    exact (ih hothers).trans (key_of_step hnext)

theorem Update.key_of_params {u : Update} {q : UpdateParams} (h : u.params = .ok q) : q.key = u.key := by
  rw [params_eq (isEmpty_set_of_params h) (rfl : _ = (_, _, _))] at h
  obtain rfl := Except.ok.inj h
  rfl

/-- A delete is for the same item under whatever conditions. -/
theorem Delete.key_of_conditions {d d' : Delete} {conditions : List Condition}
    (h : conditions.foldlM Delete.condition d = .ok d') : d'.key = d.key := by
  induction conditions generalizing d with
  | nil =>
    obtain rfl := Except.ok.inj h
    rfl
  | cons condition rest ih =>
    rw [List.foldlM_cons] at h
    cases hcondition : d.condition condition with
    | error fault =>
      rw [hcondition] at h
      exact nomatch h
    | ok next =>
      rw [hcondition] at h
      obtain ⟨clauses, -, rfl⟩ := Fault.map_ok hcondition
      exact (ih h).trans rfl

/-! ### The theorem -/

/-- **Get, delete and update are for the item that the put writes.** Each of them accepts given facets
exactly if they locate an item. Then all have one key, under whatever conditions and whatever an update
sets: what any item with these facets holds in the fields of the primary index. -/
theorem Entity.requests_address_put {s : Schema} {e : Entity} (he : ofSchema s = .ok e) {input : Json}
    {facets : Facets} (hinput : Facets.ofJson input = .ok facets) :
    ((∃ g, e.get input = .ok g) ↔ e.Locates facets) ∧
      ((∃ d, e.delete input = .ok d) ↔ e.Locates facets) ∧
      ((∃ u, e.update input = .ok u) ↔ e.Locates facets) ∧
      ∃ key : Dict Json,
        (∀ g, e.get input = .ok g → g.params.key = key) ∧
        (∀ d conditions d', e.delete input = .ok d → List.foldlM Delete.condition d conditions = .ok d' →
          d'.params.key = key) ∧
        (∀ u steps u', e.update input = .ok u → u.run steps = .ok u' →
          u'.key = key ∧ ∀ q, u'.params = .ok q → q.key = key) ∧
        ∀ item p, e.put item = .ok p →
          (∀ name ∈ e.registry.primary.facetNames, p.attributes.get? name = facets.get? name) →
            key = e.registry.primary.keyOf p.item := by
  have hacc := accepted_of_ofSchema he
  refine ⟨?_, ?_, ?_, e.locatedKey facets, fun g hg => ?_, fun d conditions d' hd hrun => ?_,
    fun u steps u' hu hrun => ?_, fun item p hput hsame => ?_⟩
  · simp only [get_ok_iff hinput, exists_and_left, exists_eq, and_true]
  · simp only [delete_ok_iff hinput, exists_and_left, exists_eq, and_true]
  · constructor
    · rintro ⟨u, hu⟩
      exact ((update_ok_iff hinput).mp hu).1
    · intro hlocates
      obtain ⟨taken, htaken⟩ := Facets.require_of_has Facets.defaultLabel hlocates.has
      exact ⟨_, (update_ok_iff hinput).mpr ⟨hlocates, taken, htaken, rfl⟩⟩
  · obtain ⟨-, rfl⟩ := (get_ok_iff hinput).mp hg
    rfl
  · obtain ⟨-, rfl⟩ := (delete_ok_iff hinput).mp hd
    exact Delete.key_of_conditions hrun
  · obtain ⟨-, taken, -, rfl⟩ := (update_ok_iff hinput).mp hu
    have hkey := Update.key_of_run hrun
    exact ⟨hkey, fun q hq => (Update.key_of_params hq).trans hkey⟩
  · rw [hacc.keyOf_put hput hacc.primary, locatedKey, keyEntries_congr e.registry fun name hname => ?_]
    rw [Facets.value?, Facets.value?, hsame name hname]

/-- The theorem for a room whose address has more than its identifier. -/
theorem Entity.requests_address_room : ∃ e p g, ofSchema rooms = .ok e ∧ e.put room = .ok p ∧
    e.get (.object [("note", .null), ("id", .string "7"), ("floor", .string "3")]) = .ok g ∧
    g.params.key = e.registry.primary.keyOf p.item := by
  refine ⟨_, _, _, rfl, rfl, rfl, ?_⟩
  obtain ⟨-, -, -, key, hget, -, -, hput⟩ := @requests_address_put rooms _ rfl
    (.object [("note", .null), ("id", .string "7"), ("floor", .string "3")]) _ rfl
  refine (hget _ rfl).trans (hput room _ rfl fun name hname => ?_)
  obtain rfl := List.mem_singleton.mp hname
  rfl

end SingleTable
