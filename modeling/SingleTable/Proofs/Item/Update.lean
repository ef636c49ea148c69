import SingleTable.Proofs.Item.Writes

/-! An update agrees with a put.

An update knows the primary facets of its item and what it sets. A secondary key
that it touches is recomposed if its facets are all known, and then it is the key
that a put of the changed item composes; otherwise it keeps the key it has, which
is whole. `update_agrees_with_put` says so of every field of the item. -/
namespace SingleTable

namespace Update

/-! ### What is known -/

theorem update_ok {e : Entity} {address : Json} {u : Update} (h : e.update address = .ok u) :
    ∃ given, e.facets address = .ok given ∧
      (∀ name ∈ e.registry.primary.facetNames, given.has name = true) ∧
      (∀ name value, u.facets.get? name = some value ↔
        name ∈ e.registry.primary.facetNames ∧ given.get? name = some value) ∧
      u.entity = e ∧ u.set = .empty := by
  obtain ⟨given, taken, hgiven, hlocates, htaken, rfl⟩ := Entity.update_ok h
  obtain ⟨hhas, hget⟩ := Facets.require_ok htaken
  exact ⟨given, Entity.facets_ok_iff.mpr ⟨hgiven, hlocates.typed⟩, hhas, hget, rfl, rfl⟩

theorem Reached.start {e : Entity} {address : Json} {u : Update} (h : e.update address = .ok u) : Reached u u := by
  obtain ⟨-, -, -, -, -, hset⟩ := update_ok h
  refine ⟨rfl, rfl, ?_⟩
  rw [hset]
  intro name value hvalue
  exact nomatch hvalue

/-- What steps lead to is an update of the same entity and item, which sets what it may. -/
theorem settable_of_run {e : Entity} {address : Json} {u₀ u : Update} {steps : List Step}
    (hupdate : e.update address = .ok u₀) (hrun : u₀.run steps = .ok u) :
    u.entity = e ∧ u.facets = u₀.facets ∧ Settable e u.set := by
  obtain ⟨-, -, -, -, hentity, -⟩ := update_ok hupdate
  obtain ⟨hsame, hkeeps, hsettable⟩ := (Reached.start hupdate).run hrun
  rw [hentity] at hsame hsettable
  exact ⟨hsame, hkeeps, hsettable⟩

/-- An update of a stored item: it is addressed by the primary facets of the item, and
sets what it may. -/
structure Addresses (resolved : Facets) (u : Update) : Prop where
  accepted : u.entity.Accepted
  settable : Settable u.entity u.set
  facets : ∀ name value, u.facets.get? name = some value ↔
    name ∈ u.entity.registry.primary.facetNames ∧ resolved.value? name = some value
  has : ∀ name ∈ u.entity.registry.primary.facetNames, resolved.has name = true

/-- Whether an update touches a key but does not know all of its facets. -/
def truncates (u : Update) (key : KeyField) : Bool :=
  key.facets.any u.set.contains &&
    key.facets.any fun name => name ∉ u.entity.registry.primary.facetNames && !u.set.contains name

section Known
variable {resolved : Facets} {u : Update}

/-- What is set is known. -/
theorem known_of_set {name : String} {value : Json} (h : u.set.get? name = some value) :
    u.known.get? name = some value := by
  rw [known, Dict.get?_override, h, Option.some_or]

/-- **Known are the primary facets and what is set.** -/
theorem Addresses.has_known (h : u.Addresses resolved) (name : String) :
    u.known.has name = true ↔
      name ∈ u.entity.registry.primary.facetNames ∨ u.set.contains name = true := by
  constructor
  · intro hhas
    obtain ⟨value, hvalue, -⟩ := Facets.has_iff.mp hhas
    rw [known, Dict.get?_override, Option.or_eq_some_iff] at hvalue
    rcases hvalue with hset | ⟨-, hfacet⟩
    · exact .inr (by rw [Dict.contains, hset]; rfl)
    · exact .inl ((h.facets name value).mp hfacet).1
  · intro hname
    cases hset : u.set.get? name with
    | some value =>
      obtain ⟨a, -, hfits, -⟩ := h.settable name value hset
      exact Facets.has_iff.mpr ⟨value, known_of_set hset, Attribute.ne_null_of_fits hfits⟩
    | none =>
      have hprimary := hname.resolve_right (by rw [Dict.contains, hset]; exact Bool.false_ne_true)
      obtain ⟨value, hvalue⟩ := Option.isSome_iff_exists.mp (h.has name hprimary)
      have hfacet := (h.facets name value).mpr ⟨hprimary, hvalue⟩
      refine Facets.has_iff.mpr ⟨value, ?_, (Facets.value?_eq_some_iff.mp hvalue).2⟩
      rw [known, Dict.get?_override, hset, hfacet, Option.none_or]

/-- What is known is what the changed item has. -/
theorem Addresses.value?_known (h : u.Addresses resolved) {name : String} (hhas : u.known.has name = true) :
    u.known.value? name = Facets.value? (resolved.override u.set) name := by
  obtain ⟨value, hvalue, hnull⟩ := Facets.has_iff.mp hhas
  rw [Facets.value?_eq_some_iff.mpr ⟨hvalue, hnull⟩, eq_comm, Facets.value?_eq_some_iff]
  refine ⟨?_, hnull⟩
  rw [known, Dict.get?_override, Option.or_eq_some_iff] at hvalue
  rw [Dict.get?_override, Option.or_eq_some_iff]
  refine hvalue.imp_right fun ⟨hset, hfacet⟩ => ⟨hset, ?_⟩
  exact (Facets.value?_eq_some_iff.mp ((h.facets name value).mp hfacet).2).1

/-- A key is recomposed if it is touched and not truncated. -/
theorem Addresses.recomposes_iff (h : u.Addresses resolved) (key : KeyField) :
    u.recomposes key = true ↔ key.facets.any u.set.contains = true ∧ u.truncates key = false := by
  rw [recomposes, Bool.and_eq_true, truncates]
  refine and_congr_right fun htouched => ?_
  rw [htouched, Bool.true_and, List.all_eq_true, List.any_eq_false]
  refine forall₂_congr fun name _ => ?_
  rw [h.has_known]
  by_cases hprimary : name ∈ u.entity.registry.primary.facetNames
  · simp [hprimary]
  · simp [hprimary]

/-! ### Keys of the changed item -/

/-- The values that a key of the changed item is composed of: what is known, if the
update recomposes the key, and else what the item had. -/
def composedOf (u : Update) (resolved : Facets) (i : Index) (key : KeyField) : Facets :=
  if i.isPrimary = false ∧ u.recomposes key = true then u.known else resolved

theorem Addresses.get?_key (h : u.Addresses resolved) {i : Index} (hi : i ∈ u.entity.registry.indexes)
    {key : String × KeyField} (hkey : key ∈ u.entity.registry.scopedKeys i) :
    ((Dict.ofList (u.entity.itemEntries resolved)).insertAll u.written).get? key.2.field =
      some (.string (composeKey key.1 key.2.facets (u.composedOf resolved i key.2))) := by
  rw [Dict.get?_insertAll_eq, written_key h.accepted hi hkey, h.accepted.item_key resolved hi hkey, composedOf]
  split
  · exact Option.some_or
  · exact Option.none_or

/-- **No key is composed of less than all its facets.** -/
theorem has_composedOf {i : Index} {key : KeyField}
    (hwhole : ∀ name ∈ key.facets, resolved.has name = true) :
    ∀ name ∈ key.facets, (u.composedOf resolved i key).has name = true := by
  intro name hname
  rw [composedOf]
  split
  · next hrecomposes =>
    have hall := (Bool.and_eq_true_iff.mp hrecomposes.2).2
    exact List.all_eq_true.mp hall name hname
  · exact hwhole name hname

/-- Unless it would be truncated, a secondary key is composed of the values of the changed item. -/
theorem Addresses.value?_composedOf (h : u.Addresses resolved) {i : Index} (hsecondary : i.isPrimary = false)
    {key : KeyField} (hkeeps : u.truncates key = false) :
    ∀ name ∈ key.facets, (u.composedOf resolved i key).value? name =
      Facets.value? (resolved.override u.set) name := by
  intro name hname
  rw [composedOf]
  split
  · next hrecomposes =>
    have hall := (Bool.and_eq_true_iff.mp hrecomposes.2).2
    exact h.value?_known (List.all_eq_true.mp hall name hname)
  · next hleaves =>
    -- the key is not touched, so no facet of it is set
    have huntouched : key.facets.any u.set.contains = false := by
      refine Bool.eq_false_iff.mpr fun htouched => hleaves ⟨hsecondary, ?_⟩
      exact (h.recomposes_iff key).mpr ⟨htouched, hkeeps⟩
    have hnone : u.set.get? name = none := by
      have hcontains := List.any_eq_false.mp huntouched name hname
      rwa [Dict.contains_iff, ← Dict.get?_eq_none_iff] at hcontains
    rw [Facets.value?, Facets.value?, Dict.get?_override, hnone, Option.none_or]

/-- A primary key stays. -/
theorem Addresses.get?_primary (h : u.Addresses resolved) {key : KeyField}
    (hkey : key ∈ u.entity.registry.primary.keyFields) :
    ((Dict.ofList (u.entity.itemEntries resolved)).insertAll u.written).get? key.field =
      (Dict.ofList (u.entity.itemEntries resolved)).get? key.field := by
  obtain ⟨scope, hscoped⟩ := u.entity.registry.exists_scoped hkey
  have hprimary : ¬(u.entity.registry.primary.isPrimary = false ∧ u.recomposes key = true) := by
    rw [h.accepted.isPrimary]
    exact fun h => Bool.noConfusion h.1
  rw [h.get?_key h.accepted.primary hscoped, h.accepted.item_key _ h.accepted.primary hscoped, composedOf,
    if_neg hprimary]

/-- A secondary key stays if it would be truncated, and else is the one of the changed item. -/
theorem Addresses.get?_secondary (h : u.Addresses resolved) {changed : Facets}
    (hchanged : ∀ name, changed.get? name = Dict.get? (resolved.override u.set) name) {i : Index}
    (hi : i ∈ u.entity.registry.indexes) (hsecondary : i.isPrimary = false) {key : KeyField}
    (hkey : key ∈ i.keyFields) :
    ((Dict.ofList (u.entity.itemEntries resolved)).insertAll u.written).get? key.field =
      if u.truncates key = true then (Dict.ofList (u.entity.itemEntries resolved)).get? key.field
      else (Dict.ofList (u.entity.itemEntries changed)).get? key.field := by
  obtain ⟨scope, hscoped⟩ := u.entity.registry.exists_scoped hkey
  rw [h.get?_key hi hscoped, h.accepted.item_key _ hi hscoped, h.accepted.item_key _ hi hscoped]
  by_cases htruncates : u.truncates key = true
  · have hleaves : ¬(i.isPrimary = false ∧ u.recomposes key = true) := fun hboth => by
      have hkeeps := ((h.recomposes_iff key).mp hboth.2).2
      rw [htruncates] at hkeeps
      exact Bool.noConfusion hkeeps
    rw [if_pos htruncates, composedOf, if_neg hleaves]
  · rw [if_neg htruncates]
    refine congrArg (some ∘ Json.string) (composeKey_congr scope fun name hname => ?_)
    rw [h.value?_composedOf hsecondary (Bool.eq_false_iff.mpr htruncates) name hname,
      Facets.value?, Facets.value?, hchanged]

end Known

end Update

/-! ### The theorem -/

/-- An update that the primary facets of a stored item address. -/
theorem Update.addresses_of_run {s : Schema} {e : Entity} (he : Entity.ofSchema s = .ok e) {resolved given : Facets}
    {address : Json} {u₀ u : Update} {steps : List Update.Step} (hgiven : e.facets address = .ok given)
    (haddress : ∀ name ∈ e.registry.primary.facetNames, given.value? name = resolved.value? name)
    (hupdate : e.update address = .ok u₀) (hrun : u₀.run steps = .ok u) :
    u.entity = e ∧ u.Addresses resolved := by
  obtain ⟨given', hgiven', hhas, hfacets, -⟩ := update_ok hupdate
  obtain rfl := Except.ok.inj (hgiven.symm.trans hgiven')
  obtain ⟨rfl, hkeeps, hsettable⟩ := settable_of_run hupdate hrun
  refine ⟨rfl, Entity.accepted_of_ofSchema he, hsettable, fun name value => ?_, fun name hname => ?_⟩
  · rw [hkeeps, hfacets]
    refine and_congr_right fun hname => ?_
    rw [← haddress name hname]
    constructor
    · intro hget
      obtain ⟨value', hvalue'⟩ := Option.isSome_iff_exists.mp (hhas name hname)
      rw [hvalue', ← (Facets.value?_eq_some_iff.mp hvalue').1, hget]
    · exact fun hvalue => (Facets.value?_eq_some_iff.mp hvalue).1
  · rw [Facets.has, ← haddress name hname]
    exact hhas name hname

/-- **An update agrees with a put of the changed item.** Every attribute has the value that it was
set to, or else the one it had; primary keys stay; a secondary key is the one that the put writes,
unless the update touches it and lacks one of its facets, and then it stays. Every key is whole. -/
theorem Entity.update_agrees_with_put {s : Schema} {e : Entity} (he : ofSchema s = .ok e) {input : Json} {p : Put}
    (hput : e.put input = .ok p) {address : Json} {given : Facets} {u₀ u : Update} {steps : List Update.Step}
    (hgiven : e.facets address = .ok given)
    (haddress : ∀ name ∈ e.registry.primary.facetNames, given.value? name = p.attributes.value? name)
    (hupdate : e.update address = .ok u₀) (hrun : u₀.run steps = .ok u) (hset : u.set.isEmpty = false) :
    ∃ params p' item, u.params = .ok params ∧
      e.put (.object (p.attributes.override u.set).entries) = .ok p' ∧ params.overwrite p.item = some item ∧
      (∀ a ∈ e.attributes.values, item.get? a.field = (p.attributes.override u.set).get? a.name) ∧
      (∀ key ∈ e.registry.primary.keyFields, item.get? key.field = p.item.get? key.field) ∧
      (∀ i ∈ e.registry.indexes, i.isPrimary = false → ∀ key ∈ i.keyFields, item.get? key.field =
        if u.truncates key = true then p.item.get? key.field else p'.item.get? key.field) ∧
      ∀ i ∈ e.registry.indexes, ∀ key ∈ e.registry.scopedKeys i, ∃ full : Facets,
        (∀ name ∈ key.2.facets, full.has name = true) ∧
        item.get? key.2.field = some (.string (composeKey key.1 key.2.facets full)) := by
  obtain ⟨rfl, haddresses⟩ := Update.addresses_of_run he hgiven haddress hupdate hrun
  have hacc := haddresses.accepted
  obtain ⟨⟨supplied, -, hresolved⟩, hhas, hitem⟩ := put_ok hput
  have hvalues := (hacc.resolved_of_resolveAll hresolved).override haddresses.settable.fits
  have hchanged : ∀ i ∈ u.entity.registry.indexes, ∀ name ∈ i.facetNames,
      Facets.has (p.attributes.override u.set) name = true := by
    intro i hi name hname
    obtain ⟨value, hvalue, -⟩ := Facets.has_iff.mp (hhas i hi name hname)
    rw [Facets.has, hvalues.fits.value?_eq, Dict.get?_override, hvalue]
    cases u.set.get? name <;> rfl
  obtain ⟨p', hput', hattributes⟩ := hacc.put_of_resolved hvalues hchanged
  obtain ⟨-, -, hitem'⟩ := put_ok hput'
  obtain ⟨params, hparams, hoverwrite⟩ := Update.overwrite_params hset p.item
  refine ⟨params, p', p.item.insertAll u.written, hparams, hput', hoverwrite, ?_, ?_, ?_, ?_⟩
  · intro a ha
    rw [Dict.get?_insertAll_eq, Update.written_attribute hacc ha, hitem, hacc.item_attribute _ ha,
      Dict.get?_override]
  · intro key hkey
    rw [hitem]
    exact haddresses.get?_primary hkey
  · intro i hi hsecondary key hkey
    rw [hitem, hitem']
    exact haddresses.get?_secondary hattributes hi hsecondary hkey
  · intro i hi key hkey
    refine ⟨u.composedOf p.attributes i key.2, Update.has_composedOf fun name hname => ?_, ?_⟩
    · exact hhas i hi name (Registry.mem_facetNames_of_keyField (Registry.mem_keyFields_of_scoped hkey) hname)
    · rw [hitem]
      exact haddresses.get?_key hi hkey

/-- A room moves to another building and gets another note. -/
def roomSteps : List Update.Step :=
  [.set (.object [("building", .string "B")]), .set (.object [("note", .string "y"), ("building", .string "C")])]

/-- The theorem for this room, which is addressed by its identifier. -/
theorem Entity.update_agrees_room : ∃ e p u, ofSchema rooms = .ok e ∧ e.put room = .ok p ∧
    (∃ u₀, e.update (.object [("id", .string "7")]) = .ok u₀ ∧ u₀.run roomSteps = .ok u) ∧
    ∃ params p' item, u.params = .ok params ∧
      e.put (.object (p.attributes.override u.set).entries) = .ok p' ∧ params.overwrite p.item = some item ∧
      (∀ a ∈ e.attributes.values, item.get? a.field = (p.attributes.override u.set).get? a.name) ∧
      (∀ key ∈ e.registry.primary.keyFields, item.get? key.field = p.item.get? key.field) ∧
      (∀ i ∈ e.registry.indexes, i.isPrimary = false → ∀ key ∈ i.keyFields, item.get? key.field =
        if u.truncates key = true then p.item.get? key.field else p'.item.get? key.field) ∧
      ∀ i ∈ e.registry.indexes, ∀ key ∈ e.registry.scopedKeys i, ∃ full : Facets,
        (∀ name ∈ key.2.facets, full.has name = true) ∧
        item.get? key.2.field = some (.string (composeKey key.1 key.2.facets full)) := by
  have hagrees := @update_agrees_with_put rooms _ rfl room _ rfl (.object [("id", .string "7")]) _ _ _ roomSteps rfl
    (by
      intro name hname
      obtain rfl := List.mem_singleton.mp hname
      rfl)
    rfl rfl rfl
  exact ⟨_, _, _, rfl, rfl, ⟨_, rfl, rfl⟩, hagrees⟩

end SingleTable
