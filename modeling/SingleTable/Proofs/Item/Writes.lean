import SingleTable.Proofs.Binding.Join
import SingleTable.Proofs.Item.Locate

/-! What an update writes.

An update is addressed by primary facets, and each step sets values or adds a
condition; `Reached.run` says what is set after any steps. The assignments of the
request resolve to the writes (`overwrite_params`), and these go to fields that
are all different: the field of an attribute gets the value set for it
(`written_attribute`), and the field of a secondary key gets a new key exactly if
the key is recomposed (`written_key`). -/
namespace SingleTable

open Placeholder (bindName bindValue)

namespace Update

/-! ### Steps -/

inductive Step where
  | set (values : Json)
  | condition (condition : Condition)

def step (u : Update) : Step → Except Fault Update
  | .set values => u.setValues values
  | .condition condition => u.condition condition

/-- Steps one after another; the first that fails is the last. -/
def run (u : Update) : List Step → Except Fault Update
  | [] => .ok u
  | s :: rest =>
    match u.step s with
    | .error fault => .error fault
    | .ok u => u.run rest

/-- Steps succeed if the first does and, from where it leads, the others. -/
theorem run_cons_ok {u u' : Update} {s : Step} {rest : List Step} (h : u.run (s :: rest) = .ok u') :
    ∃ next, u.step s = .ok next ∧ next.run rest = .ok u' := by
  rw [run] at h
  split at h
  · cases h
  · next next hnext => exact ⟨next, hnext, h⟩

/-- Values that an update may set: of attributes that are not read-only, and of their kinds. -/
def Settable (e : Entity) (values : Facets) : Prop :=
  ∀ name value, values.get? name = some value →
    ∃ a, e.attributes.get? name = some a ∧ a.kind.refusal? value = none ∧ a.readOnly = false

theorem Settable.fits {e : Entity} {values : Facets} (h : Settable e values) : e.Fits values := by
  intro name value hvalue
  obtain ⟨a, ha, hfits, -⟩ := h name value hvalue
  exact ⟨a, ha, hfits⟩

theorem Settable.insert {e : Entity} {values : Facets} (h : Settable e values) {name : String} {value : Json}
    {a : Attribute} (ha : e.attributes.get? name = some a) (hfits : a.kind.refusal? value = none)
    (hreadOnly : a.readOnly = false) : Settable e (values.insert name value) := by
  intro other v hv
  rw [Dict.get?_insert] at hv
  split at hv
  · next heq =>
    subst heq
    obtain rfl := Option.some.inj hv
    exact ⟨a, ha, hfits, hreadOnly⟩
  · exact h other v hv

/-- An entry that is set names no attribute, or one that may be set and that resolves to a value or to none. -/
theorem setAll_cons_ok {e : Entity} {name : String} {value : Json} {rest : List (String × Json)} {set set' : Facets}
    (h : setAll e ((name, value) :: rest) set = .ok set') :
    (e.attributes.get? name = none ∧ setAll e rest set = .ok set') ∨
      ∃ a result, e.attributes.get? name = some a ∧ a.readOnly = false ∧ a.resolve (some value) = .ok result ∧
        setAll e rest (result.elim set (set.insert name)) = .ok set' := by
  rw [setAll] at h
  cases hget : e.attributes.get? name with
  | none =>
    rw [hget] at h
    exact .inl ⟨rfl, h⟩
  | some a =>
    rw [hget] at h
    simp only at h
    split at h
    · exact nomatch h
    next hreadOnly =>
    cases hresolve : a.resolve (some value) with
    | error fault =>
      rw [hresolve] at h
      exact nomatch h
    | ok result =>
      rw [hresolve] at h
      refine .inr ⟨a, result, rfl, Bool.eq_false_iff.mpr hreadOnly, hresolve, ?_⟩
      cases result with
      | none => exact h
      | some new => exact h

theorem setAll_ok {e : Entity} {entries : List (String × Json)} {set set' : Facets} (hset : Settable e set)
    (h : setAll e entries set = .ok set') : Settable e set' := by
  induction entries generalizing set with
  | nil =>
    obtain rfl := Except.ok.inj h
    exact hset
  | cons entry rest ih =>
    rcases setAll_cons_ok h with ⟨-, hrest⟩ | ⟨a, result, hget, hreadOnly, hresolve, hrest⟩
    · exact ih hset hrest
    · cases result with
      | none => exact ih hset hrest
      | some new => exact ih (hset.insert hget (Attribute.resolve_some hresolve) hreadOnly) hrest

/-- What an update is after some steps from `u₀`. -/
structure Reached (u₀ u : Update) : Prop where
  entity : u.entity = u₀.entity
  facets : u.facets = u₀.facets
  settable : Settable u₀.entity u.set

theorem Reached.step {u₀ u u' : Update} {s : Step} (h : Reached u₀ u) (hs : u.step s = .ok u') :
    Reached u₀ u' := by
  cases s with
  | set values =>
    simp only [Update.step, setValues] at hs
    split at hs
    · exact nomatch hs
    · obtain ⟨set, hset, rfl⟩ := Fault.map_ok hs
      rw [h.entity] at hset
      exact ⟨h.entity, h.facets, setAll_ok h.settable hset⟩
  | condition condition =>
    obtain ⟨clauses, -, rfl⟩ := Fault.map_ok hs
    exact ⟨h.entity, h.facets, h.settable⟩

/-- **What every update is that successful steps lead to.** -/
theorem Reached.run {u₀ u u' : Update} {steps : List Step} (h : Reached u₀ u) (hrun : u.run steps = .ok u') :
    Reached u₀ u' := by
  induction steps generalizing u with
  | nil =>
    obtain rfl := Except.ok.inj hrun
    exact h
  | cons s rest ih =>
    obtain ⟨next, hnext, hothers⟩ := run_cons_ok hrun
    exact ih (h.step hnext) hothers

/-! ### Assignments -/

/-- The first write is assigned, and then the rest. -/
theorem assign_cons {taken : Bindings} {identifier field : String} {value : Json}
    {rest : List (String × String × Json)} {names names' : Dict String} {values values' : Dict Json}
    {assignments : List Assignment}
    (h : assign taken ((identifier, field, value) :: rest) names values = (assignments, names', values')) :
    ∃ name names₁ placeholder values₁ others,
      bindName names taken.names (Placeholder.ofName identifier) field = (name, names₁) ∧
      bindValue values taken.values (Placeholder.ofValue identifier) value = (placeholder, values₁) ∧
      assign taken rest names₁ values₁ = (others, names', values') ∧ assignments = ⟨name, placeholder⟩ :: others := by
  simp only [assign, Prod.mk.injEq] at h
  obtain ⟨rfl, rfl, rfl⟩ := h
  exact ⟨_, _, _, _, _, rfl, rfl, rfl, rfl⟩

/-- Each assignment resolves to its write. -/
theorem assign_resolves {taken : Bindings} {writes : List (String × String × Json)} {names names' : Dict String}
    {values values' : Dict Json} {assignments : List Assignment}
    (h : assign taken writes names values = (assignments, names', values')) (hagrees : names.Agrees taken.names) :
    names.Extends names' ∧ values.Extends values' ∧
      List.Forall₂ (fun assignment write => names'.get? assignment.name = some write.2.1 ∧
        values'.get? assignment.value = some write.2.2) assignments writes := by
  induction writes generalizing names values assignments with
  | nil =>
    simp only [assign, Prod.mk.injEq] at h
    obtain ⟨rfl, rfl, rfl⟩ := h
    exact ⟨.refl _, .refl _, .nil⟩
  | cons write rest ih =>
    obtain ⟨identifier, field, value⟩ := write
    obtain ⟨name, names₁, placeholder, values₁, others, hname, hvalue, hrest, rfl⟩ := assign_cons h
    obtain ⟨hnames, hgetname, hagrees₁⟩ := bindName_agrees hname hagrees
    obtain ⟨hvalues, hgetvalue, -, -⟩ := bindValue_keys hvalue
    obtain ⟨hnames', hvalues', hothers⟩ := ih hrest hagrees₁
    exact ⟨hnames.trans hnames', hvalues.trans hvalues',
      .cons ⟨hnames' _ _ hgetname, hvalues' _ _ hgetvalue⟩ hothers⟩

end Update

/-- The field and the value that an assignment resolves to. -/
def Assignment.resolve? (names : Dict String) (values : Dict Json) (a : Assignment) : Option (String × Json) :=
  (names.get? a.name).bind fun field => (values.get? a.value).map fun value => (field, value)

/-- An item after the assignments of an update; none if a placeholder is not bound. -/
def UpdateParams.overwrite (p : UpdateParams) (item : Dict Json) : Option (Dict Json) :=
  (p.assignments.mapM (Assignment.resolve? p.expressions.names p.expressions.values)).map item.insertAll

namespace Update

/-- The fields that an update writes, with their values. -/
def written (u : Update) : List (String × Json) := u.writes.map Prod.snd

theorem mapM_resolve? {names : Dict String} {values : Dict Json} {assignments : List Assignment}
    {writes : List (String × String × Json)}
    (h : List.Forall₂ (fun assignment write => names.get? assignment.name = some write.2.1 ∧
      values.get? assignment.value = some write.2.2) assignments writes) :
    assignments.mapM (Assignment.resolve? names values) = some (writes.map Prod.snd) := by
  refine mapM_of_forall₂ (h.imp fun assignment write hw => ?_)
  rw [Assignment.resolve?, hw.1, hw.2]
  rfl

/-- An update that sets something has a request, which joins its assignments to its clauses. -/
theorem params_eq {u : Update} (hset : u.set.isEmpty = false) {assignments : List Assignment} {names : Dict String}
    {values : Dict Json} (h : assign u.clauses.bindings u.writes .empty .empty = (assignments, names, values)) :
    u.params = .ok ⟨u.entity.table, u.key, assignments, .join names values u.clauses⟩ := by
  simp only [params, hset, Bool.false_eq_true, if_false, h]

/-- No other update has one. -/
theorem isEmpty_set_of_params {u : Update} {p : UpdateParams} (h : u.params = .ok p) : u.set.isEmpty = false := by
  unfold params at h
  split at h
  · exact nomatch h
  · next hset => exact Bool.eq_false_iff.mpr hset

/-- The assignments of a request look up to what the update writes. -/
theorem assignments_resolve {u : Update} (hset : u.set.isEmpty = false) :
    ∃ p, u.params = .ok p ∧
      List.Forall₂ (fun assignment write => p.expressions.names.get? assignment.name = some write.2.1 ∧
        p.expressions.values.get? assignment.value = some write.2.2) p.assignments u.writes := by
  obtain ⟨assignments, names, values, hassign⟩ : ∃ assignments names values,
    assign u.clauses.bindings u.writes .empty .empty = (assignments, names, values) := ⟨_, _, _, rfl⟩
  obtain ⟨-, -, hresolves⟩ := assign_resolves hassign (Dict.agrees_empty _)
  obtain ⟨hnames, hvalues⟩ := Expressions.join_extends names values u.clauses
  have hjoined := hresolves.imp fun assignment write hw => And.intro (hnames _ _ hw.1) (hvalues _ _ hw.2)
  exact ⟨_, params_eq hset hassign, hjoined⟩

/-- **The request of an update that sets something writes what the update writes.** -/
theorem overwrite_params {u : Update} (hset : u.set.isEmpty = false) (item : Dict Json) :
    ∃ p, u.params = .ok p ∧ p.overwrite item = some (item.insertAll u.written) := by
  obtain ⟨p, hparams, hresolves⟩ := assignments_resolve hset
  refine ⟨p, hparams, ?_⟩
  rw [UpdateParams.overwrite, mapM_resolve? hresolves]
  rfl

/-! ### Written fields -/

/-- The keys of an index that are recomposed. -/
theorem indexKeys_eq (u : Update) (i : Index) :
    u.indexKeys i = ((u.entity.registry.scopedKeys i).filter fun key => u.recomposes key.2).map
      fun key => (key.2.field, composeKey key.1 key.2.facets u.known) := by
  rw [indexKeys, Registry.scopedKeys, List.filter_cons]
  cases hsort : i.sort with
  | none => split <;> rfl
  | some sort =>
    simp only [Option.toList_some, List.map_singleton, Registry.sortKey_eq _ hsort]
    split <;> by_cases hsorted : u.recomposes sort = true <;> simp [hsorted, Registry.partitionKey]

/-- The keys that are written. -/
def writtenKeys (u : Update) : List (String × Json) :=
  (u.entity.registry.indexes.filter fun i => !i.isPrimary).flatMap fun i =>
    ((u.entity.registry.scopedKeys i).filter fun key => u.recomposes key.2).map
      fun key => (key.2.field, .string (composeKey key.1 key.2.facets u.known))

theorem written_eq (u : Update) : u.written = u.entity.attributeEntries u.set ++ u.writtenKeys := by
  have hkeys : u.indexKeys = fun i => ((u.entity.registry.scopedKeys i).filter fun key => u.recomposes key.2).map
      fun key => (key.2.field, composeKey key.1 key.2.facets u.known) := by
    funext i
    exact u.indexKeys_eq i
  rw [written, writes, List.map_append, writtenKeys, Entity.attributeEntries, hkeys]
  refine congrArg₂ _ ?_ ?_
  · rw [List.map_filterMap]
    simp only [Option.map_map]
    rfl
  · rw [List.map_map, List.map_flatMap]
    simp only [List.map_map]
    rfl

theorem flatMap_filter_sublist {α β : Type} {f g : α → List β} (h : ∀ a, (f a).Sublist (g a)) (keep : α → Bool)
    (xs : List α) : ((xs.filter keep).flatMap f).Sublist (xs.flatMap g) := by
  induction xs with
  | nil => exact .slnil
  | cons x rest ih =>
    rw [List.filter_cons, List.flatMap_cons]
    split
    · exact (h x).append ih
    · exact ih.trans (List.sublist_append_right _ _)

/-- Written keys go to fields of keys, each to its own. -/
theorem writtenKeys_sublist (u : Update) :
    (Assoc.keys u.writtenKeys).Sublist (Assoc.keys (Schema.keyFields u.entity.registry.indexes)) := by
  rw [writtenKeys, Schema.keyFields, Assoc.keys, Assoc.keys, List.map_flatMap, List.map_flatMap]
  refine flatMap_filter_sublist (fun i => ?_) _ _
  rw [List.map_map, List.map_map, ← u.entity.registry.map_scopedKeys i, List.map_map]
  exact List.Sublist.map _ List.filter_sublist

/-- **The field of an attribute gets the value set for it.** -/
theorem written_attribute {u : Update} (he : u.entity.Accepted) {a : Attribute}
    (ha : a ∈ u.entity.attributes.values) : (Dict.ofList u.written).get? a.field = u.set.get? a.name := by
  rw [u.written_eq]
  exact he.get?_attribute u.set u.writtenKeys_sublist ha

/-- **The field of a key gets a new key exactly if it is a secondary key that is recomposed.** -/
theorem written_key {u : Update} (he : u.entity.Accepted) {i : Index} (hi : i ∈ u.entity.registry.indexes)
    {key : String × KeyField} (hkey : key ∈ u.entity.registry.scopedKeys i) :
    (Dict.ofList u.written).get? key.2.field =
      if i.isPrimary = false ∧ u.recomposes key.2 = true then
        some (.string (composeKey key.1 key.2.facets u.known))
      else none := by
  have hnodup : (Assoc.keys u.written).Nodup := by
    rw [u.written_eq]
    exact he.nodup_entries u.set u.writtenKeys_sublist
  split
  · next h =>
    rw [Dict.get?_ofList hnodup, u.written_eq]
    refine List.mem_append_right _ (List.mem_flatMap.mpr ⟨i, List.mem_filter.mpr ⟨hi, by simp [h.1]⟩, ?_⟩)
    exact List.mem_map.mpr ⟨key, List.mem_filter.mpr ⟨hkey, h.2⟩, rfl⟩
  · next h =>
    cases hget : (Dict.ofList u.written).get? key.2.field with
    | none => rfl
    | some value =>
      rw [Dict.get?_ofList hnodup, u.written_eq, List.mem_append] at hget
      have hkeyField := Registry.mem_keyFields_of_scoped hkey
      rcases hget with hmem | hmem
      · obtain ⟨a, ha, hentry⟩ := List.mem_filterMap.mp hmem
        obtain ⟨v, -, hpair⟩ := Option.map_eq_some_iff.mp hentry
        exact absurd (Prod.mk.inj hpair).1 (he.field_ne ha (Entity.field_mem_keyFields hi hkeyField))
      · obtain ⟨j, hj, hentry⟩ := List.mem_flatMap.mp hmem
        obtain ⟨other, hother, hpair⟩ := List.mem_map.mp hentry
        obtain ⟨hj, hsecondary⟩ := List.mem_filter.mp hj
        obtain ⟨hother, hrecomposes⟩ := List.mem_filter.mp hother
        obtain ⟨rfl, hsame⟩ := he.key_of_field hj hi (Registry.mem_keyFields_of_scoped hother) hkeyField
          (Prod.mk.inj hpair).1
        rw [hsame] at hrecomposes
        exact absurd ⟨by simpa using hsecondary, hrecomposes⟩ h

end Update

end SingleTable
