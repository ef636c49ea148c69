import SingleTable.Proofs.Item.Address
import SingleTable.Proofs.Query.Alike

/-! Updates that differ in values only.

Whether a key is recomposed depends on which facets are known and which attributes are set, and a null
sets a default or nothing; so what is written does not depend on values, but on names and nulls alone.
`text_free_of_values` says so of the expressions of queries, searches and updates. -/
namespace SingleTable

/-! ### Facets -/

namespace Facets

/-- Facets of the same names, of which the same are null, in whatever order. -/
def Alike (facets facets' : Facets) : Prop := ∀ name, facets.nulls.get? name = facets'.nulls.get? name

theorem get?_nulls (facets : Facets) (name : String) : facets.nulls.get? name = (facets.get? name).map Json.isNull :=
  Dict.get?_map ..

theorem has_eq (facets : Facets) (name : String) : facets.has name = (facets.nulls.get? name == some false) := by
  rw [has, value?, get?_nulls]
  cases facets.get? name with
  | none => rfl
  | some value => cases h : value.isNull <;> simp [h]

/-- What is required is there, and nothing else. -/
theorem get?_nulls_required {facets taken : Facets} {required : List String} {label : String}
    (h : facets.require required label = .ok taken) (name : String) :
    taken.nulls.get? name = if name ∈ required then some false else none := by
  obtain ⟨hhas, hget⟩ := require_ok h
  rw [get?_nulls]
  split
  · next hname =>
    obtain ⟨value, hvalue, hnull⟩ := has_iff.mp (hhas name hname)
    rw [(hget name value).mpr ⟨hname, hvalue⟩, Option.map_some, Attribute.isNull_eq_false hnull]
  · next hname =>
    cases hvalue : taken.get? name with
    | none => rfl
    | some value => exact absurd ((hget name value).mp hvalue).1 hname

namespace Alike

variable {facets facets' set set' : Facets}

theorem contains (h : facets.Alike facets') : facets.contains = facets'.contains := by
  funext name
  have hname := congrArg Option.isSome (h name)
  rwa [get?_nulls, get?_nulls, Option.isSome_map, Option.isSome_map] at hname

theorem has (h : facets.Alike facets') : facets.has = facets'.has := by
  funext name
  rw [has_eq, has_eq, h name]

theorem insert (h : facets.Alike facets') (name : String) {value value' : Json} (hnull : value.isNull = value'.isNull) :
    Facets.Alike (facets.insert name value) (facets'.insert name value') := by
  intro other
  have hother := h other
  rw [get?_nulls, get?_nulls] at hother ⊢
  rw [Dict.get?_insert, Dict.get?_insert]
  split
  · exact congrArg some hnull
  · exact hother

theorem override (h : facets.Alike facets') (hset : set.Alike set') :
    Facets.Alike (facets.override set) (facets'.override set') := by
  intro name
  have hfacet := h name
  have hnew := hset name
  rw [get?_nulls, get?_nulls] at hfacet hnew ⊢
  rw [Dict.get?_override, Dict.get?_override, Option.map_or, Option.map_or, hfacet, hnew]

end Alike

end Facets

/-! ### What is set -/

namespace Attribute

variable {a : Attribute}

theorem resolve_null {value : Json} (h : value.isNull = true) : a.resolve (some value) = a.resolve none := by
  simp [resolve, Option.filter, h]

theorem resolve_given {value : Json} (h : value.isNull = false) {result : Option Json}
    (hresolve : a.resolve (some value) = .ok result) : result = some value := by
  obtain ⟨hvalue, -⟩ := resolve_ok_iff.mp hresolve
  rw [Option.filter, h] at hvalue
  exact hvalue.symm

/-- Whether an attribute resolves to a value does not depend on the one that is given, but on whether
one is. -/
theorem resolve_alike {value value' : Json} (hnull : value.isNull = value'.isNull) {result result' : Option Json}
    (h : a.resolve (some value) = .ok result) (h' : a.resolve (some value') = .ok result') :
    result.map Json.isNull = result'.map Json.isNull := by
  cases hvalue : value.isNull with
  | true =>
    rw [resolve_null hvalue] at h
    rw [resolve_null (hnull.symm.trans hvalue), h] at h'
    rw [Except.ok.inj h']
  | false =>
    rw [resolve_given hvalue h, resolve_given (hnull.symm.trans hvalue) h', Option.map_some, Option.map_some, hnull]

end Attribute

namespace Update

open Placeholder (bindName)

/-- Updates of an entity that differ in values. -/
structure Alike (e : Entity) (u u' : Update) : Prop where
  entity : u.entity = e
  entity' : u'.entity = e
  facets : u.facets.Alike u'.facets
  set : u.set.Alike u'.set
  clauses : u.clauses.Alike u'.clauses

/-- Steps that set the same names, nulls in the same places, or ask for conditions of one form. -/
inductive Step.Alike : Step → Step → Prop where
  | set {values values' : Json} : values.SameNulls values' → Alike (.set values) (.set values')
  | condition {condition condition' : Condition} : condition.form = condition'.form →
      Alike (.condition condition) (.condition condition')

theorem setAll_alike {e : Entity} {entries entries' : List (String × Json)}
    (hentries : (entries.map fun entry => (entry.1, entry.2.isNull)) = entries'.map fun entry => (entry.1, entry.2.isNull))
    {set set' set₁ set₁' : Facets} (hset : set.Alike set') (h : setAll e entries set = .ok set₁)
    (h' : setAll e entries' set' = .ok set₁') : set₁.Alike set₁' := by
  induction entries generalizing entries' set set' with
  | nil =>
    obtain rfl := List.map_eq_nil_iff.mp hentries.symm
    obtain rfl := Except.ok.inj h
    obtain rfl := Except.ok.inj h'
    exact hset
  | cons entry rest ih =>
    cases entries' with
    | nil => exact nomatch hentries
    | cons entry' rest' =>
      obtain ⟨hentry, hrest⟩ := List.cons.inj hentries
      obtain ⟨name, value⟩ := entry
      obtain ⟨name', value'⟩ := entry'
      obtain ⟨rfl, hnull⟩ := Prod.mk.inj hentry
      rcases setAll_cons_ok h with ⟨hget, hset₁⟩ | ⟨a, result, hget, -, hresolve, hset₁⟩ <;>
        rcases setAll_cons_ok h' with ⟨hget', hset₁'⟩ | ⟨a', result', hget', -, hresolve', hset₁'⟩
      · exact ih hrest hset hset₁ hset₁'
      · cases hget.symm.trans hget'
      · cases hget.symm.trans hget'
      · obtain rfl := Option.some.inj (hget.symm.trans hget')
        refine ih hrest ?_ hset₁ hset₁'
        have hresult := Attribute.resolve_alike hnull hresolve hresolve'
        cases result with
        | none =>
          obtain rfl := Option.map_eq_none_iff.mp hresult.symm
          exact hset
        | some new =>
          obtain ⟨new', rfl, hnew⟩ := Option.map_eq_some_iff.mp hresult.symm
          exact hset.insert name hnew.symm

/-- What is written, but for the values: each identifier with its field. -/
def fields (u : Update) : List (String × String) := u.writes.map fun write => (write.1, write.2.1)

/-- Names tell the fields: those that are set, and those that recompose a key. -/
theorem fields_eq (u : Update) :
    u.fields =
      (u.entity.attributes.values.filterMap fun a => (u.set.nulls.get? a.name).map fun _ => (a.name, a.field)) ++
        (u.entity.registry.indexes.filter fun i => !i.isPrimary).flatMap fun i =>
          ((u.entity.registry.scopedKeys i).filter fun key => u.recomposes key.2).map fun key =>
            (key.2.field, key.2.field) := by
  rw [fields, writes, List.map_append, List.map_filterMap, List.map_map, List.map_flatMap]
  refine congrArg₂ _ (List.filterMap_congr fun a _ => ?_) (List.flatMap_congr fun i _ => ?_)
  · rw [Facets.get?_nulls, Option.map_map, Option.map_map]
    rfl
  · rw [indexKeys_eq, List.map_map]
    rfl

/-- **Assignments to the same fields have the same placeholders.** -/
theorem assign_alike {taken taken' : Bindings} (htaken : taken.Alike taken') {writes writes' : List (String × String × Json)}
    (hwrites : (writes.map fun write => (write.1, write.2.1)) = writes'.map fun write => (write.1, write.2.1))
    (names : Dict String) {values values' : Dict Json} (hvalues : values.keys = values'.keys) :
    (assign taken writes names values).1 = (assign taken' writes' names values').1 ∧
      (assign taken writes names values).2.1 = (assign taken' writes' names values').2.1 ∧
      (assign taken writes names values).2.2.keys = (assign taken' writes' names values').2.2.keys := by
  induction writes generalizing writes' names values values' with
  | nil =>
    obtain rfl := List.map_eq_nil_iff.mp hwrites.symm
    exact ⟨rfl, rfl, hvalues⟩
  | cons write rest ih =>
    cases writes' with
    | nil => exact nomatch hwrites
    | cons write' rest' =>
      obtain ⟨hwrite, hrest⟩ := List.cons.inj hwrites
      obtain ⟨identifier, field, value⟩ := write
      obtain ⟨identifier', field', value'⟩ := write'
      obtain ⟨rfl, rfl⟩ := Prod.mk.inj hwrite
      have hname : bindName names taken.names = bindName names taken'.names := by rw [htaken.names]
      obtain ⟨hplaceholder, hkeys⟩ := Placeholder.bindValue_alike hvalues htaken.values
        (Placeholder.ofValue identifier) value value'
      obtain ⟨hothers, hnames, hlast⟩ := ih hrest (bindName names taken.names (Placeholder.ofName identifier) field).2 hkeys
      rw [hname] at hothers hnames hlast
      simp only [assign, hname]
      exact ⟨List.cons_eq_cons.mpr ⟨congrArg (Assignment.mk _) hplaceholder, hothers⟩, hnames, hlast⟩

namespace Alike

variable {e : Entity} {u u' u₁ u₁' : Update}

/-- **Like steps lead from updates that are alike to such**, -/
theorem step (h : Update.Alike e u u') {s s' : Step} (hs : s.Alike s') (hstep : u.step s = .ok u₁)
    (hstep' : u'.step s' = .ok u₁') : Update.Alike e u₁ u₁' := by
  cases hs with
  | @set values values' hnulls =>
    simp only [Update.step, setValues, h.entity, h.entity'] at hstep hstep'
    split at hstep
    · cases hstep
    next given hgiven =>
    split at hstep'
    · cases hstep'
    next given' hgiven' =>
    obtain ⟨set, hset, rfl⟩ := Fault.map_ok hstep
    obtain ⟨set', hset', rfl⟩ := Fault.map_ok hstep'
    have hentries := congrArg Dict.entries (Entity.nulls_eq hnulls hgiven hgiven')
    exact ⟨rfl, rfl, h.facets, setAll_alike hentries h.set hset hset', h.clauses⟩
  | @condition condition condition' hform =>
    obtain ⟨clauses, hclauses, rfl⟩ := Fault.map_ok hstep
    obtain ⟨clauses', hclauses', rfl⟩ := Fault.map_ok hstep'
    rw [h.entity] at hclauses
    rw [h.entity'] at hclauses'
    exact ⟨h.entity, h.entity', h.facets, h.set, h.clauses.apply hform hclauses hclauses'⟩

/-- and so does any number of them. -/
theorem run (h : Update.Alike e u u') {steps steps' : List Step} (hsteps : List.Forall₂ Step.Alike steps steps')
    (hrun : u.run steps = .ok u₁) (hrun' : u'.run steps' = .ok u₁') : Update.Alike e u₁ u₁' := by
  induction hsteps generalizing u u' with
  | nil =>
    obtain rfl := Except.ok.inj hrun
    obtain rfl := Except.ok.inj hrun'
    exact h
  | cons hs hrest ih =>
    obtain ⟨next, hnext, hothers⟩ := run_cons_ok hrun
    obtain ⟨next', hnext', hothers'⟩ := run_cons_ok hrun'
    exact ih (h.step hs hnext hnext') hothers hothers'

/-! ### Parameters -/

theorem recomposes (h : Update.Alike e u u') : u.recomposes = u'.recomposes := by
  funext key
  rw [Update.recomposes, Update.recomposes, h.set.contains, known, known, (h.facets.override h.set).has]

/-- **The same fields are written**, for the same identifiers. -/
theorem fields (h : Update.Alike e u u') : u.fields = u'.fields := by
  rw [fields_eq, fields_eq, h.entity, h.entity', h.recomposes]
  simp only [h.set _]

end Alike

end Update

/-- Parameters that differ in the key and in the values of placeholders. -/
structure UpdateParams.Alike (p p' : UpdateParams) : Prop where
  table : p.table = p'.table
  assignments : p.assignments = p'.assignments
  condition : p.expressions.condition = p'.expressions.condition
  names : p.expressions.names = p'.expressions.names
  values : p.expressions.values.keys = p'.expressions.values.keys

namespace Update

/-- **Updates that differ in values have parameters that do.** -/
theorem Alike.params {e : Entity} {u u' : Update} (h : Update.Alike e u u') {p p' : UpdateParams}
    (hparams : u.params = .ok p) (hparams' : u'.params = .ok p') : p.Alike p' := by
  obtain ⟨assignments, names, values, hassign⟩ : ∃ assignments names values,
    assign u.clauses.bindings u.writes .empty .empty = (assignments, names, values) := ⟨_, _, _, rfl⟩
  obtain ⟨assignments', names', values', hassign'⟩ : ∃ assignments names values,
    assign u'.clauses.bindings u'.writes .empty .empty = (assignments, names, values) := ⟨_, _, _, rfl⟩
  have hsame := assign_alike h.clauses.bindings h.fields .empty (rfl : (Dict.empty : Dict Json).keys = Dict.empty.keys)
  rw [hassign, hassign'] at hsame
  obtain ⟨rfl, rfl, hvalues⟩ := hsame
  rw [params_eq (isEmpty_set_of_params hparams) hassign] at hparams
  rw [params_eq (isEmpty_set_of_params hparams') hassign'] at hparams'
  obtain rfl := Except.ok.inj hparams
  obtain rfl := Except.ok.inj hparams'
  obtain ⟨hcondition, hnames, hkeys⟩ := Expressions.join_alike h.clauses names hvalues
  exact ⟨congrArg Entity.table (h.entity.trans h.entity'.symm), rfl, hcondition, hnames, hkeys⟩

end Update

/-! ### Starts -/

namespace Entity

variable {e : Entity}

/-- Updates start alike, whatever items they are for. -/
theorem update_alike {address address' : Json} {u u' : Update} (h : e.update address = .ok u)
    (h' : e.update address' = .ok u') : Update.Alike e u u' := by
  obtain ⟨facets, taken, -, -, htaken, rfl⟩ := update_ok h
  obtain ⟨facets', taken', -, -, htaken', rfl⟩ := update_ok h'
  refine ⟨rfl, rfl, fun name => ?_, fun _ => rfl, .refl _⟩
  rw [Facets.get?_nulls_required htaken, Facets.get?_nulls_required htaken']

end Entity

/-! ### The theorem -/

/-- **Values never reach the text of a request.** Two runs that differ in values only have the same
expressions, names and placeholders: queries on one pattern, on whatever facets and bounds, and searches
for facets of the same names, with nulls in the same places, under ranges of one operator and filters of
one form; and updates of whatever items that set the same names, with nulls in the same places, under
conditions of one form. -/
theorem Entity.text_free_of_values (e : Entity) :
    (∀ pattern input input' q₀ q₀' steps steps' q q', e.query pattern input = .ok q₀ →
      e.query pattern input' = .ok q₀' → List.Forall₂ (Query.Step.Alike e) steps steps' → q₀.run steps = .ok q →
        q₀'.run steps' = .ok q' → q.params.Alike q'.params) ∧
      (∀ input input' q₀ q₀' steps steps' q q', e.find input = .ok q₀ → e.find input' = .ok q₀' →
        input.SameNulls input' → List.Forall₂ (Query.Step.Alike e) steps steps' → q₀.run steps = .ok q →
          q₀'.run steps' = .ok q' → q.params.Alike q'.params) ∧
      ∀ address address' u₀ u₀' steps steps' u u' p p', e.update address = .ok u₀ → e.update address' = .ok u₀' →
        List.Forall₂ Update.Step.Alike steps steps' → u₀.run steps = .ok u → u₀'.run steps' = .ok u' →
          u.params = .ok p → u'.params = .ok p' → p.Alike p' := by
  refine ⟨fun pattern input input' q₀ q₀' steps steps' q q' hquery hquery' hsteps hrun hrun' => ?_,
    fun input input' q₀ q₀' steps steps' q q' hfind hfind' hinput hsteps hrun hrun' => ?_,
    fun address address' u₀ u₀' steps steps' u u' p p' hupdate hupdate' hsteps hrun hrun' hparams hparams' => ?_⟩
  · exact ((query_alike hquery hquery').run hsteps hrun hrun').params
  · exact ((find_alike hinput hfind hfind').run hsteps hrun hrun').params
  · exact ((update_alike hupdate hupdate').run hsteps hrun hrun').params hparams hparams'

/-- A search of a building for notes, with the floor left open. -/
def noted (building note : String) : Json :=
  .object [("note", .string note), ("building", .string building), ("floor", .null)]

/-- A room gets another building, on the floor that is the default, if it has a note. -/
def moved (building note : String) : List Update.Step :=
  [.set (.object [("building", .string building), ("floor", .null)]), .condition (.eq "note" (.string note))]

/-- Rooms on some floors that have a note. -/
def notedOn (low high note : String) : List Query.Step :=
  [.between (.object [("floor", .string low)]) (.object [("floor", .string high)]), .filter (.eq "note" (.string note))]

/-- The theorem for rooms, and for texts that read like parts of an expression. -/
theorem Entity.text_free_of_values_rooms : ∃ e, ofSchema rooms = .ok e ∧
    (∃ q q', e.find (noted "A" "x") = .ok q ∧ e.find (noted "#pk" ":pk OR 1 = 1") = .ok q' ∧
      q.params.Alike q'.params) ∧
    (∃ q₀ q q', e.query "building" inBuilding = .ok q₀ ∧ q₀.run (notedOn "1" "3" "x") = .ok q ∧
      q₀.run (notedOn ":sk1" ":sk2) OR (" "") = .ok q' ∧ q.params.Alike q'.params) ∧
    ∃ u₀ u₀' u u' p p', e.update (.object [("id", .string "7")]) = .ok u₀ ∧
      e.update (.object [("id", .string "#id")]) = .ok u₀' ∧ u₀.run (moved "B" "x") = .ok u ∧
      u₀'.run (moved "B, #id = :id" "") = .ok u' ∧ u.params = .ok p ∧ u'.params = .ok p' ∧ p.Alike p' := by
  let e := (ofSchema rooms).toOption.get rfl
  obtain ⟨hqueries, hsearches, hupdates⟩ := text_free_of_values e
  obtain ⟨q, hq⟩ : ∃ q, e.find (noted "A" "x") = .ok q := ⟨_, rfl⟩
  obtain ⟨q', hq'⟩ : ∃ q, e.find (noted "#pk" ":pk OR 1 = 1") = .ok q := ⟨_, rfl⟩
  obtain ⟨r₀, r, r', hr₀, hr, hr'⟩ : ∃ q₀ q q', e.query "building" inBuilding = .ok q₀ ∧
    q₀.run (notedOn "1" "3" "x") = .ok q ∧ q₀.run (notedOn ":sk1" ":sk2) OR (" "") = .ok q' := ⟨_, _, _, rfl, rfl, rfl⟩
  obtain ⟨u₀, u, p, hu₀, hu, hp⟩ : ∃ u₀ u p, e.update (.object [("id", .string "7")]) = .ok u₀ ∧
    u₀.run (moved "B" "x") = .ok u ∧ u.params = .ok p := ⟨_, _, _, rfl, rfl, Update.params_eq rfl rfl⟩
  obtain ⟨u₀', u', p', hu₀', hu', hp'⟩ : ∃ u₀ u p, e.update (.object [("id", .string "#id")]) = .ok u₀ ∧
    u₀.run (moved "B, #id = :id" "") = .ok u ∧ u.params = .ok p := ⟨_, _, _, rfl, rfl, Update.params_eq rfl rfl⟩
  refine ⟨e, rfl, ⟨q, q', hq, hq', hsearches _ _ _ _ [] [] _ _ hq hq' rfl .nil rfl rfl⟩,
    ⟨r₀, r, r', hr₀, hr, hr', hqueries _ _ _ _ _ _ _ _ _ hr₀ hr₀ ?_ hr hr'⟩,
    u₀, u₀', u, u', p, p', hu₀, hu₀', hu, hu', hp, hp', hupdates _ _ _ _ _ _ _ _ _ _ hu₀ hu₀' ?_ hu hu' hp hp'⟩
  · exact .cons (.between ..) (.cons (.filter rfl rfl rfl) .nil)
  · exact .cons (.set rfl) (.cons (.condition rfl) .nil)

end SingleTable
