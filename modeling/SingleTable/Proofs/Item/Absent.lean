import SingleTable.Proofs.Item.Request
import SingleTable.Proofs.Query.Absent

/-! Nulls among the values of an update.

Nulls pass as absent where the values are checked against their kinds. What is set is then
resolved as for a whole item, and there a null stands for an attribute that is named: it is
refused for one that is read-only or has to have a value, and it sets the default of another.
`Update.set_eq_unless_nulls_act` says when nulls do nothing: when none of them is the first
entry that is refused, and none sets a default that the update has not set already. -/
namespace SingleTable

/-! ### Lists and maps -/

/-- Setting a name to the value that it has changes nothing. -/
theorem Assoc.put_eq_self {α : Type} {key : String} {value : α} {entries : List (String × α)}
    (h : lookup key entries = some value) : put key value entries = entries := by
  induction entries with
  | nil => exact nomatch h
  | cons entry rest ih =>
    obtain ⟨k, v⟩ := entry
    rw [lookup] at h
    rw [put]
    split
    · next hk =>
      rw [if_pos hk] at h
      rw [Option.some.inj h]
    · next hk =>
      rw [if_neg hk] at h
      rw [ih h]

theorem Dict.isEmpty_eq_false {α : Type} {d : Dict α} {key : String} {value : α} (h : d.get? key = some value) :
    d.isEmpty = false :=
  List.isEmpty_eq_false_iff.mpr (List.ne_nil_of_mem (Dict.mem_entries_iff.mpr h))

theorem Json.isNull_iff {value : Json} : value.isNull = true ↔ value = .null := by
  cases value <;> simp [isNull]

/-! ### Refused entries -/

/-- The attribute that a fault is about. -/
def Fault.about? : Fault → Option String
  | .chain (.readOnly name) | .attribute name _ => some name
  | _ => none

namespace Attribute

/-- A null sets the default, which has to be of the kind, or nothing, unless there has to be a value. -/
def TakesNull (a : Attribute) : Prop :=
  match a.default with
  | some value => a.kind.refusal? value = none
  | none => a.required = false

instance (a : Attribute) : Decidable a.TakesNull :=
  match h : a.default with
  | some value => decidable_of_iff (a.kind.refusal? value = none) (by rw [TakesNull, h])
  | none => decidable_of_iff (a.required = false) (by rw [TakesNull, h])

theorem resolve_null_ok_iff {a : Attribute} {result : Option Json} :
    a.resolve (some .null) = .ok result ↔ a.TakesNull ∧ a.default = result := by
  rw [resolve_ok_iff, and_comm]
  show a.kind.Takes a.required result ∧ a.default = result ↔ _
  constructor
  · rintro ⟨htakes, rfl⟩
    exact ⟨htakes, rfl⟩
  · rintro ⟨htakes, rfl⟩
    exact ⟨htakes, rfl⟩

/-- What an attribute cannot be resolved for is about it. -/
theorem about_of_resolve {a : Attribute} {supplied : Option Json} {fault : Fault}
    (h : a.resolve supplied = .error fault) : fault.about? = some a.name := by
  unfold resolve at h
  split at h
  · split at h
    · obtain rfl := Except.error.inj h
      rfl
    · exact nomatch h
  · split at h
    · obtain rfl := Except.error.inj h
      rfl
    · exact nomatch h

end Attribute

namespace Entity

variable {e : Entity}

/-- An update may not set an attribute that is read-only, nor one to null that does not take it. -/
def Refuses (e : Entity) (entry : String × Json) : Prop :=
  ∃ a, e.attributes.get? entry.1 = some a ∧ (a.readOnly = true ∨ entry.2 = .null ∧ ¬ a.TakesNull)

instance (e : Entity) (entry : String × Json) : Decidable (e.Refuses entry) :=
  match h : e.attributes.get? entry.1 with
  | some a => decidable_of_iff (a.readOnly = true ∨ entry.2 = .null ∧ ¬ a.TakesNull) (by simp [Refuses, h])
  | none => isFalse fun ⟨_, ha, _⟩ => nomatch h.symm.trans ha

/-- What an update has against an entry. -/
def settingFault? (e : Entity) (entry : String × Json) : Option Fault :=
  (e.attributes.get? entry.1).bind fun a =>
    if a.readOnly then some (.chain (.readOnly entry.1))
    else
      match a.resolve (some entry.2) with
      | .error fault => some fault
      | .ok _ => none

/-- A value of its kind resolves unless it is a null that is not taken. -/
theorem resolve_ok_iff {given : Facets} (htyped : e.Typed given) {name : String} {value : Json}
    (hvalue : given.get? name = some value) {a : Attribute} (ha : e.attributes.get? name = some a) :
    (∃ result, a.resolve (some value) = .ok result) ↔ ¬ (value = .null ∧ ¬ a.TakesNull) := by
  by_cases hnull : value = .null
  · subst hnull
    rw [and_iff_right rfl, not_not]
    constructor
    · rintro ⟨result, hresult⟩
      exact (Attribute.resolve_null_ok_iff.mp hresult).1
    · exact fun htakes => ⟨a.default, Attribute.resolve_null_ok_iff.mpr ⟨htakes, rfl⟩⟩
  · have hfits := htyped name value a (Facets.value?_eq_some_iff.mpr ⟨hvalue, hnull⟩) ha
    exact iff_of_true ⟨_, Attribute.resolve_of_fits hfits⟩ fun h => hnull h.1

/-- Among values of their kinds, those that are refused have a fault. -/
theorem settingFault?_eq_none_iff {given : Facets} (htyped : e.Typed given) {entry : String × Json}
    (hentry : entry ∈ given.entries) : e.settingFault? entry = none ↔ ¬ e.Refuses entry := by
  obtain ⟨name, value⟩ := entry
  rw [settingFault?, Refuses]
  cases ha : e.attributes.get? name with
  | none => simp
  | some a =>
    have hresolve := resolve_ok_iff htyped (Dict.mem_entries_iff.mp hentry) ha
    have hfault : (∃ result, a.resolve (some value) = .ok result) ↔
        (match a.resolve (some value) with | .error fault => some fault | .ok _ => none) = none := by
      cases a.resolve (some value) <;> simp
    rw [hfault] at hresolve
    cases hreadOnly : a.readOnly <;> simp [hreadOnly, hresolve]

/-- The fault of an entry is about its attribute. -/
theorem Accepted.about_settingFault? (h : e.Accepted) {entry : String × Json} {fault : Fault}
    (hfault : e.settingFault? entry = some fault) : fault.about? = some entry.1 := by
  obtain ⟨a, ha, hfault⟩ := Option.bind_eq_some_iff.mp hfault
  split at hfault
  · obtain rfl := Option.some.inj hfault
    rfl
  · split at hfault
    · next hresolve =>
      obtain rfl := Option.some.inj hfault
      rw [Attribute.about_of_resolve hresolve, h.named _ a ha]
    · exact nomatch hfault

end Entity

namespace Update

/-! ### What is set -/

/-- The first fault is reported, and without one all entries are set. -/
theorem setAll_eq_findSome? (e : Entity) (entries : List (String × Json)) (set : Facets) :
    setAll e entries set =
      match entries.findSome? e.settingFault? with
      | some fault => .error fault
      | none => .ok (set.insertAll (entries.filterMap (setting? e))) := by
  induction entries generalizing set with
  | nil => rfl
  | cons entry rest ih =>
    obtain ⟨name, value⟩ := entry
    rw [setAll, List.findSome?_cons, List.filterMap_cons, Entity.settingFault?, setting?]
    cases e.attributes.get? name with
    | none => exact ih set
    | some a =>
      simp only [Option.bind_some]
      cases a.readOnly with
      | true => rfl
      | false =>
        cases a.resolve (some value) with
        | error fault => rfl
        | ok result =>
          cases result with
          | none => exact ih set
          | some new => exact ih (set.insert name new)

/-- What an entry sets is its attribute, to the value given or to the default for a null. -/
theorem setting?_ok {e : Entity} {entry pair : String × Json} (h : setting? e entry = some pair) :
    pair.1 = entry.1 ∧
      ∃ a, e.attributes.get? entry.1 = some a ∧ (entry.2 = .null → a.default = some pair.2) := by
  obtain ⟨a, ha, hpair⟩ := Option.bind_eq_some_iff.mp h
  split at hpair
  · next hresolve =>
    obtain rfl := Option.some.inj hpair
    refine ⟨rfl, a, ha, fun hnull => ?_⟩
    rw [hnull] at hresolve
    exact (Attribute.resolve_null_ok_iff.mp hresolve).2
  · exact nomatch hpair

theorem setting?_null {e : Entity} {name : String} {a : Attribute} (ha : e.attributes.get? name = some a)
    (htakes : a.TakesNull) {default : Json} (hdefault : a.default = some default) :
    setting? e (name, .null) = some (name, default) := by
  rw [setting?, ha]
  simp only [Option.bind_some, Attribute.resolve_null_ok_iff.mpr ⟨htakes, hdefault⟩]

/-- Nulls whose defaults are set already may be left out. -/
theorem insertAll_settings {e : Entity} {entries : List (String × Json)} (hnodup : (Assoc.keys entries).Nodup)
    {set : Facets}
    (h : ∀ entry ∈ entries, entry.2.isNull = true → ∀ pair, setting? e entry = some pair →
      set.get? pair.1 = some pair.2) :
    set.insertAll ((entries.filter fun entry => !entry.2.isNull).filterMap (setting? e)) =
      set.insertAll (entries.filterMap (setting? e)) := by
  induction entries generalizing set with
  | nil => rfl
  | cons entry rest ih =>
    obtain ⟨hnew, hnodup⟩ := List.nodup_cons.mp hnodup
    obtain ⟨hfirst, hrest⟩ := List.forall_mem_cons.mp h
    rw [List.filterMap_cons]
    cases hnull : entry.2.isNull with
    | true =>
      rw [List.filter_cons_of_neg (by simp [hnull]), ih hnodup hrest]
      cases hsetting : setting? e entry with
      | none => rfl
      | some pair =>
        have hsame : set.insert pair.1 pair.2 = set := Dict.ext (Assoc.put_eq_self (hfirst hnull pair hsetting))
        show _ = (set.insert pair.1 pair.2).insertAll _
        rw [hsame]
    | false =>
      rw [List.filter_cons_of_pos (by simp [hnull]), List.filterMap_cons]
      cases hsetting : setting? e entry with
      | none => exact ih hnodup hrest
      | some pair =>
        show (set.insert pair.1 pair.2).insertAll _ = (set.insert pair.1 pair.2).insertAll _
        refine ih hnodup fun other hother hnull' pair' hsetting' => ?_
        -- entries have names of their own, so what is set here is set for no other
        have hapart : pair.1 ≠ pair'.1 := by
          rw [(setting?_ok hsetting).1, (setting?_ok hsetting').1]
          exact fun heq => hnew (heq ▸ List.mem_map_of_mem hother)
        rw [Dict.get?_insert, if_neg hapart]
        exact hrest other hother hnull' pair' hsetting'

/-- An entry is set over whatever there was, -/
theorem get?_insertAll_settings {e : Entity} {entries : List (String × Json)} (hnodup : (Assoc.keys entries).Nodup)
    (set : Facets) {entry pair : String × Json} (hentry : entry ∈ entries) (h : setting? e entry = some pair) :
    Dict.get? (set.insertAll (entries.filterMap (setting? e))) pair.1 = some pair.2 := by
  have hnames : entries.filterMap (setting? e) =
      entries.filterMap fun entry => ((setting? e entry).map Prod.snd).map fun value => (entry.1, value) := by
    refine List.filterMap_congr fun entry _ => ?_
    cases h : setting? e entry with
    | none => rfl
    | some pair =>
      rw [← (setting?_ok h).1]
      rfl
  have hkeys : (Assoc.keys (entries.filterMap (setting? e))).Nodup := by
    rw [hnames]
    exact (Assoc.keys_filterMap_sublist entries Prod.fst _).nodup hnodup
  rw [Dict.get?_insertAll_eq, (Dict.get?_ofList hkeys).mpr (List.mem_filterMap.mpr ⟨entry, hentry, h⟩), Option.some_or]

/-- and what is not named stays. -/
theorem get?_insertAll_of_notMem {e : Entity} {entries : List (String × Json)} (set : Facets) {name : String}
    (h : name ∉ Assoc.keys entries) :
    Dict.get? (set.insertAll (entries.filterMap (setting? e))) name = set.get? name := by
  rw [Dict.get?_insertAll_eq]
  cases hget : (Dict.ofList (entries.filterMap (setting? e))).get? name with
  | none => rfl
  | some value =>
    obtain ⟨entry, hentry, hsetting⟩ := List.mem_filterMap.mp (Dict.mem_of_get?_ofList hget)
    obtain rfl : name = entry.1 := (setting?_ok hsetting).1
    exact absurd (List.mem_map_of_mem hentry) h

/-! ### Nulls that act -/

/-- What an update asks for after some values are set, or what is wrong with these or with the request. -/
def afterSet (u : Update) (values : Json) : Except Fault (Except Fault UpdateParams) :=
  (u.setValues values).map params

/-- A null is the first entry that is refused, or all entries are set and a null sets an attribute
to a default that it was not set to before. -/
inductive NullsAct (u : Update) (values : Json) : Prop
  | refused {given : Facets} (hgiven : u.entity.facets values = .ok given) {before after : List (String × Json)}
      {name : String} (hentries : given.entries = before ++ (name, .null) :: after)
      (hbefore : ∀ entry ∈ before, ¬ u.entity.Refuses entry) (hnull : u.entity.Refuses (name, .null))
  | overwrites {given : Facets} (hgiven : u.entity.facets values = .ok given)
      (hall : ∀ entry ∈ given.entries, ¬ u.entity.Refuses entry) {name : String}
      (hnull : given.get? name = some .null) {a : Attribute} (ha : u.entity.attributes.get? name = some a)
      {default : Json} (hdefault : a.default = some default) (hnew : u.set.get? name ≠ some default)

section Given

variable {u : Update} {values : Json} {given : Facets}

theorem setValues_eq (hgiven : u.entity.facets values = .ok given) :
    u.setValues values =
      match given.entries.findSome? u.entity.settingFault? with
      | some fault => .error fault
      | none => .ok { u with set := u.set.insertAll (given.entries.filterMap (setting? u.entity)) } := by
  rw [setValues, hgiven]
  simp only [setAll_eq_findSome?]
  cases given.entries.findSome? u.entity.settingFault? <;> rfl

/-- All entries are set if none is refused. -/
theorem setValues_of_unrefused (hgiven : u.entity.facets values = .ok given)
    (hall : ∀ entry ∈ given.entries, ¬ u.entity.Refuses entry) :
    u.setValues values = .ok { u with set := u.set.insertAll (given.entries.filterMap (setting? u.entity)) } := by
  have htyped := (Entity.facets_ok_iff.mp hgiven).2
  have hnone : given.entries.findSome? u.entity.settingFault? = none :=
    List.findSome?_eq_none_iff.mpr fun entry hentry =>
      (Entity.settingFault?_eq_none_iff htyped hentry).mpr (hall entry hentry)
  rw [setValues_eq hgiven, hnone]

theorem facets_withoutNulls_ok (hgiven : u.entity.facets values = .ok given) :
    u.entity.facets values.withoutNulls = .ok given.present := by
  rw [Entity.facets_withoutNulls, hgiven]
  rfl

end Given

/-- **Nulls that do not act may be left out**: the update is the same. -/
theorem setValues_withoutNulls {u : Update} {values : Json} (h : ¬ u.NullsAct values) :
    u.setValues values.withoutNulls = u.setValues values := by
  cases hgiven : u.entity.facets values with
  | error fault => rw [setValues, setValues, Entity.facets_withoutNulls, hgiven]; rfl
  | ok given =>
    have htyped := (Entity.facets_ok_iff.mp hgiven).2
    have hfault : given.present.entries.findSome? u.entity.settingFault? =
        given.entries.findSome? u.entity.settingFault? := by
      refine findSome?_filter fun before entry after hentries hbefore hdrop => ?_
      have hmem {other : String × Json} (hother : other ∈ before ++ entry :: after) : other ∈ given.entries :=
        hentries ▸ hother
      obtain ⟨name, value⟩ := entry
      obtain rfl : value = .null := Json.isNull_iff.mp ((Bool.not_eq_false' _).mp hdrop)
      rw [Entity.settingFault?_eq_none_iff htyped (hmem (List.mem_append_right _ (List.mem_cons_self ..)))]
      refine fun hrefuses => h (.refused hgiven hentries (fun other hother => ?_) hrefuses)
      exact (Entity.settingFault?_eq_none_iff htyped (hmem (List.mem_append_left _ hother))).mp (hbefore other hother)
    rw [setValues_eq hgiven, setValues_eq (facets_withoutNulls_ok hgiven), hfault]
    cases hfirst : given.entries.findSome? u.entity.settingFault? with
    | some fault => rfl
    | none =>
      refine congrArg (fun set => Except.ok { u with set := set }) (insertAll_settings given.nodup ?_)
      rintro ⟨name, value⟩ hentry hnull pair hsetting
      obtain rfl : value = .null := Json.isNull_iff.mp hnull
      obtain ⟨hname, a, ha, hdefault⟩ := setting?_ok hsetting
      rw [hname]
      refine Classical.not_not.mp fun hnew => h ?_
      refine .overwrites hgiven (fun other hother => ?_) (Dict.mem_entries_iff.mp hentry) ha (hdefault rfl) hnew
      exact (Entity.settingFault?_eq_none_iff htyped hother).mp (List.findSome?_eq_none_iff.mp hfirst other hother)

/-- Requests tell what is set. -/
theorem get?_set_of_params {u u' : Update} (h : u.params = u'.params) (hentity : u'.entity = u.entity)
    (hacc : u.entity.Accepted) (hset : u.set.isEmpty = false) {name : String} {a : Attribute}
    (ha : u.entity.attributes.get? name = some a) : u.set.get? name = u'.set.get? name := by
  obtain ⟨p, hparams, hoverwrite⟩ := overwrite_params hset .empty
  have hset' := isEmpty_set_of_params (h ▸ hparams)
  obtain ⟨p', hparams', hoverwrite'⟩ := overwrite_params hset' .empty
  obtain rfl := Except.ok.inj (hparams.symm.trans (h.trans hparams'))
  have hwritten := Option.some.inj (hoverwrite.symm.trans hoverwrite')
  have hmem := Dict.mem_values_of_get? ha
  have hattribute := written_attribute hacc hmem
  have hattribute' := written_attribute (u := u') (hentity ▸ hacc) (hentity ▸ hmem)
  rw [← hacc.named name a ha, ← hattribute, ← hattribute']
  exact congrArg (Dict.get? · a.field) hwritten

/-- **With a null that is refused, the values fail for another entry or not at all without it.** -/
theorem afterSet_ne_of_refused {u : Update} (hacc : u.entity.Accepted) {values : Json} {given : Facets}
    (hgiven : u.entity.facets values = .ok given) {before after : List (String × Json)} {name : String}
    (hentries : given.entries = before ++ (name, .null) :: after)
    (hbefore : ∀ entry ∈ before, ¬ u.entity.Refuses entry) (hnull : u.entity.Refuses (name, .null)) :
    u.afterSet values ≠ u.afterSet values.withoutNulls := by
  have hfault {entry : String × Json} (hentry : entry ∈ before ++ (name, .null) :: after) :=
    Entity.settingFault?_eq_none_iff (Entity.facets_ok_iff.mp hgiven).2 (hentries ▸ hentry)
  have hmem : (name, .null) ∈ before ++ (name, .null) :: after := List.mem_append_right _ (List.mem_cons_self ..)
  obtain ⟨fault, hrefused⟩ := Option.ne_none_iff_exists'.mp fun hnone => (hfault hmem).mp hnone hnull
  have hfirst : given.entries.findSome? u.entity.settingFault? = some fault := by
    refine List.findSome?_eq_some_iff.mpr ⟨before, _, after, hentries, hrefused, fun other hother => ?_⟩
    exact (hfault (List.mem_append_left _ hother)).mpr (hbefore other hother)
  intro hsame
  rw [afterSet, afterSet, setValues_eq hgiven, setValues_eq (facets_withoutNulls_ok hgiven), hfirst] at hsame
  cases hpresent : given.present.entries.findSome? u.entity.settingFault? with
  | none =>
    rw [hpresent] at hsame
    cases hsame
  | some other =>
    rw [hpresent] at hsame
    obtain rfl : fault = other := Except.error.inj hsame
    -- both faults are about one name, but one entry of it is null and the other is not
    obtain ⟨⟨name', value⟩, hentry, hother⟩ := List.exists_of_findSome?_eq_some hpresent
    obtain rfl : name' = name :=
      Option.some.inj ((hacc.about_settingFault? hother).symm.trans (hacc.about_settingFault? hrefused))
    have hvalue := Dict.mem_entries_iff.mp hentry
    rw [Facets.get?_present, Facets.value?, Dict.mem_entries_iff.mp (hentries ▸ hmem)] at hvalue
    cases hvalue

/-- **With a null that sets a new default, the request sets another value.** -/
theorem afterSet_ne_of_overwrites {u : Update} (hacc : u.entity.Accepted) {values : Json} {given : Facets}
    (hgiven : u.entity.facets values = .ok given) (hall : ∀ entry ∈ given.entries, ¬ u.entity.Refuses entry)
    {name : String} (hnull : given.get? name = some .null) {a : Attribute}
    (ha : u.entity.attributes.get? name = some a) {default : Json} (hdefault : a.default = some default)
    (hnew : u.set.get? name ≠ some default) : u.afterSet values ≠ u.afterSet values.withoutNulls := by
  have hentry := Dict.mem_entries_iff.mpr hnull
  have htakes : a.TakesNull := Classical.not_not.mp fun hnot => hall _ hentry ⟨a, ha, .inr ⟨rfl, hnot⟩⟩
  have hset := get?_insertAll_settings given.nodup u.set hentry (setting?_null ha htakes hdefault)
  have habsent : name ∉ given.present.keys := by
    rw [← Dict.get?_eq_none_iff, Facets.get?_present, Facets.value?, hnull]
    rfl
  intro hsame
  rw [afterSet, afterSet, setValues_of_unrefused hgiven hall, setValues_of_unrefused (facets_withoutNulls_ok hgiven)
    fun entry hmem => hall entry (List.mem_of_mem_filter hmem)] at hsame
  have hget := get?_set_of_params (Except.ok.inj hsame) rfl hacc (Dict.isEmpty_eq_false hset) ha
  rw [hset, get?_insertAll_of_notMem u.set habsent] at hget
  exact hnew hget.symm

/-- **An update is the same with and without the nulls among the values exactly if no null acts.** -/
theorem set_eq_unless_nulls_act {s : Schema} {e : Entity} (he : Entity.ofSchema s = .ok e) {address : Json}
    {u₀ u : Update} {steps : List Step} (hupdate : e.update address = .ok u₀) (hrun : u₀.run steps = .ok u)
    (values : Json) : u.afterSet values = u.afterSet values.withoutNulls ↔ ¬ u.NullsAct values := by
  obtain ⟨rfl, -, -⟩ := settable_of_run hupdate hrun
  have hacc := Entity.accepted_of_ofSchema he
  constructor
  · intro hsame hact
    cases hact with
    | refused hgiven hentries hbefore hnull => exact afterSet_ne_of_refused hacc hgiven hentries hbefore hnull hsame
    | overwrites hgiven hall hnull ha hdefault hnew =>
      exact afterSet_ne_of_overwrites hacc hgiven hall hnull ha hdefault hnew hsame
  · intro hidle
    rw [afterSet, afterSet, setValues_withoutNulls hidle]

/-- A null for the floor, which has a default, and another note. -/
def floorless : Json := .object [("floor", .null), ("note", .string "y")]

/-- The theorem for the floor after it was set to its default, and before. -/
theorem set_eq_unless_nulls_act_floor : ∃ e u₀ u, Entity.ofSchema rooms = .ok e ∧
    e.update (.object [("id", .string "7")]) = .ok u₀ ∧ u₀.run [.set (.object [("floor", .string "0")])] = .ok u ∧
    u.afterSet floorless = u.afterSet floorless.withoutNulls ∧
    u₀.afterSet floorless ≠ u₀.afterSet floorless.withoutNulls := by
  have hbefore := @set_eq_unless_nulls_act rooms _ rfl (.object [("id", .string "7")]) _ _ [] rfl rfl floorless
  have hafter := @set_eq_unless_nulls_act rooms _ rfl (.object [("id", .string "7")]) _ _
    [.set (.object [("floor", .string "0")])] rfl rfl floorless
  have hname {name : String} (h : (name, Json.null) ∈ [("floor", Json.null), ("note", .string "y")]) : name = "floor" := by
    simpa using h
  refine ⟨_, _, _, rfl, rfl, rfl, hafter.mpr ?_, fun hsame => hbefore.mp hsame ?_⟩
  · rintro (⟨hgiven, hentries, -, hnull⟩ | ⟨hgiven, -, hnull, ha, hdefault, hnew⟩)
    · obtain rfl := Except.ok.inj hgiven
      obtain rfl := hname (hentries ▸ List.mem_append_right _ (List.mem_cons_self ..))
      exact absurd hnull (by decide)
    · obtain rfl := Except.ok.inj hgiven
      obtain rfl := hname (Dict.mem_entries_iff.mpr hnull)
      obtain rfl := Option.some.inj ha
      obtain rfl := Option.some.inj hdefault
      exact hnew rfl
  · have hnull : Dict.get? (Dict.ofList [("floor", Json.null), ("note", .string "y")]) "floor" = some .null := rfl
    exact .overwrites rfl (by decide) hnull rfl rfl nofun

/-- A null for the floor sets it to its default, where without the null the floor stays; and nulls for a required
and for a read-only attribute make the values fail. -/
theorem set_defaulted : ∃ e u p p', Entity.ofSchema rooms = .ok e ∧
    e.update (.object [("id", .string "7")]) = .ok u ∧ u.afterSet floorless = .ok (.ok p) ∧
    u.afterSet floorless.withoutNulls = .ok (.ok p') ∧
    p.expression = "SET #floor = :floor, #note = :note, #gsi1sk = :gsi1sk" ∧ p'.expression = "SET #note = :note" ∧
    u.afterSet (.object [("building", .null)]) = .error (.attribute "building" .required) ∧
    u.afterSet (.object [("id", .null)]) = .error (.chain (.readOnly "id")) ∧
    u.afterSet (.object []) = .ok (.error (.chain .nothingToUpdate)) := by
  exact ⟨_, _, _, _, rfl, rfl, rfl, rfl, by decide, by decide, rfl, rfl, rfl⟩

end Update

end SingleTable
