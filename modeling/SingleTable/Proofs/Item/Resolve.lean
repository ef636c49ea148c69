import SingleTable.Proofs.Item.Put

/-! Values that the attributes of an entity resolve to.

Resolved values are of the kinds of their attributes, and only an attribute that
is not required and has no default is without one. What a put resolves is resolved
in this sense and stays so under values that fit; and a put of resolved values
writes them as they are (`put_of_resolved`). -/
namespace SingleTable

/-! ### One attribute -/

/-- What an attribute of a kind may have: a value of the kind, or none if none is required. -/
def Kind.Takes (kind : Kind) (required : Bool) : Option Json → Prop
  | some value => kind.refusal? value = none
  | none => required = false

namespace Attribute

variable {a : Attribute} {supplied : Option Json}

/-- **An attribute resolves to the value that is given, unless it is null, or else to the default**, if it
may have that. -/
theorem resolve_ok_iff {result : Option Json} : a.resolve supplied = .ok result ↔
    (supplied.filter fun value => !value.isNull).or a.default = result ∧ a.kind.Takes a.required result := by
  unfold resolve
  cases (supplied.filter fun value => !value.isNull).or a.default with
  | some value =>
    cases hrefusal : a.kind.refusal? value with
    | none =>
      simp only [hrefusal]
      constructor
      · intro h
        obtain rfl := Except.ok.inj h
        exact ⟨rfl, hrefusal⟩
      · rintro ⟨rfl, -⟩
        rfl
    | some reason =>
      simp only [hrefusal]
      constructor
      · intro h
        cases h
      · rintro ⟨rfl, htakes⟩
        cases hrefusal.symm.trans htakes
  | none =>
    cases a.required with
    | false =>
      simp only [Bool.false_eq_true, if_false]
      constructor
      · intro h
        obtain rfl := Except.ok.inj h
        exact ⟨rfl, rfl⟩
      · rintro ⟨rfl, -⟩
        rfl
    | true =>
      simp only [if_true]
      constructor
      · intro h
        cases h
      · rintro ⟨rfl, htakes⟩
        cases (show true = false from htakes)

theorem resolve_some {value : Json} (h : a.resolve supplied = .ok (some value)) :
    a.kind.refusal? value = none :=
  (resolve_ok_iff.mp h).2

theorem resolve_none (h : a.resolve supplied = .ok none) : a.default = none ∧ a.required = false := by
  obtain ⟨habsent, hrequired⟩ := resolve_ok_iff.mp h
  exact ⟨(Option.or_eq_none_iff.mp habsent).2, hrequired⟩

/-- Null fits no kind, so a value that fits is present. -/
theorem ne_null_of_fits {value : Json} (h : a.kind.refusal? value = none) : value ≠ .null := by
  rintro rfl
  exact a.kind.refusal?_null h

theorem isNull_eq_false {value : Json} (h : value ≠ .null) : value.isNull = false := by
  cases value with
  | null => exact absurd rfl h
  | bool | number | string | array | object => rfl

theorem resolve_of_fits {value : Json} (h : a.kind.refusal? value = none) :
    a.resolve (some value) = .ok (some value) := by
  have hnull := isNull_eq_false (ne_null_of_fits h)
  exact resolve_ok_iff.mpr ⟨by simp [Option.filter, hnull], h⟩

theorem resolve_absent (hdefault : a.default = none) (hrequired : a.required = false) :
    a.resolve none = .ok none :=
  resolve_ok_iff.mpr ⟨hdefault, hrequired⟩

end Attribute

/-! ### All attributes -/

namespace Entity

/-- Each attribute resolves by itself, and nothing else changes. -/
theorem resolveAll_ok {supplied resolved acc : Facets} {attributes : List Attribute}
    (hnodup : (attributes.map Attribute.name).Nodup)
    (h : resolveAll supplied attributes acc = .ok resolved) :
    (∀ name, name ∉ attributes.map Attribute.name → resolved.get? name = acc.get? name) ∧
      ∀ a ∈ attributes, acc.get? a.name = none →
        a.resolve (supplied.get? a.name) = .ok (resolved.get? a.name) := by
  induction attributes generalizing acc with
  | nil =>
    obtain rfl := Except.ok.inj h
    exact ⟨fun _ _ => rfl, by simp⟩
  | cons a rest ih =>
    rw [List.map_cons, List.nodup_cons] at hnodup
    rw [resolveAll] at h
    cases hresolve : a.resolve (supplied.get? a.name) with
    | error fault =>
      rw [hresolve] at h
      exact nomatch h
    | ok result =>
      rw [hresolve] at h
      cases result with
      | none =>
        obtain ⟨hother, hrest⟩ := ih hnodup.2 h
        refine ⟨fun name hname => hother name fun hmem => hname (List.mem_cons_of_mem _ hmem),
          fun b hb hacc => ?_⟩
        rcases List.mem_cons.mp hb with rfl | hb
        · rw [hresolve, hother _ hnodup.1, hacc]
        · exact hrest b hb hacc
      | some value =>
        obtain ⟨hother, hrest⟩ := ih hnodup.2 h
        refine ⟨fun name hname => ?_, fun b hb hacc => ?_⟩
        · rw [List.map_cons, List.mem_cons, not_or] at hname
          rw [hother name hname.2, Dict.get?_insert, if_neg (Ne.symm hname.1)]
        · rcases List.mem_cons.mp hb with rfl | hb
          · rw [hresolve, hother _ hnodup.1, Dict.get?_insert_self]
          · have hne : a.name ≠ b.name := fun heq => hnodup.1 (heq ▸ List.mem_map_of_mem hb)
            exact hrest b hb (by rw [Dict.get?_insert, if_neg hne, hacc])

theorem resolveAll_total {supplied : Facets} {attributes : List Attribute}
    (h : ∀ a ∈ attributes, ∃ result, a.resolve (supplied.get? a.name) = .ok result) (acc : Facets) :
    ∃ resolved, resolveAll supplied attributes acc = .ok resolved := by
  induction attributes generalizing acc with
  | nil => exact ⟨acc, rfl⟩
  | cons a rest ih =>
    have hrest := ih fun b hb => h b (List.mem_cons_of_mem _ hb)
    obtain ⟨result, hresult⟩ := h a (List.mem_cons_self ..)
    rw [resolveAll, hresult]
    cases result with
    | none => exact hrest acc
    | some value => exact hrest _

/-! ### Resolved values -/

/-- Every value is of the kind of its attribute. -/
def Fits (e : Entity) (values : Facets) : Prop :=
  ∀ name value, values.get? name = some value →
    ∃ a, e.attributes.get? name = some a ∧ a.kind.refusal? value = none

structure Resolved (e : Entity) (values : Facets) : Prop where
  fits : e.Fits values
  complete : ∀ a ∈ e.attributes.values, values.get? a.name = none → a.default = none ∧ a.required = false

variable {e : Entity}

theorem Accepted.map_names (h : e.Accepted) : e.attributes.values.map Attribute.name = e.attributes.keys := by
  rw [Dict.values, Dict.keys, Assoc.keys, List.map_map]
  exact List.map_congr_left fun entry hentry => h.named entry.1 entry.2 (Dict.mem_entries_iff.mp hentry)

theorem Accepted.resolveAll_ok (h : e.Accepted) {supplied resolved : Facets}
    (hresolve : resolveAll supplied e.attributes.values .empty = .ok resolved) :
    (∀ name, e.attributes.get? name = none → resolved.get? name = none) ∧
      ∀ a ∈ e.attributes.values, a.resolve (supplied.get? a.name) = .ok (resolved.get? a.name) := by
  have hnodup : (e.attributes.values.map Attribute.name).Nodup := by
    rw [h.map_names]
    exact e.attributes.nodup
  obtain ⟨hother, hall⟩ := Entity.resolveAll_ok hnodup hresolve
  refine ⟨fun name hname => ?_, fun a ha => hall a ha (Dict.get?_empty _)⟩
  rw [h.map_names] at hother
  rw [hother name (Dict.get?_eq_none_iff.mp hname), Dict.get?_empty]

/-- What a put resolves is resolved. -/
theorem Accepted.resolved_of_resolveAll (h : e.Accepted) {supplied resolved : Facets}
    (hresolve : resolveAll supplied e.attributes.values .empty = .ok resolved) : e.Resolved resolved := by
  obtain ⟨hother, hall⟩ := h.resolveAll_ok hresolve
  refine ⟨fun name value hvalue => ?_, fun a ha hnone => ?_⟩
  · cases hget : e.attributes.get? name with
    | none =>
      rw [hother name hget] at hvalue
      exact nomatch hvalue
    | some a =>
      have ha := hall a (Dict.mem_values_of_get? hget)
      rw [h.named name a hget, hvalue] at ha
      exact ⟨a, rfl, Attribute.resolve_some ha⟩
  · have ha := hall a ha
    rw [hnone] at ha
    exact Attribute.resolve_none ha

/-- Values that fit can be written over resolved ones. -/
theorem Resolved.override {values set : Facets} (h : e.Resolved values) (hset : e.Fits set) :
    e.Resolved (values.override set) := by
  refine ⟨fun name value hvalue => ?_, fun a ha hnone => ?_⟩
  · rw [Dict.get?_override, Option.or_eq_some_iff] at hvalue
    rcases hvalue with hvalue | ⟨-, hvalue⟩
    · exact hset name value hvalue
    · exact h.fits name value hvalue
  · rw [Dict.get?_override, Option.or_eq_none_iff] at hnone
    exact h.complete a ha hnone.2

/-- A value that fits counts as present. -/
theorem Fits.value?_eq {values : Facets} (h : e.Fits values) (name : String) :
    values.value? name = values.get? name := by
  cases hget : values.get? name with
  | none => rw [Facets.value?, hget, Option.filter_none]
  | some value =>
    obtain ⟨a, -, hfits⟩ := h name value hget
    exact Facets.value?_eq_some_iff.mpr ⟨hget, Attribute.ne_null_of_fits hfits⟩

/-- Values that fit are accepted from a caller. -/
theorem Fits.facets_eq {values : Facets} (h : e.Fits values) : e.facets (.object values.entries) = .ok values := by
  have hofList : Dict.ofList values.entries = values := Dict.ext (Dict.entries_ofList values.nodup)
  have hfault : values.entries.findSome? e.entryFault? = none := by
    refine List.findSome?_eq_none_iff.mpr fun entry hentry => ?_
    obtain ⟨a, ha, hfits⟩ := h entry.1 entry.2 (Dict.mem_entries_iff.mp hentry)
    have hnull := Attribute.isNull_eq_false (Attribute.ne_null_of_fits hfits)
    simp [entryFault?, hnull, ha, hfits]
  rw [facets, Facets.ofJson, hofList]
  simp only [hfault]

/-- A resolved value resolves to itself. -/
theorem Accepted.resolve_resolved (h : e.Accepted) {values : Facets} (hvalues : e.Resolved values) {a : Attribute}
    (ha : a ∈ e.attributes.values) : a.resolve (values.get? a.name) = .ok (values.get? a.name) := by
  cases hget : values.get? a.name with
  | none =>
    obtain ⟨hdefault, hrequired⟩ := hvalues.complete a ha hget
    exact Attribute.resolve_absent hdefault hrequired
  | some value =>
    obtain ⟨a', ha', hfits⟩ := hvalues.fits a.name value hget
    rw [h.get?_of_mem ha] at ha'
    obtain rfl := Option.some.inj ha'
    exact Attribute.resolve_of_fits hfits

/-- Resolving resolved values changes nothing. -/
theorem Accepted.resolveAll_resolved (h : e.Accepted) {values : Facets} (hvalues : e.Resolved values) :
    ∃ resolved, resolveAll values e.attributes.values .empty = .ok resolved ∧
      ∀ name, resolved.get? name = values.get? name := by
  obtain ⟨resolved, hresolved⟩ := resolveAll_total (fun a ha => ⟨_, h.resolve_resolved hvalues ha⟩) .empty
  obtain ⟨hother, hall⟩ := h.resolveAll_ok hresolved
  refine ⟨resolved, hresolved, fun name => ?_⟩
  cases hattribute : e.attributes.get? name with
  | none =>
    rw [hother name hattribute]
    cases hvalue : values.get? name with
    | none => rfl
    | some value =>
      obtain ⟨a, ha, -⟩ := hvalues.fits name value hvalue
      rw [hattribute] at ha
      exact nomatch ha
  | some a =>
    have ha := Dict.mem_values_of_get? hattribute
    have heq := (hall a ha).symm.trans (h.resolve_resolved hvalues ha)
    rw [h.named name a hattribute] at heq
    exact Except.ok.inj heq

/-- **A put of resolved values that have all facets writes them as they are.** -/
theorem Accepted.put_of_resolved (h : e.Accepted) {values : Facets} (hvalues : e.Resolved values)
    (hhas : ∀ i ∈ e.registry.indexes, ∀ name ∈ i.facetNames, values.has name = true) :
    ∃ p, e.put (.object values.entries) = .ok p ∧ ∀ name, p.attributes.get? name = values.get? name := by
  obtain ⟨resolved, hresolved, hget⟩ := h.resolveAll_resolved hvalues
  refine ⟨_, put_of_resolveAll hvalues.fits.facets_eq hresolved fun i hi name hname => ?_, hget⟩
  rw [Facets.has, Facets.value?, hget, ← Facets.value?, ← Facets.has]
  exact hhas i hi name hname

end Entity

end SingleTable
