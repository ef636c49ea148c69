import SingleTable.Item.Delete
import SingleTable.Item.Get
import SingleTable.Item.Update
import SingleTable.Proofs.Item.Identity

/-! Facets that locate an item.

A get, a delete and an update begin in one way: they ask for the facets of the partition key and of the
sort key apart, and compose these two keys. `locate_ok_iff` says when that succeeds and with which key,
and each of the three requests is what it makes of the key. -/
namespace SingleTable

namespace Entity

variable {e : Entity}

/-! ### Locating an item -/

/-- Facets that locate an item: their values are of the kinds that are asked for, and all facets of the
primary index are there. -/
structure Locates (e : Entity) (facets : Facets) : Prop where
  typed : e.Typed facets
  has : ∀ name ∈ e.registry.primary.facetNames, facets.has name = true

/-- The key of the item that facets locate. -/
def locatedKey (e : Entity) (facets : Facets) : Dict Json :=
  Dict.ofList (e.registry.keyEntries e.registry.primary facets)

theorem primaryKey_ok_iff {facets : Facets} {key : Dict Json} :
    e.primaryKey facets = .ok key ↔
      (∀ name ∈ e.registry.primary.facetNames, facets.has name = true) ∧ key = e.locatedKey facets := by
  constructor
  · intro h
    unfold primaryKey at h
    simp only at h
    split at h
    · exact nomatch h
    next hpartition =>
    split at h
    · exact nomatch h
    next hsort =>
    refine ⟨fun name hname => ?_, (Except.ok.inj h).symm⟩
    rcases List.mem_append.mp hname with hname | hname
    · exact (Facets.require_ok hpartition).1 name hname
    · exact (Facets.require_ok hsort).1 name hname
  · rintro ⟨hhas, rfl⟩
    obtain ⟨_, hpartition⟩ := Facets.require_of_has partitionLabel fun name hname =>
      hhas name (List.mem_append_left _ hname)
    obtain ⟨_, hsort⟩ := Facets.require_of_has sortLabel fun name hname => hhas name (List.mem_append_right _ hname)
    rw [primaryKey, hpartition]
    simp only [hsort]
    rfl

/-- What a get, a delete and an update begin with: facets, and the key of the item that they locate. -/
def locate (e : Entity) (input : Json) : Except Fault (Facets × Dict Json) :=
  (e.facets input).bind fun facets => (e.primaryKey facets).map fun key => (facets, key)

theorem get_eq (e : Entity) (input : Json) : e.get input = (e.locate input).map fun located => ⟨e, located.2⟩ := by
  rw [get, locate]
  cases e.facets input with
  | error fault => rfl
  | ok facets => cases h : e.primaryKey facets <;> simp [h, Except.bind, Except.map]

theorem delete_eq (e : Entity) (input : Json) :
    e.delete input = (e.locate input).map fun located => ⟨e, located.2, .empty⟩ := by
  rw [delete, locate]
  cases e.facets input with
  | error fault => rfl
  | ok facets => cases h : e.primaryKey facets <;> simp [h, Except.bind, Except.map]

theorem update_eq (e : Entity) (input : Json) :
    e.update input = (e.locate input).bind fun located =>
      (located.1.require e.registry.primary.facetNames Facets.defaultLabel).map fun facets =>
        ⟨e, located.2, facets, .empty, .empty⟩ := by
  rw [update, locate]
  cases e.facets input with
  | error fault => rfl
  | ok facets => cases h : e.primaryKey facets <;> simp [h, Except.bind, Except.map]

/-- **Whether facets locate an item, and its key.** -/
theorem locate_ok_iff {input : Json} {facets : Facets} {key : Dict Json} :
    e.locate input = .ok (facets, key) ↔
      Facets.ofJson input = .ok facets ∧ e.Locates facets ∧ key = e.locatedKey facets := by
  constructor
  · intro h
    rw [locate] at h
    cases hfacets : e.facets input with
    | error fault =>
      rw [hfacets] at h
      exact nomatch h
    | ok given =>
      rw [hfacets] at h
      obtain ⟨found, hfound, heq⟩ := Fault.map_ok h
      obtain ⟨rfl, rfl⟩ := Prod.mk.inj heq
      obtain ⟨hgiven, htyped⟩ := facets_ok_iff.mp hfacets
      obtain ⟨hhas, rfl⟩ := primaryKey_ok_iff.mp hfound
      exact ⟨hgiven, ⟨htyped, hhas⟩, rfl⟩
  · rintro ⟨hgiven, hlocates, rfl⟩
    rw [locate, facets_ok_iff.mpr ⟨hgiven, hlocates.typed⟩, Except.bind, primaryKey_ok_iff.mpr ⟨hlocates.has, rfl⟩]
    rfl

/-! ### Requests -/

section Requests

variable {input : Json} {facets : Facets}

/-- A request for the item that is located. -/
theorem map_locate_ok_iff {α : Type} (build : Dict Json → α) (hinput : Facets.ofJson input = .ok facets) {request : α} :
    ((e.locate input).map fun located => build located.2) = .ok request ↔
      e.Locates facets ∧ request = build (e.locatedKey facets) := by
  constructor
  · intro h
    obtain ⟨located, hlocated, rfl⟩ := Fault.map_ok h
    obtain ⟨hgiven, hlocates, hkey⟩ := locate_ok_iff.mp hlocated
    obtain rfl := Except.ok.inj (hinput.symm.trans hgiven)
    exact ⟨hlocates, congrArg build hkey⟩
  · rintro ⟨hlocates, rfl⟩
    rw [locate_ok_iff.mpr ⟨hinput, hlocates, rfl⟩]
    rfl

theorem get_ok_iff (hinput : Facets.ofJson input = .ok facets) {g : Get} :
    e.get input = .ok g ↔ e.Locates facets ∧ g = ⟨e, e.locatedKey facets⟩ := by
  rw [get_eq, map_locate_ok_iff (fun key => Get.mk e key) hinput]

theorem delete_ok_iff (hinput : Facets.ofJson input = .ok facets) {d : Delete} :
    e.delete input = .ok d ↔ e.Locates facets ∧ d = ⟨e, e.locatedKey facets, .empty⟩ := by
  rw [delete_eq, map_locate_ok_iff (fun key => Delete.mk e key .empty) hinput]

/-- An accepted update has the required facets of the item that it locates. -/
theorem update_ok {u : Update} (h : e.update input = .ok u) :
    ∃ facets taken, Facets.ofJson input = .ok facets ∧ e.Locates facets ∧
      facets.require e.registry.primary.facetNames Facets.defaultLabel = .ok taken ∧
        u = ⟨e, e.locatedKey facets, taken, .empty, .empty⟩ := by
  rw [update_eq] at h
  cases hlocated : e.locate input with
  | error fault =>
    rw [hlocated] at h
    exact nomatch h
  | ok located =>
    rw [hlocated] at h
    obtain ⟨taken, htaken, rfl⟩ := Fault.map_ok h
    obtain ⟨hgiven, hlocates, hkey⟩ := locate_ok_iff.mp hlocated
    exact ⟨located.1, taken, hgiven, hlocates, htaken, by rw [hkey]⟩

theorem update_ok_iff (hinput : Facets.ofJson input = .ok facets) {u : Update} :
    e.update input = .ok u ↔ e.Locates facets ∧ ∃ taken,
      facets.require e.registry.primary.facetNames Facets.defaultLabel = .ok taken ∧
        u = ⟨e, e.locatedKey facets, taken, .empty, .empty⟩ := by
  constructor
  · intro h
    obtain ⟨given, taken, hgiven, hlocates, htaken, rfl⟩ := update_ok h
    obtain rfl := Except.ok.inj (hinput.symm.trans hgiven)
    exact ⟨hlocates, taken, htaken, rfl⟩
  · rintro ⟨hlocates, taken, htaken, rfl⟩
    rw [update_eq, locate_ok_iff.mpr ⟨hinput, hlocates, rfl⟩, Except.bind, htaken]
    rfl

end Requests

end Entity

end SingleTable
