import SingleTable.Fault

/-! Facet values: what a caller supplies under attribute names.

A null counts as absent. `Facets.value?` is the only way the rest of the library
asks for a facet's value. -/
namespace SingleTable

abbrev Facets := Dict Json

namespace Facets

def value? (facets : Facets) (name : String) : Option Json :=
  (facets.get? name).filter fun value => !value.isNull

def has (facets : Facets) (name : String) : Bool := (facets.value? name).isSome

/-- The entries that count as present. -/
def present (facets : Facets) : Facets := facets.filter fun _ value => !value.isNull

/-- An object's members, and no facets for null. -/
def ofJson : Json → Except Fault Facets
  | .object members => .ok (Dict.ofList members)
  | .null => .ok .empty
  | received => .error (.chain (.notAnObject received))

def missing (facets : Facets) (required : List String) : List String :=
  required.filter fun name => !facets.has name

/-- The required facets in the order asked for, or the names of all that are
missing. -/
def require (facets : Facets) (required : List String) (label : String) : Except Fault Facets :=
  if facets.missing required = [] then
    .ok (Dict.ofList (required.filterMap fun name => (facets.get? name).map fun value => (name, value)))
  else .error (.incompleteFacets label (facets.missing required))

/-- The label of a requirement that names none of its own. -/
def defaultLabel : String := "key facets"

/-! ### What counts as present -/

theorem value?_eq_some_iff {facets : Facets} {name : String} {value : Json} :
    facets.value? name = some value ↔ facets.get? name = some value ∧ value ≠ .null := by
  cases value <;> simp [value?, Option.filter_eq_some_iff, Json.isNull]

theorem has_iff {facets : Facets} {name : String} :
    facets.has name = true ↔ ∃ value, facets.get? name = some value ∧ value ≠ .null := by
  simp only [has, Option.isSome_iff_exists, value?_eq_some_iff]

theorem missing_eq_nil_iff {facets : Facets} {required : List String} :
    facets.missing required = [] ↔ ∀ name ∈ required, facets.has name = true := by
  simp [missing, List.filter_eq_nil_iff]

/-- A requirement fails only for names that are missing, and names them all. -/
theorem require_eq_error_iff {facets : Facets} {required : List String} {label : String}
    {fault : Fault} :
    facets.require required label = .error fault ↔
      facets.missing required ≠ [] ∧ fault = .incompleteFacets label (facets.missing required) := by
  unfold require
  by_cases h : facets.missing required = []
  · simp [h]
  · simp [h, eq_comm]

/-- A requirement that succeeds takes over what is required, and nothing else. -/
theorem require_ok {facets taken : Facets} {required : List String} {label : String}
    (h : facets.require required label = .ok taken) :
    (∀ name ∈ required, facets.has name = true) ∧
      ∀ name value, taken.get? name = some value ↔ name ∈ required ∧ facets.get? name = some value := by
  unfold require at h
  split at h
  · next hmissing =>
    obtain rfl := Except.ok.inj h
    refine ⟨missing_eq_nil_iff.mp hmissing, fun name value => ?_⟩
    rw [Dict.get?_ofList_filterMap]
    split
    · next hname => exact ⟨fun hvalue => ⟨hname, hvalue⟩, And.right⟩
    · next hname => exact ⟨(nomatch ·), fun hboth => absurd hboth.1 hname⟩
  · exact nomatch h

theorem require_of_has {facets : Facets} {required : List String} (label : String)
    (h : ∀ name ∈ required, facets.has name = true) : ∃ taken, facets.require required label = .ok taken := by
  rw [require, if_pos (missing_eq_nil_iff.mpr h)]
  exact ⟨_, rfl⟩

/-- What counts as present has a value. -/
theorem get?_present (facets : Facets) (name : String) : facets.present.get? name = facets.value? name :=
  Dict.get?_filter_eq ..

end Facets

end SingleTable
