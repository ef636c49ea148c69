import Mathlib.Data.List.TakeWhile
import SingleTable.Proofs.Query.Found
import SingleTable.Proofs.Query.Protocol

/-! The upper end of a range.

A range with an upper bound includes the bound, and no key that goes on from it. A
bound is composed of the facets that are known, up to the first gap, and a stored
sort key of all of them. So the sort key of an item that has the values of the bound
goes on from the bound, and is in the range only if it is the bound itself
(`holds_iff_composes_all`): a bound that leaves facets out takes in none of the items
that it names. -/
namespace SingleTable

open Text (bytes)

/-! ### Keys that go on from a bound -/

/-- What goes on from a text lies above it. -/
theorem Text.append_le_iff {a t : List Char} : a ++ t ≤ a ↔ t = [] := by
  constructor
  · intro h
    have hsame : a ++ t = a := le_antisymm h (le_of_begins (List.prefix_append a t))
    exact List.append_right_eq_self.mp hsame
  · intro h
    rw [h, List.append_nil]

/-- The bound that a range includes above. -/
def SortRange.upper? : SortRange → Option String
  | .compare .lte bound => some bound
  | .between _ high => some high
  | _ => none

/-- **Of the keys that go on from its upper bound, a range admits the bound only.** -/
theorem SortRange.admits_iff_of_upper {range : SortRange} {bound key : String} {rest : List Char}
    (hupper : range.upper? = some bound) (hkey : key.toList = bound.toList ++ rest)
    (hordered : ∀ low high, range = .between low high → bytes low.toList ≤ bytes high.toList) :
    range.Admits key ↔ rest = [] := by
  cases range with
  | beginsWith start => exact nomatch hupper
  | compare comparison other =>
    cases comparison with
    | gt | gte | lt => exact nomatch hupper
    | lte =>
      obtain rfl := Option.some.inj hupper
      rw [admits_compare, Comparison.Holds, hkey, Text.append_le_iff]
  | between low high =>
    obtain rfl := Option.some.inj hupper
    have hlow : low.toList ≤ high.toList := Text.bytes_le_iff.mp (hordered low high rfl)
    have hbelow : low.toList ≤ key.toList := by
      rw [hkey]
      exact hlow.trans (Text.le_of_begins (List.prefix_append _ _))
    rw [admits_between, and_iff_right hbelow, hkey, Text.append_le_iff]

/-! ### Composition of all facets -/

/-- Nothing is composed beyond what is known exactly if all facets are known. -/
theorem Facets.rest_eq_nil_iff {known full : Facets} {names : List String} {more : List (String × Json)}
    (hfull : ∀ name ∈ names, full.has name = true) (hmore : full.leading names = known.leading names ++ more) :
    more = [] ↔ ∀ name ∈ names, known.has name = true := by
  have hnames := congrArg (List.map Prod.fst) hmore
  rw [List.map_append, map_leading, map_leading, List.takeWhile_eq_self_iff.mpr hfull] at hnames
  rw [← List.takeWhile_eq_self_iff, ← @List.map_eq_nil_iff _ _ Prod.fst]
  constructor
  · intro hnil
    rw [hnil, List.append_nil] at hnames
    exact hnames.symm
  · intro hall
    rw [hall] at hnames
    exact List.self_eq_append_right.mp hnames

/-- **A key of all facets goes on from the key of those that are known**, and is the same exactly if all
are known. -/
theorem exists_toList_composeKey (scope : String) {known full : Facets} {names : List String}
    (hfull : ∀ name ∈ names, full.has name = true)
    (h : ∀ pair ∈ known.leading names, full.value? pair.1 = some pair.2) :
    ∃ rest, (composeKey scope names full).toList = (composeKey scope names known).toList ++ rest ∧
      (rest = [] ↔ ∀ name ∈ names, known.has name = true) := by
  obtain ⟨more, hmore⟩ := Facets.leading_append_of_mem h
  refine ⟨Facets.segments more, ?_, ?_⟩
  · rw [toList_composeKey, toList_composeKey, hmore, Facets.segments_append, List.append_assoc]
  · rw [Facets.segments_eq_nil, Facets.rest_eq_nil_iff hfull hmore]

namespace Query

/-! ### Upper bounds of a chain -/

/-- The facets of the bound that a step includes above. -/
def Step.upper? : Step → Option Json
  | .compare .lte high => some high
  | .between _ high => some high
  | _ => none

theorem Step.isFilter_of_upper {s : Step} {high : Json} (h : s.upper? = some high) : s.isFilter = false := by
  cases s with
  | compare | beginsWith | between => rfl
  | filter | named => exact nomatch h

/-- The range of a step has the bound that its facets compose. -/
theorem Step.upper?_of_range? {q : Query} {s : Step} {range : SortRange} {high : Json}
    (hrange : s.range? q = some range) (h : s.upper? = some high) :
    ∃ bound, q.boundOf high = .ok bound ∧ range.upper? = some bound := by
  cases s with
  | compare comparison input =>
    cases comparison with
    | gt | gte | lt => exact nomatch h
    | lte =>
      obtain rfl := Option.some.inj h
      obtain ⟨bound, hbound, rfl⟩ := Option.map_eq_some_iff.mp hrange
      exact ⟨bound, Fault.ok_of_toOption hbound, rfl⟩
  | between low other =>
    obtain rfl := Option.some.inj h
    obtain ⟨lower, -, hrest⟩ := Option.bind_eq_some_iff.mp hrange
    obtain ⟨upper, hupper, rfl⟩ := Option.map_eq_some_iff.mp hrest
    exact ⟨upper, Fault.ok_of_toOption hupper, rfl⟩
  | beginsWith | filter | named => exact nomatch h

/-- An item has the partition key of a chain and all values that a bound is composed of, when `given` is
written over the facets of the chain. -/
structure Names (q : Query) (given : Facets) (p : Put) : Prop where
  partition : p.item.get? q.index.partition.field = some (.string q.partitionKey)
  values : ∀ pair ∈ (given.onto q.facets).leading q.index.sortFacets, p.attributes.get? pair.1 = some pair.2

/-- **The sort key of an item that a bound names goes on from the bound**, and is the bound itself exactly
if all facets go into it. -/
theorem Names.exists_sortKey {q : Query} {given : Facets} {p : Put} (h : q.Names given p) (hacc : q.entity.Accepted)
    (hindex : q.index ∈ q.entity.registry.indexes) {sort : KeyField} (hsort : q.index.sort = some sort) {input : Json}
    (hput : q.entity.put input = .ok p) {high : Json} (hgiven : q.entity.facets high = .ok given) {bound : String}
    (hbound : q.boundOf high = .ok bound) :
    ∃ key rest, p.item.get? sort.field = some (.string key) ∧ key.toList = bound.toList ++ rest ∧
      (rest = [] ↔ ∀ name ∈ q.index.sortFacets, (given.onto q.facets).has name = true) := by
  have hsortFacets : q.index.sortFacets = sort.facets := by rw [Index.sortFacets, hsort]
  have hcomposed : composeKey q.entity.registry.sortScope sort.facets (given.onto q.facets) = bound := by
    obtain ⟨other, hother, -, -, hkey⟩ := boundOf_ok_iff.mp hbound
    obtain rfl := Except.ok.inj ((Entity.facets_ok_iff.mp hgiven).1.symm.trans hother)
    rwa [Registry.sortKey_eq _ hsort] at hkey
  have hfull : ∀ name ∈ sort.facets, p.attributes.has name = true := by
    obtain ⟨-, hall, -⟩ := Entity.put_ok hput
    intro name hname
    exact hall q.index hindex name
      (Registry.mem_facetNames_of_keyField (Registry.mem_keyFields_of_sort hsort) hname)
  have hvalues : ∀ pair ∈ (given.onto q.facets).leading sort.facets, p.attributes.value? pair.1 = some pair.2 := by
    intro pair hpair
    have hne := (Facets.value?_eq_some_iff.mp (Facets.value?_of_mem_leading hpair).2).2
    exact Facets.value?_eq_some_iff.mpr ⟨h.values pair (hsortFacets ▸ hpair), hne⟩
  obtain ⟨rest, hkey, hrest⟩ := exists_toList_composeKey q.entity.registry.sortScope hfull hvalues
  rw [hcomposed] at hkey
  rw [hsortFacets]
  exact ⟨_, rest, hacc.get?_key_of_put hput hindex (q.entity.registry.scoped_sort hsort), hkey, hrest⟩

/-- **An upper bound takes in the items that it names exactly if it names all facets.** A step puts an
upper bound on a chain, not below the lower bound if it puts one too. The items that the bound names
satisfy the key condition if the bound is composed of all facets of the sort key, and only then. -/
theorem holds_iff_composes_all {s : Schema} {e : Entity} (he : Entity.ofSchema s = .ok e) {index : Index}
    (hindex : index ∈ e.registry.indexes) {facets : Facets} {q₀ q : Query} {steps : List Step}
    (hstart : start e index facets = .ok q₀) (hrun : q₀.run steps = .ok q) {step : Step} (hstep : step ∈ steps)
    {high : Json} (hhigh : step.upper? = some high)
    (hordered : ∀ lower upper, q.sortRange = .between lower upper → bytes lower.toList ≤ bytes upper.toList)
    {given : Facets} (hgiven : e.facets high = .ok given) {input : Json} {p : Put} (hput : e.put input = .ok p)
    (hnames : q.Names given p) :
    q.params.key.Holds q.params.names q.params.values p.item ↔
      ∀ name ∈ index.sortFacets, (given.onto facets).has name = true := by
  have hacc := Entity.accepted_of_ofSchema he
  have hreached := (Reached.start hstart).run hrun
  obtain ⟨hsorted, range, hstepRange, hfind⟩ := range_of_mem hstart hrun hstep (Step.isFilter_of_upper hhigh)
  have hrange : q.sortRange = range := by
    rw [hreached.sortRange_eq, List.nil_append, hfind, Option.getD_some]
  rw [← hreached.range?_eq] at hstepRange
  obtain ⟨bound, hbound, hupper⟩ := Step.upper?_of_range? hstepRange hhigh
  obtain ⟨-, rfl⟩ := start_ok hstart
  -- A chain keeps what it starts with.
  obtain rfl : q.entity = e := hreached.entity
  obtain rfl : q.index = index := hreached.index
  obtain rfl : q.facets = facets := hreached.facets
  obtain ⟨sort, hsort⟩ := Option.isSome_iff_exists.mp hsorted
  obtain ⟨key, rest, hstored, hkey, hrest⟩ := hnames.exists_sortKey hacc hindex hsort hput hgiven hbound
  rw [hrange] at hordered
  rw [holds_iff_of_sorted hnames.partition hsort hstored, hrange,
    SortRange.admits_iff_of_upper hupper hkey hordered, hrest]

/-- All facets of a room's sort key. -/
def doorOf (floor id : String) : Json := .object [("floor", .string floor), ("id", .string id)]

/-- The theorem for a range that ends with a room, which is in it. -/
theorem holds_iff_composes_all_room : ∃ e q₀ q p, Entity.ofSchema rooms = .ok e ∧ e.put (roomOn "1" "7") = .ok p ∧
    e.query "building" inBuilding = .ok q₀ ∧ q₀.run [.between (doorOf "0" "9") (doorOf "1" "7")] = .ok q ∧
    q.params.key.Holds q.params.names q.params.values p.item := by
  let building : Index := ⟨"gsi1", "building", ⟨"gsi1pk", ["building"]⟩, some ⟨"gsi1sk", ["floor", "id"]⟩⟩
  have hiff := @holds_iff_composes_all rooms _ rfl building (by decide) (.ofList [("building", .string "A")]) _ _
    [.between (doorOf "0" "9") (doorOf "1" "7")] rfl rfl _ (List.mem_singleton_self _) _ rfl
    (fun lower upper hrange => ?ordered) _ rfl (roomOn "1" "7") _ rfl ⟨rfl, ?values⟩
  · exact ⟨_, _, _, _, rfl, rfl, rfl, rfl, hiff.mpr (by decide)⟩
  case ordered =>
    obtain ⟨rfl, rfl⟩ := SortRange.between.inj hrange
    decide
  case values => exact List.forall_mem_cons.mpr ⟨rfl, List.forall_mem_singleton.mpr rfl⟩

def onlyFloor (floor : String) : Json := .object [("floor", .string floor)]

/-- A room on a floor is in no range that ends with the floor: its key goes on from the bound. -/
theorem named_room_left_out : ∃ e q₀ q₁ q₂ p, Entity.ofSchema rooms = .ok e ∧ e.put (roomOn "1" "7") = .ok p ∧
    e.query "building" inBuilding = .ok q₀ ∧ q₀.run [.compare .lte (onlyFloor "1")] = .ok q₁ ∧
    q₀.run [.between (onlyFloor "0") (onlyFloor "1")] = .ok q₂ ∧
    q₁.sortRange = .compare .lte "$room#floor_1" ∧ q₂.sortRange = .between "$room#floor_0" "$room#floor_1" ∧
    bytes "$room#floor_0".toList ≤ bytes "$room#floor_1".toList ∧
    q₁.Names (.ofList [("floor", .string "1")]) p ∧ q₂.Names (.ofList [("floor", .string "1")]) p ∧
    ¬ q₁.params.key.Holds q₁.params.names q₁.params.values p.item ∧
    ¬ q₂.params.key.Holds q₂.params.names q₂.params.values p.item := by
  refine ⟨_, _, _, _, _, rfl, rfl, rfl, rfl, rfl, rfl, rfl, by decide, ⟨rfl, List.forall_mem_singleton.mpr rfl⟩,
    ⟨rfl, List.forall_mem_singleton.mpr rfl⟩, fun hholds => ?_, fun hholds => ?_⟩
  · have hadmits := (holds_iff_of_sorted rfl rfl rfl).mp hholds
    exact absurd hadmits (by decide : ¬ bytes "$room#floor_1#id_7".toList ≤ bytes "$room#floor_1".toList)
  · have hadmits := (holds_iff_of_sorted rfl rfl rfl).mp hholds
    exact absurd hadmits.2 (by decide : ¬ bytes "$room#floor_1#id_7".toList ≤ bytes "$room#floor_1".toList)

end Query

end SingleTable
