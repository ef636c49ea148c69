import SingleTable.Proofs.Query.Protocol

/-! Ranges that only narrow a chain.

Without a range a chain asks for the sort keys that begin with what its facets
compose. Facets that are written over these and neither erase nor change one of
them compose a key that goes on from that beginning: they may fill a gap, and then
the facets behind the gap go into the key again. So does every key between two of
that kind, and no range of such facets selects an item that the chain without it
would not (`narrows`). -/
namespace SingleTable

open Text (bytes)

/-! ### Facets that add -/

/-- Facets that only add to those of a chain: none of them is null, and none differs from a value that
the chain has. -/
structure Facets.AddsTo (given chain : Facets) : Prop where
  whole : ∀ name, given.get? name ≠ some .null
  agrees : ∀ name value other, chain.value? name = some value → given.get? name = some other → other = value

/-- Every value of the chain stays. -/
theorem Facets.AddsTo.value?_onto {given chain : Facets} (h : given.AddsTo chain) {name : String} {value : Json}
    (hvalue : chain.value? name = some value) : (given.onto chain).value? name = some value := by
  rw [Facets.value?_onto]
  cases hget : given.get? name with
  | none => exact hvalue
  | some other =>
    obtain rfl := h.agrees name value other hvalue hget
    show given.value? name = some other
    exact value?_eq_some_iff.mpr ⟨hget, (value?_eq_some_iff.mp hvalue).2⟩

/-! ### Ranges -/

/-- Between two keys with one beginning, every key has it. -/
theorem SortRange.begins_of_admits_between {start low high key : String} (hlow : start.toList <+: low.toList)
    (hhigh : start.toList <+: high.toList) (h : (between low high).Admits key) : start.toList <+: key.toList := by
  obtain ⟨hbelow, habove⟩ := admits_between.mp h
  obtain ⟨rest, hrest⟩ := hhigh
  rw [← hrest] at habove
  exact Text.begins_of_between ((Text.le_of_begins hlow).trans hbelow) habove

namespace Query

variable {q q' : Query}

theorem beginsWith_ok {input : Json} (h : q.beginsWith input = .ok q') :
    ∃ bound, q.boundOf input = .ok bound ∧ q' = q.withRange (.beginsWith bound) := by
  unfold beginsWith at h
  split at h
  · exact nomatch h
  · obtain ⟨bound, hbound, rfl⟩ := Fault.map_ok h
    exact ⟨bound, hbound, rfl⟩

theorem between_ok {low high : Json} (h : q.between low high = .ok q') :
    ∃ lower upper, q.boundOf low = .ok lower ∧ q.boundOf high = .ok upper ∧
      q' = q.withRange (.between lower upper) := by
  unfold between at h
  split at h
  · cases h
  split at h
  · cases h
  · next lower hlower =>
    obtain ⟨upper, hupper, rfl⟩ := Fault.map_ok h
    exact ⟨lower, upper, hlower, hupper, rfl⟩

/-- What a caller writes over the facets of a chain only adds to them. -/
def Adds (q : Query) (input : Json) : Prop := ∀ given, Facets.ofJson input = .ok given → given.AddsTo q.facets

/-- **A bound of facets that add begins with what the chain composes.** -/
theorem begins_boundOf {input : Json} {bound : String} (hadds : q.Adds input) (h : q.boundOf input = .ok bound) :
    (q.entity.registry.sortKey q.index q.facets).toList <+: bound.toList := by
  obtain ⟨given, hgiven, -, -, rfl⟩ := boundOf_ok_iff.mp h
  obtain ⟨rest, hrest⟩ := exists_composeKey_eq_append q.entity.registry.sortScope
    fun name (_ : name ∈ q.index.sortFacets) value => (hadds given hgiven).value?_onto
  show _ <+: (composeKey _ _ (given.onto q.facets)).toList
  rw [hrest, String.toList_append]
  exact List.prefix_append _ _

/-- A range that admits less selects less. -/
theorem holds_of_withRange {range : SortRange} (h : ∀ key, range.Admits key → q.sortRange.Admits key) {item : Dict Json}
    (hholds : (q.withRange range).params.key.Holds (q.withRange range).params.names (q.withRange range).params.values item) :
    q.params.key.Holds q.params.names q.params.values item := by
  obtain ⟨hpartition, hsort⟩ := (params_hold_iff _).mp hholds
  refine q.params_hold_iff.mpr ⟨hpartition, fun sort hmem => ?_⟩
  obtain ⟨key, hkey, hadmits⟩ := hsort sort hmem
  exact ⟨key, hkey, h key hadmits⟩

/-- **A beginning and a range between two bounds only narrow a chain.** A chain without steps asks for a
beginning of the sort key. If facets that add to those of the chain are accepted, the beginning that they
compose goes on from that one, and every key between two bounds that they compose goes on from it too, so
that no item is selected that the chain does not select without the range. -/
theorem narrows {e : Entity} {index : Index} {facets : Facets} {q₀ : Query} {steps : List Step}
    (hstart : start e index facets = .ok q₀) (hrun : q₀.run steps = .ok q) (hseeded : q.stage = .seeded) :
    ∃ start, q.sortRange = .beginsWith start ∧
      (∀ input q', q.Adds input → q.beginsWith input = .ok q' →
        ∃ bound, q'.sortRange = .beginsWith bound ∧ start.toList <+: bound.toList ∧
          ∀ item, q'.params.key.Holds q'.params.names q'.params.values item →
            q.params.key.Holds q.params.names q.params.values item) ∧
      ∀ low high q', q.Adds low → q.Adds high → q.between low high = .ok q' →
        ∃ lower upper, q'.sortRange = .between lower upper ∧
          (∀ key : String, bytes lower.toList ≤ bytes key.toList → bytes key.toList ≤ bytes upper.toList →
            start.toList <+: key.toList) ∧
          ∀ item, q'.params.key.Holds q'.params.names q'.params.values item →
            q.params.key.Holds q.params.names q.params.values item := by
  have hfresh : q.range = none := ((Reached.start hstart).run hrun).fresh hseeded
  have hrange : q.sortRange = .beginsWith (q.entity.registry.sortKey q.index q.facets) := by
    rw [sortRange, hfresh]
    rfl
  refine ⟨_, hrange, fun input q' hadds hstep => ?_, fun low high q' hlow hhigh hstep => ?_⟩
  · obtain ⟨bound, hbound, rfl⟩ := beginsWith_ok hstep
    have hbegins := begins_boundOf hadds hbound
    refine ⟨bound, rfl, hbegins, fun item => holds_of_withRange fun key hadmits => ?_⟩
    rw [hrange]
    exact SortRange.admits_beginsWith.mpr (hbegins.trans (SortRange.admits_beginsWith.mp hadmits))
  · obtain ⟨lower, upper, hlower, hupper, rfl⟩ := between_ok hstep
    have hwithin (key : String) (h : (SortRange.between lower upper).Admits key) :
        (q.entity.registry.sortKey q.index q.facets).toList <+: key.toList :=
      SortRange.begins_of_admits_between (begins_boundOf hlow hlower) (begins_boundOf hhigh hupper) h
    refine ⟨lower, upper, rfl, fun key hbelow habove => hwithin key ⟨hbelow, habove⟩,
      fun item => holds_of_withRange fun key hadmits => ?_⟩
    rw [hrange]
    exact SortRange.admits_beginsWith.mpr (hwithin key hadmits)

/-- A floor adds to a chain without one. -/
theorem adds_floor (h : q.facets.value? "floor" = none) (floor : String) :
    q.Adds (.object [("floor", .string floor)]) := by
  intro given hgiven
  obtain rfl := Except.ok.inj hgiven
  have hget {name : String} {value : Json} (h : (Dict.ofList [("floor", Json.string floor)]).get? name = some value) :
      name = "floor" ∧ value = .string floor :=
    Prod.mk.inj (List.mem_singleton.mp (Dict.mem_entries_iff.mpr h))
  refine ⟨fun name hnull => ?_, fun name value other hvalue hother => ?_⟩
  · cases (hget hnull).2
  · rw [(hget hother).1, h] at hvalue
    cases hvalue

/-- The theorem for a chain that has a room and no floor. The floor of a beginning fills the gap, and the
room goes into the key again. -/
theorem narrows_room : ∃ e index q q₁ q₂, Entity.ofSchema rooms = .ok e ∧ index ∈ e.registry.indexes ∧
    start e index (.ofList [("building", .string "A"), ("id", .string "7")]) = .ok q ∧
    q.sortRange = .beginsWith "$room" ∧
    q.beginsWith (.object [("floor", .string "1")]) = .ok q₁ ∧ q₁.sortRange = .beginsWith "$room#floor_1#id_7" ∧
    q.between (.object [("floor", .string "1")]) (.object [("floor", .string "3")]) = .ok q₂ ∧
    (∀ item, q₁.params.key.Holds q₁.params.names q₁.params.values item →
      q.params.key.Holds q.params.names q.params.values item) ∧
    ∀ item, q₂.params.key.Holds q₂.params.names q₂.params.values item →
      q.params.key.Holds q.params.names q.params.values item := by
  let building : Index := ⟨"gsi1", "building", ⟨"gsi1pk", ["building"]⟩, some ⟨"gsi1sk", ["floor", "id"]⟩⟩
  have hsteps : ∃ e q q₁ q₂, Entity.ofSchema rooms = .ok e ∧ building ∈ e.registry.indexes ∧
      start e building (.ofList [("building", .string "A"), ("id", .string "7")]) = .ok q ∧
      q.stage = .seeded ∧ q.facets.value? "floor" = none ∧ q.sortRange = .beginsWith "$room" ∧
      q.beginsWith (.object [("floor", .string "1")]) = .ok q₁ ∧ q₁.sortRange = .beginsWith "$room#floor_1#id_7" ∧
      q.between (.object [("floor", .string "1")]) (.object [("floor", .string "3")]) = .ok q₂ :=
    ⟨_, _, _, _, rfl, by decide, rfl, rfl, rfl, rfl, rfl, rfl, rfl⟩
  obtain ⟨e, q, q₁, q₂, he, hindex, hstart, hseeded, hfloor, hrange, hfirst, hfilled, hsecond⟩ := hsteps
  obtain ⟨beginning, -, hbegins, hbetween⟩ := @narrows q e building _ q [] hstart rfl hseeded
  obtain ⟨bound, -, -, hnarrow₁⟩ := hbegins _ q₁ (adds_floor hfloor "1") hfirst
  obtain ⟨lower, upper, -, -, hnarrow₂⟩ := hbetween _ _ q₂ (adds_floor hfloor "1") (adds_floor hfloor "3") hsecond
  exact ⟨e, building, q, q₁, q₂, he, hindex, hstart, hrange, hfirst, hfilled, hsecond, hnarrow₁, hnarrow₂⟩

end Query

end SingleTable
