import SingleTable.Proofs.Query.Params
import SingleTable.Proofs.Text.Order

/-! When the key condition of a query holds of an item.

The store looks the placeholders up and compares the fields of the item: the
partition key for equality, the sort key with the bounds of a range, by their
bytes. `Query.params_hold_iff` says what this comes to for the parameters of a
query: the partition key is that of the query, and its range admits the sort key. -/
namespace SingleTable

open Text (bytes)

/-! ### Ranges -/

/-- Whether a comparison with a bound holds. -/
def Comparison.Holds {α : Type} [LT α] [LE α] (key bound : α) : Comparison → Prop
  | .gt => bound < key
  | .gte => bound ≤ key
  | .lt => key < bound
  | .lte => key ≤ bound

/-- A sort key is in a range, by the bytes of the key and of the bounds. -/
def SortRange.Admits (key : String) : SortRange → Prop
  | .beginsWith start => bytes start.toList <+: bytes key.toList
  | .between low high => bytes low.toList ≤ bytes key.toList ∧ bytes key.toList ≤ bytes high.toList
  | .compare comparison bound => comparison.Holds (bytes key.toList) (bytes bound.toList)

namespace SortRange

theorem admits_beginsWith {key start : String} :
    (beginsWith start).Admits key ↔ start.toList <+: key.toList := Text.bytes_begins_iff

theorem admits_between {key low high : String} :
    (between low high).Admits key ↔ low.toList ≤ key.toList ∧ key.toList ≤ high.toList :=
  and_congr Text.bytes_le_iff Text.bytes_le_iff

theorem admits_compare {key bound : String} {comparison : Comparison} :
    (compare comparison bound).Admits key ↔ comparison.Holds key.toList bound.toList := by
  cases comparison with
  | gt | lt => exact Text.bytes_lt_iff
  | gte | lte => exact Text.bytes_le_iff

end SortRange

/-! ### Conditions -/

/-- A test of the sort key holds of an item. -/
def SortPhrase.Holds (names : Dict String) (values item : Dict Json) (phrase : SortPhrase) : Prop :=
  ∃ field range key, phrase.Resolves names values field range ∧ item.get? field = some (.string key) ∧
    range.Admits key

/-- A key condition holds of an item. -/
structure KeyPhrase.Holds (names : Dict String) (values item : Dict Json) (k : KeyPhrase) : Prop where
  partition : ∃ field value, names.get? k.name = some field ∧ values.get? k.value = some value ∧
    item.get? field = some value
  sort : ∀ phrase ∈ k.sort, phrase.Holds names values item

/-- Placeholders resolve to one field and one range. -/
theorem SortPhrase.Resolves.unique {names : Dict String} {values : Dict Json} {field field' : String}
    {phrase : SortPhrase} {range range' : SortRange} (h : phrase.Resolves names values field range)
    (h' : phrase.Resolves names values field' range') : field = field' ∧ range = range' := by
  cases h with
  | beginsWith hname hstart =>
    cases h' with
    | beginsWith hname' hstart' => simp_all
  | between hname hlow hhigh =>
    cases h' with
    | between hname' hlow' hhigh' => simp_all
  | compare hname hbound =>
    cases h' with
    | compare hname' hbound' => simp_all

/-- A key condition whose placeholders resolve holds of the items with its keys. -/
theorem KeyPhrase.Resolves.holds_iff {names : Dict String} {values : Dict Json} {index : Index}
    {partitionKey : String} {range : SortRange} {k : KeyPhrase}
    (h : k.Resolves names values index partitionKey range) {item : Dict Json} :
    k.Holds names values item ↔ item.get? index.partition.field = some (.string partitionKey) ∧
      ∀ sort ∈ index.sort, ∃ key, item.get? sort.field = some (.string key) ∧ range.Admits key := by
  constructor
  · rintro ⟨⟨field, value, hname, hvalue, hitem⟩, hsort⟩
    obtain rfl := Option.some.inj (hname.symm.trans h.name)
    obtain rfl := Option.some.inj (hvalue.symm.trans h.value)
    refine ⟨hitem, fun sort hmem => ?_⟩
    obtain ⟨phrase, hphrase⟩ : ∃ phrase, k.sort = some phrase := by
      rw [← Option.isSome_iff_exists, h.present, hmem, Option.isSome_some]
    obtain ⟨field, range', key, hresolves, hkey, hadmits⟩ := hsort phrase hphrase
    obtain ⟨rfl, rfl⟩ := hresolves.unique (h.sort phrase sort hphrase hmem)
    exact ⟨key, hkey, hadmits⟩
  · rintro ⟨hitem, hsort⟩
    refine ⟨⟨_, _, h.name, h.value, hitem⟩, fun phrase hphrase => ?_⟩
    obtain ⟨sort, hmem⟩ : ∃ sort, index.sort = some sort := by
      rw [← Option.isSome_iff_exists, ← h.present, hphrase, Option.isSome_some]
    obtain ⟨key, hkey, hadmits⟩ := hsort sort hmem
    exact ⟨sort.field, range, key, h.sort phrase sort hphrase hmem, hkey, hadmits⟩

/-- **The key condition of a query holds of the items that have its partition key and a sort key in
its range.** -/
theorem Query.params_hold_iff (q : Query) {item : Dict Json} :
    q.params.key.Holds q.params.names q.params.values item ↔
      item.get? q.index.partition.field = some (.string q.partitionKey) ∧
        ∀ sort ∈ q.index.sort, ∃ key, item.get? sort.field = some (.string key) ∧ q.sortRange.Admits key :=
  q.params_key.holds_iff

/-- Of an item with the partition key of a query, its range decides by the sort key. -/
theorem Query.holds_iff_of_sorted {q : Query} {item : Dict Json} {sort : KeyField} {key : String}
    (hpartition : item.get? q.index.partition.field = some (.string q.partitionKey)) (hsort : q.index.sort = some sort)
    (hkey : item.get? sort.field = some (.string key)) :
    q.params.key.Holds q.params.names q.params.values item ↔ q.sortRange.Admits key := by
  rw [q.params_hold_iff, and_iff_right hpartition]
  constructor
  · intro h
    obtain ⟨other, hother, hadmits⟩ := h sort hsort
    obtain rfl := Json.string.inj (Option.some.inj (hkey.symm.trans hother))
    exact hadmits
  · intro hadmits other hother
    obtain rfl := Option.some.inj (hsort.symm.trans hother)
    exact ⟨key, hkey, hadmits⟩

/-- An item with a sort key in the range of a query. -/
theorem Query.holds_of_sorted {q : Query} {item : Dict Json} {sort : KeyField} {key : String}
    (hpartition : item.get? q.index.partition.field = some (.string q.partitionKey)) (hsort : q.index.sort = some sort)
    (hkey : item.get? sort.field = some (.string key)) (hadmits : q.sortRange.Admits key) :
    q.params.key.Holds q.params.names q.params.values item :=
  (holds_iff_of_sorted hpartition hsort hkey).mpr hadmits

end SingleTable
