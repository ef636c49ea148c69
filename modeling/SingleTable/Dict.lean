/-! Finite maps from names that remember the order in which names first came.

Attributes, indexes, facet values, placeholders and the members of a JSON object
are all kept this way: the order is shown to the outside, and a name occurs once.
Writing a name that is present changes its value in place; a new name goes to the
end. `get?_insert` and `keys_insert` say exactly that. -/
namespace SingleTable

/-! ### Association lists -/

namespace Assoc
variable {α β : Type}

def lookup (key : String) : List (String × α) → Option α
  | [] => none
  | (k, v) :: rest => if k = key then some v else lookup key rest

/-- Change the value of a present key in place, or append a new pair. -/
def put (key : String) (value : α) : List (String × α) → List (String × α)
  | [] => [(key, value)]
  | (k, v) :: rest => if k = key then (k, value) :: rest else (k, v) :: put key value rest

def keys (entries : List (String × α)) : List String := entries.map Prod.fst

theorem lookup_put (key other : String) (value : α) (entries : List (String × α)) :
    lookup other (put key value entries) = if key = other then some value else lookup other entries := by
  induction entries with
  | nil => simp [put, lookup]
  | cons entry rest ih =>
    obtain ⟨k, v⟩ := entry
    by_cases hk : k = key
    · subst hk
      by_cases ho : k = other <;> simp [put, lookup, ho]
    · by_cases ho : k = other
      · subst ho
        simp [put, lookup, hk, Ne.symm hk]
      · simp [put, lookup, hk, ho, ih]

theorem keys_put (key : String) (value : α) (entries : List (String × α)) :
    keys (put key value entries) = if key ∈ keys entries then keys entries else keys entries ++ [key] := by
  induction entries with
  | nil => simp [put, keys]
  | cons entry rest ih =>
    obtain ⟨k, v⟩ := entry
    by_cases hk : k = key
    · subst hk
      simp [put, keys]
    · simp only [keys] at ih
      by_cases hm : key ∈ rest.map Prod.fst <;>
        simp [put, hk, keys, ih, hm, Ne.symm hk]

theorem nodup_put {key : String} {value : α} {entries : List (String × α)}
    (h : (keys entries).Nodup) : (keys (put key value entries)).Nodup := by
  rw [keys_put]
  split
  · exact h
  · next hnew =>
    rw [List.nodup_append]
    exact ⟨h, by simp, by rintro a ha b hb rfl; exact hnew (by simp_all)⟩

theorem put_eq_append {key : String} {value : α} {entries : List (String × α)}
    (h : key ∉ keys entries) : put key value entries = entries ++ [(key, value)] := by
  induction entries with
  | nil => rfl
  | cons entry rest ih =>
    obtain ⟨k, v⟩ := entry
    simp only [keys, List.map_cons, List.mem_cons, not_or] at h
    simp [put, Ne.symm h.1, ih h.2]

theorem lookup_eq_none_iff {key : String} {entries : List (String × α)} :
    lookup key entries = none ↔ key ∉ keys entries := by
  induction entries with
  | nil => simp [lookup, keys]
  | cons entry rest ih =>
    obtain ⟨k, v⟩ := entry
    by_cases hk : k = key
    · simp [lookup, keys, hk]
    · simp only [keys] at ih
      simp [lookup, keys, hk, ih, Ne.symm hk]

theorem mem_of_lookup {key : String} {value : α} {entries : List (String × α)}
    (h : lookup key entries = some value) : (key, value) ∈ entries := by
  induction entries with
  | nil => simp [lookup] at h
  | cons entry rest ih =>
    obtain ⟨k, v⟩ := entry
    by_cases hk : k = key
    · simp_all [lookup]
    · exact List.mem_cons_of_mem _ (ih (by simpa [lookup, hk] using h))

theorem lookup_of_mem {key : String} {value : α} {entries : List (String × α)}
    (hn : (keys entries).Nodup) (h : (key, value) ∈ entries) : lookup key entries = some value := by
  induction entries with
  | nil => simp at h
  | cons entry rest ih =>
    obtain ⟨k, v⟩ := entry
    simp only [keys, List.map_cons, List.nodup_cons, List.mem_map] at hn
    rcases List.mem_cons.mp h with hhead | htail
    · simp only [Prod.mk.injEq] at hhead
      simp [lookup, hhead.1, hhead.2]
    · have hk : k ≠ key := fun he => hn.1 ⟨(key, value), htail, he.symm⟩
      simpa [lookup, hk] using ih hn.2 htail

end Assoc

/-! ### Maps -/

structure Dict (α : Type) where
  entries : List (String × α)
  nodup : (Assoc.keys entries).Nodup

namespace Dict
variable {α β : Type}

theorem ext {d e : Dict α} (h : d.entries = e.entries) : d = e := by
  cases d
  cases e
  simpa using h

instance [DecidableEq α] : DecidableEq (Dict α) := fun d e =>
  if h : d.entries = e.entries then isTrue (ext h) else isFalse (fun he => h (he ▸ rfl))

def empty : Dict α := ⟨[], by simp [Assoc.keys]⟩

instance : Inhabited (Dict α) := ⟨empty⟩

def keys (d : Dict α) : List String := Assoc.keys d.entries

def values (d : Dict α) : List α := d.entries.map Prod.snd

def size (d : Dict α) : Nat := d.entries.length

def isEmpty (d : Dict α) : Bool := d.entries.isEmpty

def get? (d : Dict α) (key : String) : Option α := Assoc.lookup key d.entries

def contains (d : Dict α) (key : String) : Bool := (d.get? key).isSome

/-- Set a name: in place if it is present, at the end if it is new. -/
def insert (d : Dict α) (key : String) (value : α) : Dict α :=
  ⟨Assoc.put key value d.entries, Assoc.nodup_put d.nodup⟩

/-- Set a name only if it is new. -/
def insertNew (d : Dict α) (key : String) (value : α) : Dict α :=
  if d.contains key then d else d.insert key value

/-- Write all pairs one after another. -/
def insertAll (d : Dict α) (pairs : List (String × α)) : Dict α :=
  pairs.foldl (fun acc pair => acc.insert pair.1 pair.2) d

/-- The map that pairs denote when a later pair of one name wins. -/
def ofList (pairs : List (String × α)) : Dict α := empty.insertAll pairs

/-- `d` with the entries of `other` written over it. -/
def override (d other : Dict α) : Dict α := d.insertAll other.entries

/-- `d` with those entries of `other` whose names it lacks. -/
def extend (d other : Dict α) : Dict α :=
  other.entries.foldl (fun acc pair => acc.insertNew pair.1 pair.2) d

def filter (p : String → α → Bool) (d : Dict α) : Dict α :=
  ⟨d.entries.filter fun pair => p pair.1 pair.2,
    (List.Sublist.map Prod.fst List.filter_sublist).nodup d.nodup⟩

/-- Change every value, keeping names and order. -/
def map (f : String → α → β) (d : Dict α) : Dict β :=
  ⟨d.entries.map fun pair => (pair.1, f pair.1 pair.2), by
    have : Assoc.keys (d.entries.map fun pair => (pair.1, f pair.1 pair.2)) = Assoc.keys d.entries := by
      simp [Assoc.keys]
    rw [this]
    exact d.nodup⟩

/-! ### What each operation does -/

@[simp] theorem entries_empty : (empty : Dict α).entries = [] := rfl

@[simp] theorem get?_empty (key : String) : (empty : Dict α).get? key = none := rfl

theorem get?_insert (d : Dict α) (key other : String) (value : α) :
    (d.insert key value).get? other = if key = other then some value else d.get? other :=
  Assoc.lookup_put key other value d.entries

@[simp] theorem get?_insert_self (d : Dict α) (key : String) (value : α) :
    (d.insert key value).get? key = some value := by
  simp [get?_insert]

theorem keys_insert (d : Dict α) (key : String) (value : α) :
    (d.insert key value).keys = if key ∈ d.keys then d.keys else d.keys ++ [key] :=
  Assoc.keys_put key value d.entries

theorem get?_eq_none_iff {d : Dict α} {key : String} : d.get? key = none ↔ key ∉ d.keys :=
  Assoc.lookup_eq_none_iff

theorem contains_iff {d : Dict α} {key : String} : d.contains key = true ↔ key ∈ d.keys := by
  rw [contains, Option.isSome_iff_ne_none, ne_eq, get?_eq_none_iff, Classical.not_not]

theorem contains_eq_false_iff {d : Dict α} {key : String} : d.contains key = false ↔ key ∉ d.keys := by
  rw [← contains_iff, Bool.not_eq_true]

theorem mem_entries_iff {d : Dict α} {key : String} {value : α} :
    (key, value) ∈ d.entries ↔ d.get? key = some value :=
  ⟨Assoc.lookup_of_mem d.nodup, Assoc.mem_of_lookup⟩

theorem mem_values_of_get? {d : Dict α} {key : String} {value : α} (h : d.get? key = some value) :
    value ∈ d.values :=
  List.mem_map.mpr ⟨(key, value), mem_entries_iff.mpr h, rfl⟩

/-- A new name goes to the end. -/
theorem entries_insert_of_notMem {d : Dict α} {key : String} {value : α} (h : key ∉ d.keys) :
    (d.insert key value).entries = d.entries ++ [(key, value)] :=
  Assoc.put_eq_append h

theorem get?_insertNew (d : Dict α) (key other : String) (value : α) :
    (d.insertNew key value).get? other =
      if key = other ∧ key ∉ d.keys then some value else d.get? other := by
  unfold insertNew
  split
  · next h => simp [contains_iff.mp h]
  · next h =>
    have hnew : key ∉ d.keys := by rwa [contains_iff] at h
    simp [get?_insert, hnew]

theorem mem_keys_insert {d : Dict α} {key other : String} {value : α} :
    other ∈ (d.insert key value).keys ↔ other = key ∨ other ∈ d.keys := by
  rw [keys_insert]
  split
  · next h => exact ⟨Or.inr, fun ho => ho.elim (fun he => he ▸ h) id⟩
  · simp [or_comm]

theorem mem_keys_insertNew {d : Dict α} {key other : String} {value : α} :
    other ∈ (d.insertNew key value).keys ↔ other ∈ d.keys ∨ other = key := by
  unfold insertNew
  split
  · next h => exact ⟨.inl, fun ho => ho.elim id fun he => he ▸ contains_iff.mp h⟩
  · rw [mem_keys_insert, or_comm]

/-- The last pair of a name decides, and without one the map as it was. -/
theorem get?_insertAll (d : Dict α) (pairs : List (String × α)) (key : String) :
    (d.insertAll pairs).get? key = (Assoc.lookup key pairs.reverse).or (d.get? key) := by
  induction pairs generalizing d with
  | nil => rfl
  | cons pair rest ih =>
    have happend (xs : List (String × α)) :
        Assoc.lookup key (xs ++ [pair]) =
          (Assoc.lookup key xs).or (if pair.1 = key then some pair.2 else none) := by
      induction xs with
      | nil => simp [Assoc.lookup]
      | cons x xs ihx =>
        by_cases hx : x.1 = key
        · simp [Assoc.lookup, hx]
        · simpa [Assoc.lookup, hx] using ihx
    show ((d.insert pair.1 pair.2).insertAll rest).get? key = _
    rw [ih, List.reverse_cons, happend, get?_insert]
    cases Assoc.lookup key rest.reverse <;> by_cases hp : pair.1 = key <;> simp [hp]

/-- In a list without repetitions every pair is an entry of the map. -/
theorem entries_ofList {pairs : List (String × α)} (h : (Assoc.keys pairs).Nodup) :
    (ofList pairs).entries = pairs := by
  have hgo (rest : List (String × α)) (d : Dict α)
      (hn : (Assoc.keys (d.entries ++ rest)).Nodup) : (d.insertAll rest).entries = d.entries ++ rest := by
    induction rest generalizing d with
    | nil => simp [insertAll]
    | cons pair rest ih =>
      have hnew : pair.1 ∉ d.keys := by
        simp only [Assoc.keys, List.map_append, List.map_cons] at hn
        have := (List.nodup_append.mp hn).2.2
        intro hmem
        exact this pair.1 hmem pair.1 (List.mem_cons_self ..) rfl
      have hentries : (d.insert pair.1 pair.2).entries = d.entries ++ [(pair.1, pair.2)] :=
        entries_insert_of_notMem hnew
      show ((d.insert pair.1 pair.2).insertAll rest).entries = _
      rw [ih, hentries]
      · simp
      · rw [hentries]
        simpa using hn
  show (empty.insertAll pairs).entries = pairs
  simpa using hgo pairs empty (by simpa using h)

/-- In a list without repetitions every pair is looked up. -/
theorem get?_ofList {pairs : List (String × α)} (h : (Assoc.keys pairs).Nodup) {key : String} {value : α} :
    (ofList pairs).get? key = some value ↔ (key, value) ∈ pairs := by
  rw [← mem_entries_iff, entries_ofList h]

theorem mem_of_get?_ofList {pairs : List (String × α)} {key : String} {value : α}
    (h : (ofList pairs).get? key = some value) : (key, value) ∈ pairs := by
  rw [ofList, get?_insertAll, get?_empty, Option.or_none] at h
  exact List.mem_reverse.mp (Assoc.mem_of_lookup h)

theorem get?_ofList_eq_none {pairs : List (String × α)} {key : String}
    (h : (ofList pairs).get? key = none) : key ∉ Assoc.keys pairs := by
  rw [ofList, get?_insertAll, get?_empty, Option.or_none, Assoc.lookup_eq_none_iff] at h
  intro hmem
  obtain ⟨pair, hpair, rfl⟩ := List.mem_map.mp hmem
  exact h (List.mem_map_of_mem (List.mem_reverse.mpr hpair))

/-- The map of the names that a function has a value for. -/
theorem get?_ofList_filterMap (names : List String) (f : String → Option α) (key : String) :
    (ofList (names.filterMap fun name => (f name).map fun value => (name, value))).get? key =
      if key ∈ names then f key else none := by
  have hsound (name : String) (value : α)
      (h : (name, value) ∈ names.filterMap fun name => (f name).map fun value => (name, value)) :
      name ∈ names ∧ f name = some value := by
    obtain ⟨other, hother, hpair⟩ := List.mem_filterMap.mp h
    obtain ⟨v, hv, heq⟩ := Option.map_eq_some_iff.mp hpair
    obtain ⟨rfl, rfl⟩ := Prod.mk.inj heq
    exact ⟨hother, hv⟩
  cases hget : (ofList (names.filterMap fun name => (f name).map fun value => (name, value))).get? key with
  | some value =>
    obtain ⟨hname, hvalue⟩ := hsound key value (mem_of_get?_ofList hget)
    rw [if_pos hname, hvalue]
  | none =>
    split
    · next hname =>
      cases hvalue : f key with
      | none => rfl
      | some value =>
        have hmem : (key, value) ∈ names.filterMap fun name => (f name).map fun value => (name, value) :=
          List.mem_filterMap.mpr ⟨key, hname, by rw [hvalue]; rfl⟩
        exact absurd (List.mem_map_of_mem hmem) (get?_ofList_eq_none hget)
    · rfl

/-- Pairs are written over a map as the map that they denote is. -/
theorem get?_insertAll_eq (d : Dict α) (pairs : List (String × α)) (key : String) :
    (d.insertAll pairs).get? key = ((ofList pairs).get? key).or (d.get? key) := by
  rw [ofList, get?_insertAll, get?_insertAll, get?_empty, Option.or_none]

theorem get?_filter {d : Dict α} {keep : String → α → Bool} {key : String} {value : α}
    (h : (d.filter keep).get? key = some value) : d.get? key = some value ∧ keep key value = true := by
  obtain ⟨hmem, hkeep⟩ := List.mem_filter.mp (mem_entries_iff.mpr h)
  exact ⟨mem_entries_iff.mp hmem, hkeep⟩

theorem get?_filter_eq (d : Dict α) (keep : String → α → Bool) (key : String) :
    (d.filter keep).get? key = (d.get? key).filter (keep key) := by
  ext value
  rw [Option.filter_eq_some_iff]
  constructor
  · exact get?_filter
  · intro h
    exact mem_entries_iff.mp (List.mem_filter.mpr ⟨mem_entries_iff.mpr h.1, h.2⟩)

theorem get?_override (d other : Dict α) (key : String) :
    (d.override other).get? key = (other.get? key).or (d.get? key) := by
  have hreverse : Assoc.lookup key other.entries.reverse = other.get? key := by
    cases h : other.get? key with
    | none =>
      rw [Assoc.lookup_eq_none_iff]
      have := get?_eq_none_iff.mp h
      simpa [Assoc.keys, keys] using this
    | some value =>
      refine Assoc.lookup_of_mem ?_ (by simpa using mem_entries_iff.mpr h)
      rw [Assoc.keys, List.map_reverse, List.Nodup, List.pairwise_reverse]
      exact other.nodup.imp Ne.symm
  rw [override, get?_insertAll, hreverse]

/-- What the first map lacks comes from the second. -/
theorem get?_extend (d other : Dict α) (key : String) :
    (d.extend other).get? key = (d.get? key).or (other.get? key) := by
  have hgo (pairs : List (String × α)) (d : Dict α) :
      (pairs.foldl (fun acc pair => acc.insertNew pair.1 pair.2) d).get? key =
        (d.get? key).or (Assoc.lookup key pairs) := by
    induction pairs generalizing d with
    | nil => simp [Assoc.lookup]
    | cons pair rest ih =>
      rw [List.foldl_cons, ih, get?_insertNew, Assoc.lookup]
      by_cases hp : pair.1 = key
      · subst hp
        cases hget : d.get? pair.1 with
        | none => simp [get?_eq_none_iff.mp hget]
        | some value =>
          have hmem : pair.1 ∈ d.keys := by rw [← contains_iff, contains, hget, Option.isSome_some]
          simp [hmem]
      · simp [hp]
  exact hgo other.entries d

theorem mem_keys_extend {d other : Dict α} {key : String} :
    key ∈ (d.extend other).keys ↔ key ∈ d.keys ∨ key ∈ other.keys := by
  rw [← contains_iff, ← contains_iff, ← contains_iff, contains, get?_extend, Option.isSome_or, Bool.or_eq_true]
  rfl

@[simp] theorem keys_map (f : String → α → β) (d : Dict α) : (d.map f).keys = d.keys := by
  simp [keys, map, Assoc.keys]

theorem get?_map (f : String → α → β) (d : Dict α) (key : String) :
    (d.map f).get? key = (d.get? key).map (f key) := by
  obtain ⟨entries, _⟩ := d
  simp only [get?, map]
  induction entries with
  | nil => rfl
  | cons entry rest ih =>
    obtain ⟨k, v⟩ := entry
    by_cases hk : k = key
    · subst hk
      simp [Assoc.lookup]
    · simp only [List.map_cons, Assoc.lookup, hk, if_false]
      rename_i hn
      exact ih (List.nodup_cons.mp hn).2

end Dict

end SingleTable
