import SingleTable.Fault

/-! Indexes of a table and the registry of an entity's indexes.

An index finds items by a partition field and, most often, a sort field; each of
the two holds a key composed of the values of some attributes, its facets. The
primary index is the one with an empty identifier. -/
namespace SingleTable

/-- A physical field and the attributes composed into it, in order. -/
structure KeyField where
  field : String
  facets : List String
deriving DecidableEq

inductive KeyRole where
  | partition
  | sort
deriving DecidableEq

def KeyRole.name : KeyRole → String
  | .partition => "pk"
  | .sort => "sk"

/-- `name` is the access pattern the index serves, `id` is its name in the table. -/
structure Index where
  id : String
  name : String
  partition : KeyField
  sort : Option KeyField
deriving DecidableEq

/-- The use of an attribute as a facet of one index. -/
structure Slot where
  index : String
  facet : String
  role : KeyRole
deriving DecidableEq

namespace Index

def isPrimary (i : Index) : Bool := i.id == ""

def sortFacets (i : Index) : List String :=
  match i.sort with
  | some sort => sort.facets
  | none => []

def facetNames (i : Index) : List String := i.partition.facets ++ i.sortFacets

/-- The partition field and then the sort field, if there is one. -/
def keyFields (i : Index) : List KeyField := i.partition :: i.sort.toList

def slots (i : Index) : List Slot :=
  i.partition.facets.map (⟨i.id, ·, .partition⟩) ++ i.sortFacets.map (⟨i.id, ·, .sort⟩)

/-- The first name that an earlier one or the list itself already has. -/
def firstRepeat? (earlier : List String) : List String → Option String
  | [] => none
  | name :: rest => if name ∈ earlier then some name else firstRepeat? (name :: earlier) rest

theorem firstRepeat?_eq_none_iff {earlier names : List String} :
    firstRepeat? earlier names = none ↔ names.Nodup ∧ ∀ name ∈ names, name ∉ earlier := by
  induction names generalizing earlier with
  | nil => simp [firstRepeat?]
  | cons name rest ih =>
    by_cases h : name ∈ earlier
    · simp [firstRepeat?, h]
    · simp only [firstRepeat?, h, if_false, ih, List.nodup_cons, List.mem_cons, not_or]
      constructor
      · rintro ⟨hn, hr⟩
        refine ⟨⟨fun hm => (hr name hm).1 rfl, hn⟩, ?_⟩
        rintro other (rfl | ho)
        · exact h
        · exact (hr other ho).2
      · rintro ⟨⟨hm, hn⟩, hr⟩
        exact ⟨hn, fun other ho => ⟨fun he => hm (he ▸ ho), hr other (Or.inr ho)⟩⟩

/-- What is wrong with an index that follows indexes with the given identifiers. -/
def fault? (earlier : List String) (i : Index) : Option SchemaFault :=
  if i.id ∈ earlier then
    some (if i.isPrimary then .duplicatePrimary i.name else .duplicateIndex i.id)
  else if i.partition.facets = [] then some (.noPartitionFacets i.name)
  else (firstRepeat? [] i.facetNames).map fun facet => .repeatedFacet facet i.name

def firstFault? (earlier : List String) : List Index → Option SchemaFault
  | [] => none
  | i :: rest => (i.fault? earlier).or (firstFault? (i.id :: earlier) rest)

end Index

/-- The indexes of an entity, the primary one among them, and the leading part
of all its partition keys and of all its sort keys. -/
structure Registry where
  partitionScope : String
  sortScope : String
  indexes : List Index
  primary : Index

namespace Registry

def build (partitionScope sortScope : String) (indexes : List Index) : Except SchemaFault Registry :=
  match Index.firstFault? [] indexes with
  | some fault => .error fault
  | none =>
    match indexes.find? Index.isPrimary with
    | some primary => .ok ⟨partitionScope, sortScope, indexes, primary⟩
    | none => .error .missingPrimary

def get (r : Registry) (id : String) : Except Fault Index :=
  match r.indexes.find? fun i => i.id == id with
  | some i => .ok i
  | none => .error (.unknownIndex id)

def byName (r : Registry) (name : String) : Except Fault Index :=
  match r.indexes.find? fun i => i.name == name with
  | some i => .ok i
  | none => .error (.unknownIndex name)

def slots (r : Registry) : List Slot := r.indexes.flatMap Index.slots

def slotsOf (r : Registry) (facet : String) : List Slot := r.slots.filter fun s => s.facet == facet

/-- Every attribute that is a facet of some index, once. -/
def facetNames (r : Registry) : List String :=
  r.slots.foldl (fun names s => if s.facet ∈ names then names else names ++ [s.facet]) []

end Registry

end SingleTable
