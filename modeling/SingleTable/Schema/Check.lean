import SingleTable.Schema.Basic

/-! The checks that a schema must pass, in the order in which they are reported. -/
namespace SingleTable

/-! ### What a declaration stands for -/

def Index.ofDeclaration (name : String) (declaration : IndexDeclaration) : Index :=
  ⟨declaration.id.getD "", name, declaration.partition, declaration.sort⟩

/-- The facets of the primary index are read-only, declared so or not. -/
def Attribute.ofDeclaration (primaryFacets : List String) (name : String)
    (declaration : AttributeDeclaration) : Attribute :=
  { name
    field := declaration.field.getD name
    label := declaration.label.getD name
    kind := declaration.kind
    default := declaration.default
    readOnly := declaration.readOnly || name ∈ primaryFacets
    required := declaration.required }

namespace Schema

/-! ### Filters -/

/-- Names that a filter may not have. -/
def reservedNames : List String := ["go", "params", "filter"]

def hasReservedFilter (s : Schema) : Bool := s.filters.keys.any (· ∈ reservedNames)

/-! ### Indexes -/

def indexList (s : Schema) : List Index :=
  s.indexes.entries.map fun pair => Index.ofDeclaration pair.1 pair.2

/-- The first facet of an index that is no attribute. -/
def undefinedFacet? (s : Schema) (i : Index) : Option SchemaFault :=
  (i.facetNames.find? fun facet => !s.attributes.contains facet).map fun facet =>
    .undefinedFacet facet i.name

def registry (s : Schema) : Except SchemaFault Registry :=
  Registry.build ("$" ++ s.service ++ "_" ++ s.version) ("$" ++ s.entity) s.indexList

/-! ### Fields -/

def attributeFields (attributes : Dict Attribute) : List (String × Owner) :=
  attributes.values.map fun a => (a.field, .attribute a.name)

def keyFields (indexes : List Index) : List (String × Owner) :=
  indexes.flatMap fun i => i.keyFields.map fun key => (key.field, .index i.name)

/-- The first field that has an owner already. -/
def sharedField? (owned : List (String × Owner)) : List (String × Owner) → Option SchemaFault
  | [] => none
  | (field, owner) :: rest =>
    match Assoc.lookup field owned with
    | some first => some (.sharedField field first owner)
    | none => sharedField? ((field, owner) :: owned) rest

/-- No field is shared exactly when all are different. -/
theorem sharedField?_eq_none_iff {owned fields : List (String × Owner)} :
    sharedField? owned fields = none ↔
      (Assoc.keys fields).Nodup ∧ ∀ field ∈ Assoc.keys fields, field ∉ Assoc.keys owned := by
  induction fields generalizing owned with
  | nil => simp [sharedField?, Assoc.keys]
  | cons entry rest ih =>
    obtain ⟨field, owner⟩ := entry
    rw [sharedField?]
    split
    · next first hfirst =>
      have howned : field ∈ Assoc.keys owned := by
        refine Classical.not_not.mp fun hn => ?_
        rw [Assoc.lookup_eq_none_iff.mpr hn] at hfirst
        exact absurd hfirst (by simp)
      simp only [reduceCtorEq, false_iff, not_and]
      exact fun _ hall => hall field (List.mem_cons_self ..) howned
    · next hnone =>
      rw [ih]
      have hnew := Assoc.lookup_eq_none_iff.mp hnone
      simp only [Assoc.keys, List.map_cons, List.nodup_cons, List.mem_cons, not_or] at hnew ⊢
      constructor
      · rintro ⟨hn, hr⟩
        refine ⟨⟨fun hm => (hr field hm).1 rfl, hn⟩, ?_⟩
        rintro other (rfl | ho)
        · exact hnew
        · exact (hr other ho).2
      · rintro ⟨⟨hm, hn⟩, hr⟩
        exact ⟨hn, fun other ho => ⟨fun he => hm (he ▸ ho), hr other (Or.inr ho)⟩⟩

end Schema

end SingleTable
