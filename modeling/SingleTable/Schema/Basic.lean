import SingleTable.Condition.Clauses
import SingleTable.Index.Key

/-! Schemas: the declaration of an entity.

Nothing here is checked yet; `Entity.ofSchema` accepts the schemas that make
sense. -/
namespace SingleTable

/-- A missing field or label is the attribute's name. -/
structure AttributeDeclaration where
  default : Option Json
  field : Option String
  label : Option String
  readOnly : Bool
  required : Bool
  kind : Kind

/-- An index without an identifier is the primary one. -/
structure IndexDeclaration where
  id : Option String
  partition : KeyField
  sort : Option KeyField

structure Schema where
  service : String
  entity : String
  table : String
  version : String
  attributes : Dict AttributeDeclaration
  indexes : Dict IndexDeclaration
  filters : Dict Filter

/-- Register a filter, in place of one of the same name. -/
def Schema.withFilter (s : Schema) (name : String) (filter : Filter) : Schema :=
  { s with filters := s.filters.insert name filter }

end SingleTable
