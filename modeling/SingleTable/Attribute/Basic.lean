import SingleTable.Facets

/-! Attributes of an entity and the values they resolve to. -/
namespace SingleTable

/-- `name` is what callers use, `field` is the column of the table. -/
structure Attribute where
  name : String
  field : String
  label : String
  kind : Kind
  default : Option Json
  readOnly : Bool
  required : Bool

namespace Attribute

/-- A value that was supplied, or else the default, must be of the attribute's
kind; a required attribute must have one of the two. A default may be null, which
is of no kind. -/
def resolve (a : Attribute) (supplied : Option Json) : Except Fault (Option Json) :=
  match (supplied.filter fun value => !value.isNull).or a.default with
  | some value =>
    match a.kind.refusal? value with
    | some reason => .error (.attribute a.name (.refused reason))
    | none => .ok (some value)
  | none => if a.required then .error (.attribute a.name .required) else .ok none

end Attribute

end SingleTable
