import SingleTable.Json.Printer
import SingleTable.Number.Literal
import SingleTable.Store.Base64

/-! Values as the store holds them.

Each value carries its type; numbers are decimal texts. `ofJson` writes any JSON
value, `toJson?` reads one back, which fails for binary values, for a null that
is not set and for number texts that are no numerals. On the wire a value is an
object with its type as the name of a member. -/
namespace SingleTable

/-- The types that the store knows. -/
inductive StoredType where
  | string
  | number
  | bool
  | null
  | list
  | map
  | binary
  | stringSet
  | numberSet
  | binarySet
deriving DecidableEq

namespace StoredType

def name : StoredType → String
  | .string => "S"
  | .number => "N"
  | .bool => "BOOL"
  | .null => "NULL"
  | .list => "L"
  | .map => "M"
  | .binary => "B"
  | .stringSet => "SS"
  | .numberSet => "NS"
  | .binarySet => "BS"

def ofName? : String → Option StoredType
  | "S" => some .string
  | "N" => some .number
  | "BOOL" => some .bool
  | "NULL" => some .null
  | "L" => some .list
  | "M" => some .map
  | "B" => some .binary
  | "SS" => some .stringSet
  | "NS" => some .numberSet
  | "BS" => some .binarySet
  | _ => none

theorem ofName?_name (type : StoredType) : ofName? type.name = some type := by
  cases type <;> rfl

end StoredType

/-- A null says whether it is set. A value of a type that the store's protocol
does not name is kept as it came. -/
inductive StoredValue where
  | string (text : String)
  | number (text : String)
  | bool (value : Bool)
  | null (isSet : Bool)
  | list (items : List StoredValue)
  | map (members : List (String × StoredValue))
  | binary (base64 : String)
  | stringSet (texts : List String)
  | numberSet (texts : List String)
  | binarySet (base64s : List String)
  | other (type : String) (value : Json)

namespace StoredValue

instance : Inhabited StoredValue := ⟨.null true⟩

/-! ### Numbers -/

/-- Every number is written around the point, and a whole double like an integer. -/
def numberStyle : NumberStyle where
  tie := .up
  positional _ := true
  wholeFraction := false

/-- Names of values that are not finite, in any case. -/
def namesNonFinite (text : List Char) : Bool :=
  let unsigned := (Literal.scanSign text).2.map Char.toLower
  unsigned == "nan".toList || unsigned == "inf".toList || unsigned == "infinity".toList

/-- A number text needs one digit, before or after the point. An integer that a
64-bit word holds is read as one, any other text as the nearest double; what is
not finite is read as null. -/
def readNumber? (text : String) : Option Json :=
  if namesNonFinite text.toList then some .null
  else
    match (Literal.scan text.toList).filter fun l => l.whole != [] || (l.fraction.getD []) != [] with
    | none => none
    | some l =>
      match l.integer?.bind Number.ofInt? with
      | some n => some (.number n)
      | none =>
        match l.double? with
        | some d => some (.number (.double d))
        | none => some .null

/-! ### To and from JSON -/

mutual
def ofJson : Json → StoredValue
  | .null => .null true
  | .bool value => .bool value
  | .number value => .number (value.write numberStyle)
  | .string value => .string value
  | .array items => .list (ofItems items)
  | .object members => .map (ofMembers members)

def ofItems : List Json → List StoredValue
  | [] => []
  | item :: rest => ofJson item :: ofItems rest

def ofMembers : List (String × Json) → List (String × StoredValue)
  | [] => []
  | (key, value) :: rest => (key, ofJson value) :: ofMembers rest
end

mutual
/-- Of the binary values only a set without members has a JSON value. -/
def toJson? : StoredValue → Option Json
  | .string text => some (.string text)
  | .number text => readNumber? text
  | .bool value => some (.bool value)
  | .null isSet => if isSet then some .null else none
  | .list items => (toItems? items).map .array
  | .map members => (toMembers? members).map .object
  | .stringSet texts => some (.array (texts.map .string))
  | .numberSet texts => (texts.mapM readNumber?).map .array
  | .binarySet base64s => if base64s.isEmpty then some (.array []) else none
  | .binary _ | .other _ _ => none

def toItems? : List StoredValue → Option (List Json)
  | [] => some []
  | item :: rest =>
    match toJson? item, toItems? rest with
    | some item, some rest => some (item :: rest)
    | _, _ => none

def toMembers? : List (String × StoredValue) → Option (List (String × Json))
  | [] => some []
  | (key, value) :: rest =>
    match toJson? value, toMembers? rest with
    | some value, some rest => some ((key, value) :: rest)
    | _, _ => none
end

/-! ### Onto the wire -/

def tagged (type : StoredType) (value : Json) : Json := .object [(type.name, value)]

mutual
def toWire : StoredValue → Json
  | .string text => tagged .string (.string text)
  | .number text => tagged .number (.string text)
  | .bool value => tagged .bool (.bool value)
  | .null isSet => tagged .null (.bool isSet)
  | .list items => tagged .list (.array (toWireItems items))
  | .map members => tagged .map (.object (toWireMembers members))
  | .binary base64 => tagged .binary (.string base64)
  | .stringSet texts => tagged .stringSet (.array (texts.map .string))
  | .numberSet texts => tagged .numberSet (.array (texts.map .string))
  | .binarySet base64s => tagged .binarySet (.array (base64s.map .string))
  | .other type value => .object [(type, value)]

def toWireItems : List StoredValue → List Json
  | [] => []
  | item :: rest => toWire item :: toWireItems rest

def toWireMembers : List (String × StoredValue) → List (String × Json)
  | [] => []
  | (key, value) :: rest => (key, toWire value) :: toWireMembers rest
end

/-! ### From the wire -/

def texts? : List Json → Option (List String)
  | [] => some []
  | .string text :: rest => (texts? rest).map (text :: ·)
  | _ => none

def isBase64 (text : String) : Bool := Base64.isCanonical text.toList

/-- Members of a value on the wire that do not speak of its type. -/
def isIgnored (name : String) (value : Json) : Bool := value.isNull || name == "__type"

mutual
/-- An object is a value if exactly one of its members speaks of a type. -/
def ofWire? : Json → Option StoredValue
  | .object members =>
    match typed? members with
    | some [value] => some value
    | _ => none
  | _ => none

/-- The values that the members of an object speak of, all of them readable. -/
def typed? : List (String × Json) → Option (List StoredValue)
  | [] => some []
  | (name, value) :: rest =>
    if isIgnored name value then typed? rest
    else
      match ofTyped? name (StoredType.ofName? name) value, typed? rest with
      | some first, some others => some (first :: others)
      | _, _ => none

/-- The value that a member speaks of, with what the store makes of its name. -/
def ofTyped? (name : String) : Option StoredType → Json → Option StoredValue
  | some .string, .string text => some (.string text)
  | some .number, .string text => some (.number text)
  | some .bool, .bool value => some (.bool value)
  | some .null, .bool isSet => some (.null isSet)
  | some .list, .array items => (ofWireItems? items).map .list
  | some .map, .object members => (ofWireMembers? members).map .map
  | some .binary, .string text => if isBase64 text then some (.binary text) else none
  | some .stringSet, .array items => (texts? items).map .stringSet
  | some .numberSet, .array items => (texts? items).map .numberSet
  | some .binarySet, .array items => ((texts? items).filter (·.all isBase64)).map .binarySet
  | some _, _ => none
  | none, value => some (.other name value)

def ofWireItems? : List Json → Option (List StoredValue)
  | [] => some []
  | item :: rest =>
    match ofWire? item, ofWireItems? rest with
    | some item, some rest => some (item :: rest)
    | _, _ => none

def ofWireMembers? : List (String × Json) → Option (List (String × StoredValue))
  | [] => some []
  | (key, value) :: rest =>
    match ofWire? value, ofWireMembers? rest with
    | some value, some rest => some ((key, value) :: rest)
    | _, _ => none
end

/-- An object of values can be read if each of its members can. -/
theorem isSome_ofWireMembers? (members : List (String × Json)) :
    (ofWireMembers? members).isSome = members.all fun member => (ofWire? member.2).isSome := by
  induction members with
  | nil => simp [ofWireMembers?]
  | cons member rest ih =>
    obtain ⟨key, value⟩ := member
    rw [ofWireMembers?, List.all_cons, ← ih]
    split
    · next hv hr => simp [hv, hr]
    · next hn =>
      cases hv : ofWire? value with
      | none => simp
      | some first =>
        cases hr : ofWireMembers? rest with
        | none => simp
        | some others => exact absurd hr (hn first others hv)

end StoredValue

/-- An item of the store: a value for each of its fields. -/
abbrev StoredItem := Dict StoredValue

end SingleTable
