import SingleTable.Json.Basic
import SingleTable.Number.Literal

/-! JSON texts.

A text is read in three steps: characters into tokens, tokens into a `Document`,
and a document into the value it denotes. The middle step is kept because a text
can be grammatical and still denote nothing: a string may hold half of a
surrogate pair, a number may lie past the largest double, and an object may
repeat a name. A reader that skips such a part does not mind it. -/
namespace SingleTable

/-! ### Tokens -/

/-- A string token holds the characters between its quotation marks, still
escaped; a word is any other run of characters between marks and blanks. -/
inductive Token where
  | openArray
  | closeArray
  | openObject
  | closeObject
  | comma
  | colon
  | text (body : List Char)
  | word (body : List Char)
deriving DecidableEq

namespace Token

def ofMark? : Char → Option Token
  | '[' => some .openArray
  | ']' => some .closeArray
  | '\x7b' => some .openObject
  | '\x7d' => some .closeObject
  | ',' => some .comma
  | ':' => some .colon
  | _ => none

def isBlank (c : Char) : Bool := c == ' ' || c == '\t' || c == '\n' || c == '\r'

/-- What a scan is in the middle of; the characters read so far are reversed. -/
inductive Mode where
  | between
  | inWord (body : List Char)
  | inText (body : List Char) (escaped : Bool)

/-- A scan with its finished tokens, the last one first. -/
structure Scan where
  finished : List Token
  mode : Mode

def Scan.step (s : Scan) (c : Char) : Scan :=
  match s.mode with
  | .inText body true => { s with mode := .inText (c :: body) false }
  | .inText body false =>
    if c = '"' then ⟨.text body.reverse :: s.finished, .between⟩
    else { s with mode := .inText (c :: body) (c = '\\') }
  | .between =>
    if isBlank c then s
    else if c = '"' then { s with mode := .inText [] false }
    else match ofMark? c with
      | some mark => ⟨mark :: s.finished, .between⟩
      | none => { s with mode := .inWord [c] }
  | .inWord body =>
    let finished := .word body.reverse :: s.finished
    if isBlank c then ⟨finished, .between⟩
    else if c = '"' then ⟨finished, .inText [] false⟩
    else match ofMark? c with
      | some mark => ⟨mark :: finished, .between⟩
      | none => { s with mode := .inWord (c :: body) }

/-- The tokens of a text, unless a string in it has no end. -/
def scan (text : List Char) : Option (List Token) :=
  let last := text.foldl Scan.step ⟨[], .between⟩
  match last.mode with
  | .between => some last.finished.reverse
  | .inWord body => some (.word body.reverse :: last.finished).reverse
  | .inText _ _ => none

end Token

/-! ### Strings -/

namespace Escaped

def hexValue? (c : Char) : Option Nat :=
  if '0' ≤ c ∧ c ≤ '9' then some (c.toNat - '0'.toNat)
  else if 'a' ≤ c ∧ c ≤ 'f' then some (c.toNat - 'a'.toNat + 10)
  else if 'A' ≤ c ∧ c ≤ 'F' then some (c.toNat - 'A'.toNat + 10)
  else none

def single? : Char → Option Char
  | '"' => some '"'
  | '\\' => some '\\'
  | '/' => some '/'
  | 'b' => some '\x08'
  | 'f' => some '\x0c'
  | 'n' => some '\n'
  | 'r' => some '\r'
  | 't' => some '\t'
  | _ => none

/-- The code points of a string's body, in which an escape may stand for a
surrogate; nothing where an escape is unknown or a control character stands
unescaped. -/
def codePoints? : List Char → Option (List Nat)
  | [] => some []
  | '\\' :: 'u' :: a :: b :: c :: d :: rest =>
    match hexValue? a, hexValue? b, hexValue? c, hexValue? d with
    | some a, some b, some c, some d =>
      (codePoints? rest).map ((((a * 16 + b) * 16 + c) * 16 + d) :: ·)
    | _, _, _, _ => none
  | '\\' :: e :: rest =>
    match single? e with
    | some c => (codePoints? rest).map (c.toNat :: ·)
    | none => none
  | ['\\'] => none
  | c :: rest => if c.toNat < 0x20 then none else (codePoints? rest).map (c.toNat :: ·)

def isHigh (u : Nat) : Bool := 0xD800 ≤ u && u < 0xDC00

def isLow (u : Nat) : Bool := 0xDC00 ≤ u && u < 0xE000

/-- The characters of code points in which surrogates stand in pairs. -/
def characters? : List Nat → Option (List Char)
  | [] => some []
  | u :: rest =>
    if isHigh u then
      match rest with
      | v :: rest' =>
        if isLow v then
          (characters? rest').map (Char.ofNat (0x10000 + (u - 0xD800) * 0x400 + (v - 0xDC00)) :: ·)
        else none
      | [] => none
    else if isLow u then none
    else (characters? rest).map (Char.ofNat u :: ·)

end Escaped

/-! ### Documents -/

inductive Document where
  | null
  | bool (value : Bool)
  | number (value : Option Number)
  | string (value : Option String)
  | array (items : List Document)
  | object (members : List (Option String × Document))

namespace Document

instance : Inhabited Document := ⟨.null⟩

/-- A string's value, if its body is grammatical; the value is missing where
surrogates do not pair. -/
def textOf? (body : List Char) : Option (Option String) :=
  (Escaped.codePoints? body).map fun points => (Escaped.characters? points).map String.ofList

/-- JSON asks for a digit before the point and a digit after it, allows no
needless leading zero and no plus sign. -/
def isNumeral (l : Literal) : Bool :=
  l.sign != some .plus && l.whole != [] && (l.whole.head? != some '0' || l.whole.length == 1) &&
    l.fraction != some []

/-- An integer literal that fits a 64-bit word is an integer; any other literal,
and `-0`, is a double. -/
def numberOf? (l : Literal) : Option Number :=
  match l.integer?.filter (fun n => !(l.negative && n == 0)) >>= Number.ofInt? with
  | some n => some n
  | none => l.double?.map .double

def wordOf? (body : List Char) : Option Document :=
  if body = "null".toList then some .null
  else if body = "true".toList then some (.bool true)
  else if body = "false".toList then some (.bool false)
  else ((Literal.scan body).filter isNumeral).map fun l => .number (numberOf? l)

/- Every second step takes a token, so twice the number of tokens is enough fuel. -/
mutual
def value? : Nat → List Token → Option (Document × List Token)
  | 0, _ => none
  | fuel + 1, tokens =>
    match tokens with
    | .openArray :: .closeArray :: rest => some (.array [], rest)
    | .openArray :: rest => (items? fuel rest).map fun (items, rest) => (.array items, rest)
    | .openObject :: .closeObject :: rest => some (.object [], rest)
    | .openObject :: rest => (members? fuel rest).map fun (members, rest) => (.object members, rest)
    | .text body :: rest => (textOf? body).map fun value => (.string value, rest)
    | .word body :: rest => (wordOf? body).map fun value => (value, rest)
    | _ => none

/-- One value or more, with the closing bracket. -/
def items? : Nat → List Token → Option (List Document × List Token)
  | 0, _ => none
  | fuel + 1, tokens =>
    match value? fuel tokens with
    | some (item, .closeArray :: rest) => some ([item], rest)
    | some (item, .comma :: rest) => (items? fuel rest).map fun (items, rest) => (item :: items, rest)
    | _ => none

/-- One member or more, with the closing brace. -/
def members? : Nat → List Token → Option (List (Option String × Document) × List Token)
  | 0, _ => none
  | fuel + 1, tokens =>
    match tokens with
    | .text body :: .colon :: afterColon =>
      match textOf? body, value? fuel afterColon with
      | some key, some (item, .closeObject :: rest) => some ([(key, item)], rest)
      | some key, some (item, .comma :: rest) =>
        (members? fuel rest).map fun (members, rest) => ((key, item) :: members, rest)
      | _, _ => none
    | _ => none
end

/-- The document that a whole text is. -/
def read? (text : String) : Option Document :=
  match Token.scan text.toList with
  | some tokens =>
    match value? (2 * tokens.length + 2) tokens with
    | some (document, []) => some document
    | _ => none
  | none => none

/-! ### Values -/

mutual
/-- The value a document denotes: of a repeated name the last value, in the place
of the first. -/
def toJson? : Document → Option Json
  | .null => some .null
  | .bool value => some (.bool value)
  | .number value => value.map .number
  | .string value => value.map .string
  | .array items => (toItems? items).map .array
  | .object members => (toMembers? members).map fun pairs => .ofDict (Dict.ofList pairs)

def toItems? : List Document → Option (List Json)
  | [] => some []
  | item :: rest =>
    match toJson? item, toItems? rest with
    | some item, some rest => some (item :: rest)
    | _, _ => none

def toMembers? : List (Option String × Document) → Option (List (String × Json))
  | [] => some []
  | (key, item) :: rest =>
    match key, toJson? item, toMembers? rest with
    | some key, some item, some rest => some ((key, item) :: rest)
    | _, _, _ => none
end

mutual
/-- How many arrays and objects stand inside one another. -/
def depth : Document → Nat
  | .array items => depthItems items + 1
  | .object members => depthMembers members + 1
  | _ => 0

def depthItems : List Document → Nat
  | [] => 0
  | item :: rest => max (depth item) (depthItems rest)

def depthMembers : List (Option String × Document) → Nat
  | [] => 0
  | (_, item) :: rest => max (depth item) (depthMembers rest)
end

mutual
def ofJson : Json → Document
  | .null => .null
  | .bool value => .bool value
  | .number value => .number (some value)
  | .string value => .string (some value)
  | .array items => .array (ofItems items)
  | .object members => .object (ofMembers members)

def ofItems : List Json → List Document
  | [] => []
  | item :: rest => ofJson item :: ofItems rest

def ofMembers : List (String × Json) → List (Option String × Document)
  | [] => []
  | (key, value) :: rest => (some key, ofJson value) :: ofMembers rest
end

end Document

/-- The value that a text denotes. -/
def Json.read? (text : String) : Option Json := (Document.read? text).bind Document.toJson?

end SingleTable
