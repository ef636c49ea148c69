import SingleTable.Json.Basic

/-! Compact JSON text.

No spaces, members in their order, and in strings only quotation marks,
backslashes and control characters below U+0020 escaped. -/
namespace SingleTable.Json

/-- Doubles end in a fraction and are written around the point from `1e-5` up to
`1e16`; outside that, with an exponent. -/
def numberStyle : NumberStyle where
  tie := .toEven
  positional point := -5 < point && point ≤ 16
  wholeFraction := true

def hexDigit (n : Nat) : Char :=
  if n < 10 then Char.ofNat ('0'.toNat + n) else Char.ofNat ('a'.toNat + (n - 10))

def escapeChar (c : Char) : List Char :=
  match c with
  | '"' => ['\\', '"']
  | '\\' => ['\\', '\\']
  | '\x08' => ['\\', 'b']
  | '\x0c' => ['\\', 'f']
  | '\n' => ['\\', 'n']
  | '\r' => ['\\', 'r']
  | '\t' => ['\\', 't']
  | c =>
    if c.toNat < 0x20 then ['\\', 'u', '0', '0', hexDigit (c.toNat / 16), hexDigit (c.toNat % 16)]
    else [c]

def quote (s : String) : String :=
  "\"" ++ String.ofList (s.toList.flatMap escapeChar) ++ "\""

mutual
def render : Json → String
  | .null => "null"
  | .bool value => if value then "true" else "false"
  | .number value => value.write numberStyle
  | .string value => quote value
  | .array items => "[" ++ renderItems items ++ "]"
  | .object members => "\x7b" ++ renderMembers members ++ "\x7d"

def renderItems : List Json → String
  | [] => ""
  | [item] => render item
  | item :: rest => render item ++ "," ++ renderItems rest

def renderMembers : List (String × Json) → String
  | [] => ""
  | [(key, value)] => quote key ++ ":" ++ render value
  | (key, value) :: rest => quote key ++ ":" ++ render value ++ "," ++ renderMembers rest
end

end SingleTable.Json
