import FieldAuthorization.Decimal

/-!
JSON values, and their text with one member or item per line.
-/

set_option autoImplicit false
set_option relaxedAutoImplicit false

namespace FieldAuthorization

/-- Numbers of 64 bits are integers; all others, and those written with a fraction, are decimals. -/
inductive JsonNumber
  | integer (n : Int)
  | decimal (d : Decimal)
deriving DecidableEq

/-- A JSON value. The members of an object have distinct keys. -/
inductive Json
  | null
  | boolean (b : Bool)
  | number (n : JsonNumber)
  | text (s : String)
  | array (items : List Json)
  | object (members : List (String × Json))
deriving Inhabited

namespace Json

abbrev Members := List (String × Json)

def Members.get? (members : Members) (key : String) : Option Json :=
  members.lookup key

private def fourDigits (n : Nat) : String :=
  let digits := Nat.toDigits 16 n
  String.ofList (List.replicate (4 - digits.length) '0' ++ digits)

/-- A character inside quotes: quotes, backslashes and control characters are escaped. -/
private def escapeChar (c : Char) : String :=
  match c with
  | '"' => "\\\""
  | '\\' => "\\\\"
  | '\n' => "\\n"
  | '\r' => "\\r"
  | '\t' => "\\t"
  | '\x08' => "\\b"
  | '\x0c' => "\\f"
  | c => if c.toNat < 0x20 then "\\u" ++ fourDigits c.toNat else String.singleton c

def quote (s : String) : String :=
  "\"" ++ String.join (s.toList.map escapeChar) ++ "\""

private def lineIndent (level : Nat) : String :=
  String.ofList (List.replicate (2 * level) ' ')

def JsonNumber.print : JsonNumber → String
  | .integer n => toString n
  | .decimal d => Decimal.ofFloatText d.toFloat

mutual

/-- The text of a value, whose first line stands at the given level. -/
def print (level : Nat) : Json → String
  | .null => "null"
  | .boolean b => if b then "true" else "false"
  | .number n => JsonNumber.print n
  | .text s => quote s
  | .array [] => "[]"
  | .array items =>
    "[\n" ++ ",\n".intercalate (printItems (level + 1) items) ++ "\n" ++ lineIndent level ++ "]"
  | .object [] => "\x7b\x7d"
  | .object members =>
    "\x7b\n" ++ ",\n".intercalate (printMembers (level + 1) members) ++ "\n" ++ lineIndent level
      ++ "\x7d"

def printItems (level : Nat) : List Json → List String
  | [] => []
  | item :: rest => (lineIndent level ++ print level item) :: printItems level rest

def printMembers (level : Nat) : List (String × Json) → List String
  | [] => []
  | (key, value) :: rest =>
    (lineIndent level ++ quote key ++ ": " ++ print level value) :: printMembers level rest

end

/-- Puts a member before the first whose key is not smaller. -/
def Members.insertSorted (key : String) (value : Json) : Members → Members
  | [] => [(key, value)]
  | (k, v) :: rest =>
    if key ≤ k then (key, value) :: (k, v) :: rest
    else (k, v) :: insertSorted key value rest

mutual

/-- The value with the members of every object in ascending order of keys. -/
def sortKeys : Json → Json
  | .array items => .array (sortItems items)
  | .object members => .object (sortMembers members)
  | value => value

def sortItems : List Json → List Json
  | [] => []
  | item :: rest => item.sortKeys :: sortItems rest

def sortMembers : List (String × Json) → List (String × Json)
  | [] => []
  | (key, value) :: rest => Members.insertSorted key value.sortKeys (sortMembers rest)

end

end Json

end FieldAuthorization
