import FieldAuthorization.Settings.Setting

/-!
Settings in environment variables. The name of a variable is a path of keys in lower case, with two
underscores between keys; its text is taken for a truth value or a number if it reads as one.
-/

set_option autoImplicit false
set_option relaxedAutoImplicit false

namespace FieldAuthorization

abbrev Environment := List (String × String)

namespace Environment

/-- What the names of variables that hold settings begin with, in lower case. -/
def settingsMark : List Char := "gql_authz__".toList

/-- A character in lower case. The Kelvin sign is the one character beyond ASCII whose lower case
is a letter of keys. -/
def lowerChar (c : Char) : Char :=
  if c = '\u212a' then 'k' else c.toLower

/-- Writes a point for each two underscores. -/
def pointed : List Char → List Char
  | '_' :: '_' :: s => '.' :: pointed s
  | c :: s => c :: pointed s
  | [] => []

def settingKey? (name : String) : Option String :=
  let name := name.toList.map lowerChar
  if settingsMark.isPrefixOf name then
    some (String.ofList (pointed (name.drop settingsMark.length)))
  else none

/-- The numbers that are not decimals, in lower case. -/
def specialFloat? (s : List Char) : Option Float :=
  let (negative, word) := match s with
    | '-' :: s => (true, s)
    | '+' :: s => (false, s)
    | s => (false, s)
  let magnitude : Option Float :=
    match (String.ofList word).toLower with
    | "inf" | "infinity" => some (1.0 / 0.0)
    | "nan" => some (0.0 / 0.0)
    | _ => none
  magnitude.map (fun x => if negative then -x else x)

def setting (s : String) : Setting :=
  if s.toLower = "true" then .boolean true
  else if s.toLower = "false" then .boolean false
  else
    match (readInt? s.toList).filter fitsInt64 with
    | some n => .integer n
    | none =>
      let float := ((Decimal.read? s.toList).map Decimal.toFloat).or (specialFloat? s.toList)
      match float with
      | some x => .float x
      | none => .text s

/-- Puts the settings of an environment over a table of them. -/
def onto (env : Environment) (root : Setting) : Setting :=
  env.foldl (fun root (name, value) =>
    match settingKey? name with
    | some key => root.put key (setting value)
    | none => root) root

end Environment

end FieldAuthorization
