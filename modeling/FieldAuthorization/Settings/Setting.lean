import FieldAuthorization.Decimal

/-!
Setting values as a file or the environment gives them, and how one value is put into another: a
value goes to the end of a path of keys and indices, and tables merge.
-/

set_option autoImplicit false
set_option relaxedAutoImplicit false

namespace FieldAuthorization

/-- A setting value. The members of a table have distinct keys. -/
inductive Setting
  /-- A place of a list that nothing was put into. -/
  | absent
  | boolean (b : Bool)
  | integer (n : Int)
  | float (x : Float)
  | text (s : String)
  | list (items : List Setting)
  | table (members : List (String × Setting))
deriving Inhabited

inductive SettingStep
  | key (name : String)
  /-- A negative index counts from the end. -/
  | index (i : Int)
deriving DecidableEq

namespace Setting

/-- The members of a table; other values have none. -/
def members : Setting → List (String × Setting)
  | .table members => members
  | _ => []

def items : Setting → List Setting
  | .list items => items
  | _ => []

/-- Changes the member of a key, which is absent before if the key is new. -/
def changeMember (key : String) (change : Setting → Setting) :
    List (String × Setting) → List (String × Setting)
  | [] => [(key, change .absent)]
  | (k, v) :: rest =>
    if k = key then (k, change v) :: rest else (k, v) :: changeMember key change rest

/-- Changes the item at an index. Items that are missing up to there, or before the first if the
index counts from the end, are added as absent. -/
def changeItem (i : Int) (change : Setting → Setting) (items : List Setting) : List Setting :=
  if 0 ≤ i then
    let padded := items ++ List.replicate (i.toNat + 1 - items.length) .absent
    padded.modify i.toNat change
  else
    let padded := List.replicate (i.natAbs - items.length) .absent ++ items
    padded.modify (padded.length - i.natAbs) change

/-- Changes the value at the end of a path. A value on the way that a step cannot enter gives way to
an empty container. -/
def changeAt : List SettingStep → (Setting → Setting) → Setting → Setting
  | [], change, v => change v
  | .key name :: rest, change, v => .table (changeMember name (changeAt rest change) v.members)
  | .index i :: rest, change, v => .list (changeItem i (changeAt rest change) v.items)

mutual

/-- Puts a value over another: tables merge member by member, all else replaces what was there. -/
def onto : Setting → Setting → Setting
  | .table members, below => .table (membersOnto members below.members)
  | v, _ => v

def membersOnto : List (String × Setting) → List (String × Setting) → List (String × Setting)
  | [], below => below
  | (key, v) :: rest, below => membersOnto rest (changeMember key (fun w => onto v w) below)

end

end Setting

namespace SettingStep

def isKeyChar (c : Char) : Bool :=
  c.isAlphanum || c = '_' || c = '-'

/-- Reads an index in brackets: digits with an optional minus, with spaces and tabs around. -/
def readIndex? (s : List Char) : Option Int :=
  let isSpace (c : Char) : Bool := c = ' ' || c = '\t'
  let digits := ((s.dropWhile isSpace).reverse.dropWhile isSpace).reverse
  match digits with
  | '+' :: _ => none
  | _ => (readInt? digits).bind (fun n => if fitsInt64 n then some n else none)

/-- Reads the steps of a path after its first key; `fuel` is at least the number of characters. -/
def readSteps? : (fuel : Nat) → List Char → Option (List SettingStep)
  | _, [] => some []
  | fuel + 1, '.' :: s =>
    match s.takeWhile isKeyChar with
    | [] => none
    | name => (readSteps? fuel (s.dropWhile isKeyChar)).map (.key (String.ofList name) :: ·)
  | fuel + 1, '[' :: s =>
    match s.dropWhile (· != ']') with
    | ']' :: rest => do
      let i ← readIndex? (s.takeWhile (· != ']'))
      return .index i :: (← readSteps? fuel rest)
    | _ => none
  | _, _ => none

/-- Reads a path: keys after points and indices in brackets. -/
def readPath? (s : List Char) : Option (List SettingStep) :=
  match s.takeWhile isKeyChar with
  | [] => none
  | name => (readSteps? s.length (s.dropWhile isKeyChar)).map (.key (String.ofList name) :: ·)

/-- The path that a top-level key stands for. A key that is no path is a step by itself. -/
def ofKey (key : String) : List SettingStep :=
  (readPath? key.toList).getD [.key key]

end SettingStep

/-- Puts a value into a table of settings, where the key says. -/
def Setting.put (root : Setting) (key : String) (value : Setting) : Setting :=
  Setting.changeAt (SettingStep.ofKey key) value.onto root

end FieldAuthorization
