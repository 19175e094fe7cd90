import FieldAuthorization.Document.Phrase

/-!
Phrases that queries and schemas share: types, values, arguments and directives.
-/

set_option autoImplicit false
set_option relaxedAutoImplicit false

namespace FieldAuthorization.Phrase

/-- A type whose lists nest less than `depth` deep. -/
def typeWithin : (depth : Nat) → Phrase TypeRef
  | 0 => failure
  | depth + 1 => do
    let inner ←
      if ← skipMark '[' then do
        let item ← typeWithin depth
        mark ']'
        pure (.list item)
      else do
        pure (.named (← name))
    if ← skipMark '!' then return .nonNull inner else return inner

def type : Phrase TypeRef :=
  typeWithin (Token.maxDepth + 1)

/-- The value of a name that stands where a value may stand. -/
def namedValue : String → Value
  | "true" => .boolean true
  | "false" => .boolean false
  | "null" => .null
  | s => .enum s

/-- A value whose brackets nest less than `depth` deep; a constant holds no variables. -/
def valueWithin (constant : Bool) : (depth : Nat) → Phrase Value
  | 0 => failure
  | depth + 1 => do
    if ← skipMark '[' then
      return .list (← many ']' (valueWithin constant depth))
    else if ← skipMark '\x7b' then
      let members ← many '\x7d' (do
        let key ← name
        mark ':'
        return (key, ← valueWithin constant depth))
      return .ofMembers members
    else if ← skipMark '$' then
      guard !constant
      return .var (← name)
    else
      scalar
where
  /-- A value of one token. -/
  scalar : Phrase Value := fun ts =>
    match ts with
    | ⟨.name s, _⟩ :: rest => some (namedValue s, rest)
    | ⟨.int n, _⟩ :: rest => some (.int n, rest)
    | ⟨.float x, _⟩ :: rest => some (.float x, rest)
    | ⟨.text s, _⟩ :: rest => some (.text s, rest)
    | _ => none

def value (constant : Bool) : Phrase Value :=
  valueWithin constant (Token.maxDepth + 1)

def arguments : Phrase (List (String × Value)) := do
  if ← skipMark '(' then
    many1 ')' (do
      let key ← name
      mark ':'
      return (key, ← value false))
  else
    return []

def directives : Phrase (List Directive) :=
  manyWhile (isMark '@') (do
    let place ← position
    mark '@'
    let word ← name
    return ⟨place, word, ← arguments⟩)

/-- A constant after an equals sign, if there is one. -/
def initial? : Phrase (Option Value) := do
  if ← skipMark '=' then return some (← value true) else return none

end FieldAuthorization.Phrase
