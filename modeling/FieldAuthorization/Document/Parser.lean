import FieldAuthorization.Document.Parser.Value

/-!
Reading query documents.
-/

set_option autoImplicit false
set_option relaxedAutoImplicit false

namespace FieldAuthorization

namespace Phrase

/-- Selections in braces, at least one, and the places of the opening and the closing brace. -/
def braces (selection : Phrase Selection) : Phrase (List Selection × Position × Position) := do
  let opening ← position
  mark '\x7b'
  let first ← selection
  let rest ← manyWhile (fun t => !isMark '\x7d' t) selection
  let closing ← position
  mark '\x7d'
  return (first :: rest, opening, closing)

/-- What follows an ellipsis: a spread, or an inline fragment with or without a condition. The
word `on` always begins a condition. -/
def afterEllipsis (selection : Phrase Selection) : Phrase Selection := do
  let place ← position
  if ← skipName "on" then
    let condition ← name
    inlineFragment place (some condition)
  else match ← name? with
    | some word => return .spread ⟨place, word, ← directives⟩
    | none => inlineFragment place none
where
  /-- The rest of an inline fragment after its condition. -/
  inlineFragment (place : Position) (condition : Option String) : Phrase Selection := do
    let directives ← directives
    let (items, opening, closing) ← braces selection
    return .inline ⟨place, opening, closing, condition, directives⟩ items

def field (selection : Phrase Selection) : Phrase Selection := do
  let place ← position
  let first ← name
  let (aliasName, word) ←
    if ← skipMark ':' then pure (some first, ← name) else pure (none, first)
  let arguments ← arguments
  let directives ← directives
  if ← atMark '\x7b' then
    let (items, opening, closing) ← braces selection
    return .field ⟨place, opening, closing, aliasName, word, arguments, directives⟩ items
  else
    return .field ⟨place, place, place, aliasName, word, arguments, directives⟩ []

/-- A selection whose braces nest less than `depth` deep. -/
def selectionWithin : (depth : Nat) → Phrase Selection
  | 0 => failure
  | depth + 1 => do
    if ← skipIf (fun | .ellipsis => true | _ => false) then
      afterEllipsis (selectionWithin depth)
    else
      field (selectionWithin depth)

/-- Selections in braces, at least one, and the places of the opening and the closing brace. -/
def selections : Phrase (List Selection × Position × Position) :=
  braces (selectionWithin (Token.maxDepth + 1))

/-- Variable definitions in parentheses, or none at all. -/
def variableDefs : Phrase (List VariableDefinition) := do
  if ← skipMark '(' then
    many1 ')' (do
      let place ← position
      mark '$'
      let word ← name
      mark ':'
      let type ← type
      return ⟨place, word, type, ← initial?⟩)
  else
    return []

/-- The rest of an operation after the word for its kind, which stands at `place`. -/
def headedOperation (place : Position) (kind : OperationKind) : Phrase Definition := do
  let word ← name?
  let defs ← variableDefs
  let directives ← directives
  let (items, opening, closing) ← selections
  return .operation ⟨some ⟨place, kind, word, defs, directives⟩, opening, closing, items⟩

/-- The rest of a fragment definition after its first word, which stands at `place`. -/
def fragmentFrom (place : Position) : Phrase Definition := do
  let word ← name
  keyword "on"
  let condition ← name
  let directives ← directives
  let (items, opening, closing) ← selections
  return .fragment ⟨place, opening, closing, word, condition, directives, items⟩

def definition : Phrase Definition := do
  let place ← position
  if ← atMark '\x7b' then
    let (items, opening, closing) ← selections
    return .operation ⟨none, opening, closing, items⟩
  else
    match ← name with
    | "query" => headedOperation place .query
    | "mutation" => headedOperation place .mutation
    | "subscription" => headedOperation place .subscription
    | "fragment" => fragmentFrom place
    | _ => failure

end Phrase

/-- Reads a query document of at least one definition. -/
def Document.parse (s : String) : Except QueryError Document :=
  match (Lexeme.ofText? s).bind (Phrase.toEnd Phrase.definition) with
  | some (first :: rest) => .ok ⟨first :: rest⟩
  | _ => .error .malformed

end FieldAuthorization
