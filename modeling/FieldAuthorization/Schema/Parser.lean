import FieldAuthorization.Document.Parser.Value
import FieldAuthorization.Schema.Definition

/-!
Reading schema documents.
-/

set_option autoImplicit false
set_option relaxedAutoImplicit false

namespace FieldAuthorization

namespace Phrase

def description : Phrase Bool :=
  skipIf (fun
    | .text _ => true
    | _ => false)

def inputDef : Phrase InputDef := do
  let _ ← description
  let word ← name
  mark ':'
  let type ← type
  let _ ← initial?
  let _ ← directives
  return ⟨word, type.baseName⟩

/-- Argument definitions in parentheses, or none at all. -/
def argumentDefs : Phrase (List InputDef) := do
  if ← skipMark '(' then many1 ')' inputDef else return []

def fieldDef : Phrase FieldDef := do
  let _ ← description
  let word ← name
  let arguments ← argumentDefs
  mark ':'
  let type ← type
  let _ ← directives
  return ⟨word, type.baseName, arguments⟩

/-- At least one item in braces, or nothing at all. -/
def block? {α : Type} (item : Phrase α) : Phrase (Option (List α)) := do
  if ← skipMark '\x7b' then return some (← many1 '\x7d' item) else return none

/-- Names after a word or mark, separated by `c`, which may also stand in front. -/
def nameList (c : Char) : Phrase (List String) := do
  let _ ← skipMark c
  separatedBy c name

def interfaces : Phrase (List String) := do
  if ← skipName "implements" then nameList '&' else return []

def enumValue : Phrase Unit := do
  let _ ← description
  let _ ← name
  let _ ← directives

/-- A type after the word for its kind: its name, its body, and whether the text adds anything that
an extension may consist of. -/
def typeAfter (kind : String) : Phrase (String × TypeBody × Bool) := do
  let word ← name
  match kind with
  | "scalar" =>
    let directives ← directives
    return (word, .scalar, !directives.isEmpty)
  | "type" =>
    let interfaces ← interfaces
    let directives ← directives
    let fields ← block? fieldDef
    return (word, .object interfaces (fields.getD []),
      !interfaces.isEmpty || !directives.isEmpty || fields.isSome)
  | "interface" =>
    let _ ← interfaces
    let directives ← directives
    let fields ← block? fieldDef
    return (word, .interface (fields.getD []), !directives.isEmpty || fields.isSome)
  | "union" =>
    let directives ← directives
    if ← skipMark '=' then
      return (word, .union (← nameList '|'), true)
    else
      return (word, .union [], !directives.isEmpty)
  | "enum" =>
    let directives ← directives
    let values ← block? enumValue
    return (word, .enum, !directives.isEmpty || values.isSome)
  | "input" =>
    let directives ← directives
    let fields ← block? inputDef
    return (word, .inputObject (fields.getD []), !directives.isEmpty || fields.isSome)
  | _ => failure

/-- Takes the value of a root type into a block, which may name each root once. -/
def addRoot (block : RootTypes) : String × String → Option RootTypes
  | ("query", name) => if block.query.isSome then none else some { block with query := some name }
  | ("mutation", name) =>
    if block.mutation.isSome then none else some { block with mutation := some name }
  | ("subscription", name) =>
    if block.subscription.isSome then none else some { block with subscription := some name }
  | _ => none

def schemaBlock : Phrase SchemaDefinition := do
  let _ ← directives
  mark '\x7b'
  let entries ← many '\x7d' (do
    let key ← name
    mark ':'
    return (key, ← name))
  match entries.foldlM addRoot ⟨none, none, none⟩ with
  | some block => return .roots block
  | none => failure

def directiveLocations : List String :=
  ["QUERY", "MUTATION", "SUBSCRIPTION", "FIELD", "FRAGMENT_DEFINITION", "FRAGMENT_SPREAD",
    "INLINE_FRAGMENT", "VARIABLE_DEFINITION", "SCHEMA", "SCALAR", "OBJECT", "FIELD_DEFINITION",
    "ARGUMENT_DEFINITION", "INTERFACE", "UNION", "ENUM", "ENUM_VALUE", "INPUT_OBJECT",
    "INPUT_FIELD_DEFINITION"]

def directiveLocation : Phrase String := do
  let word ← name
  guard (directiveLocations.contains word)
  return word

def directiveDef : Phrase SchemaDefinition := do
  mark '@'
  let _ ← name
  let _ ← argumentDefs
  let _ ← skipName "repeatable"
  keyword "on"
  let _ ← skipMark '|'
  if (← peek).any isAnyName then
    let _ ← separatedBy '|' directiveLocation
  return .directive

/-- A definition or extension of a schema document. Extensions and schema blocks have no
description, and an extension adds something. -/
def schemaDefinition : Phrase SchemaDefinition := do
  let described ← description
  let word ← name
  match word with
  | "schema" =>
    guard !described
    schemaBlock
  | "extend" =>
    guard !described
    let (word, body, adds) ← typeAfter (← name)
    guard adds
    return .extension word body
  | "directive" => directiveDef
  | kind =>
    let (word, body, _) ← typeAfter kind
    return .type word body

end Phrase

/-- Reads a schema document of at least one definition. -/
def SchemaDocument.parse (s : String) : Except SchemaError SchemaDocument :=
  match (Lexeme.ofText? s).bind (Phrase.toEnd Phrase.schemaDefinition) with
  | some (first :: rest) => .ok ⟨first :: rest⟩
  | _ => .error .malformed

def Schema.parse (s : String) : Except SchemaError Schema := do
  (← SchemaDocument.parse s).toSchema

end FieldAuthorization
