import FieldAuthorization.Json.Basic
import FieldAuthorization.Redaction.Denial

/-!
Execution results, and their JSON form.

A record may be given as an object or as an array of its members in the order in which they are
declared here. Members of an object that are not declared are ignored.
-/

set_option autoImplicit false
set_option relaxedAutoImplicit false

namespace FieldAuthorization

structure ResponseError where
  message : String
  locations : List Position
  path : List Json
  extensions : Option Json.Members

structure ExecutionResult where
  data : Option Json
  errors : List ResponseError
  extensions : Option Json.Members

namespace Json

/-- The members of a record by name: of an object by key, of an array by place. An array may lack
members at its end but has none beyond them. -/
def record? (names : List String) : Json → Option Members
  | .object members => some (members.filter (fun member => names.contains member.1))
  | .array items =>
    if items.length ≤ names.length then some (names.zip items) else none
  | _ => none

def text? : Json → Option String
  | .text s => some s
  | _ => none

def unsigned? : Json → Option Nat
  | .number (.integer n) => if 0 ≤ n ∧ n < 0x10000000000000000 then some n.toNat else none
  | _ => none

def list? {α : Type} (item? : Json → Option α) : Json → Option (List α)
  | .array items => items.mapM item?
  | _ => none

def optionalObject? : Json → Option (Option Members)
  | .object members => some (some members)
  | .null => some none
  | _ => none

def optional : Json → Option Json
  | .null => none
  | value => some value

/-- Decodes the member of a key if it is there, else takes the default. -/
def Members.getD? {α : Type} (members : Members) (key : String) (decode? : Json → Option α)
    (default : α) : Option α :=
  match members.get? key with
  | some value => decode? value
  | none => some default

def Members.ofList (key : String) (items : List Json) : Members :=
  if items.isEmpty then [] else [(key, .array items)]

def Members.ofOption (key : String) : Option Json → Members
  | some value => [(key, value)]
  | none => []

end Json

namespace Position

/-- Both numbers are required. -/
def ofJson? (j : Json) : Option Position := do
  let members ← j.record? ["line", "column"]
  return ⟨← (← members.get? "line").unsigned?, ← (← members.get? "column").unsigned?⟩

def toJson (p : Position) : Json :=
  .object [("line", .number (.integer p.line)), ("column", .number (.integer p.column))]

end Position

namespace ResponseError

/-- The message is required; locations and path are empty if they are missing. -/
def ofJson? (j : Json) : Option ResponseError := do
  let members ← j.record? ["message", "locations", "path", "extensions"]
  let message ← (← members.get? "message").text?
  let locations ← members.getD? "locations" (Json.list? Position.ofJson?) []
  let path ← members.getD? "path" (Json.list? some) []
  let extensions ← members.getD? "extensions" Json.optionalObject? none
  return ⟨message, locations, path, extensions⟩

/-- Empty lists and missing extensions are left out. -/
def toJson (e : ResponseError) : Json :=
  .object (("message", .text e.message)
    :: Json.Members.ofList "locations" (e.locations.map Position.toJson)
    ++ Json.Members.ofList "path" e.path
    ++ Json.Members.ofOption "extensions" (e.extensions.map Json.object))

end ResponseError

namespace ExecutionResult

def empty : ExecutionResult :=
  ⟨none, [], none⟩

/-- Every member may be missing; data and extensions may be null. -/
def ofJson? (j : Json) : Option ExecutionResult := do
  let members ← j.record? ["data", "errors", "extensions"]
  let data ← members.getD? "data" (fun value => some value.optional) none
  let errors ← members.getD? "errors" (Json.list? ResponseError.ofJson?) []
  let extensions ← members.getD? "extensions" Json.optionalObject? none
  return ⟨data, errors, extensions⟩

/-- Missing data and extensions and an empty list of errors are left out. -/
def toJson (r : ExecutionResult) : Json :=
  .object (Json.Members.ofOption "data" r.data
    ++ Json.Members.ofList "errors" (r.errors.map ResponseError.toJson)
    ++ Json.Members.ofOption "extensions" (r.extensions.map Json.object))

def hasData (r : ExecutionResult) : Bool :=
  r.data.isSome

end ExecutionResult

namespace Denial

/-- The error that a response reports for a denied field. -/
def toResponseError (d : Denial) : ResponseError :=
  { message := d.message
    locations := [d.position]
    path := d.path.map Json.text
    extensions := some <|
      [("code", .text "UNAUTHORIZED_FIELD"), ("parentType", .text d.parent),
        ("field", .text d.field)]
      ++ (match d.root with
          | .operation _ => []
          | .fragment name => [("fragment", .text name)])
      ++ (match d.reason with
          | .notPermitted => []
          | .extension => [("reason", .text "extension")]) }

end Denial

end FieldAuthorization
