import FieldAuthorization.Access.Verifier
import FieldAuthorization.Redaction.Denial

/-!
What decides on fields: the verifier first, then the request's extension, then the schema.
-/

set_option autoImplicit false
set_option relaxedAutoImplicit false

namespace FieldAuthorization

/-- A further check on a field of a type with what is selected below it. It is asked only about
fields that the verifier allows, so it can narrow access and never widens it. -/
abbrev Extension := (parent : String) → Field → List Selection → Bool

structure Authority where
  schema : Schema
  verifier : Verifier
  extension : Option Extension

namespace Authority

/-- The type that a field returns, or why the field is denied. A field that the schema lacks is
not permitted. -/
def judge (a : Authority) (parent : String) (head : Field) (items : List Selection) :
    Except DenialReason String :=
  if !a.verifier.allows parent head.name then .error .notPermitted
  else if a.extension.any (fun authorizes => !authorizes parent head items) then
    .error .extension
  else
    match a.schema.field? parent head.name with
    | none => .error .notPermitted
    | some d => .ok d.type

/-- The type at which redaction of an operation begins; a root that the schema lacks has its
conventional name, which permits nothing. -/
def rootType (a : Authority) (kind : OperationKind) : String :=
  (a.schema.root? kind).getD kind.conventionalType

end Authority

end FieldAuthorization
