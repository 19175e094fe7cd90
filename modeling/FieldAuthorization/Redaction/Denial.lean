import FieldAuthorization.Document.Basic

/-!
Denials: the fields that redaction takes out of a query, and why.
-/

set_option autoImplicit false
set_option relaxedAutoImplicit false

namespace FieldAuthorization

/-- What was being redacted when a field was denied. -/
inductive RedactionRoot
  | operation (name : Option String)
  | fragment (name : String)
deriving DecidableEq

inductive DenialReason
  /-- No client that the caller's scopes select permits the field. -/
  | notPermitted
  /-- The request's extension rejects the field. -/
  | extension
deriving DecidableEq

/-- A denied field; the path holds the response keys from the root down to the field's own. -/
structure Denial where
  root : RedactionRoot
  path : List String
  parent : String
  field : String
  position : Position
  reason : DenialReason
deriving DecidableEq

namespace Denial

def message (d : Denial) : String :=
  "Not authorized to access field '" ++ d.field ++ "' of type '" ++ d.parent ++ "'"
    ++ (match d.root with
        | .operation _ => ""
        | .fragment name => " in fragment '" ++ name ++ "'")

/-- The message with the path at which the field was denied. -/
def text (d : Denial) : String :=
  d.message ++ " at '" ++ ".".intercalate d.path ++ "'"

end Denial

end FieldAuthorization
