import FieldAuthorization.Access.ScopeSet
import FieldAuthorization.Document.Basic
import FieldAuthorization.Json.Basic
import FieldAuthorization.Redaction.Authority

/-!
Requests, and what is found out about a request before it is redacted: its scopes and its extension.
-/

set_option autoImplicit false
set_option relaxedAutoImplicit false

namespace FieldAuthorization

/-- A request with the attributes that its host has given it. -/
structure Request where
  query : String
  operationName : Option String
  variableValues : Json.Members
  attributes : List (String × String)

def Request.attribute? (r : Request) (name : String) : Option String :=
  r.attributes.lookup name

abbrev ScopeProvider := Request → ScopeSet

namespace ScopeProvider

def fixed (scopes : ScopeSet) : ScopeProvider :=
  fun _ => scopes

/-- The scopes that an attribute of the request lists, none if it is missing. -/
def ofAttribute (name : String) : ScopeProvider :=
  fun r => ((r.attribute? name).map ScopeSet.parse).getD ∅

/-- The attribute that lists scopes unless another is given. -/
def defaultAttribute : String := "scopes"

end ScopeProvider

abbrev ExtensionProvider := Request → Extension

namespace ExtensionProvider

def authorizeAll : ExtensionProvider :=
  fun _ _ _ _ => true

end ExtensionProvider

namespace Extension

/-- Rejects the listed fields, each written `type.field`, and fields that take a listed argument. -/
def rejecting (fields arguments : List String) : Extension :=
  fun parent head _ =>
    !(fields.contains (parent ++ "." ++ head.name)
      || head.arguments.any (fun argument => arguments.contains argument.1))

end Extension

end FieldAuthorization
