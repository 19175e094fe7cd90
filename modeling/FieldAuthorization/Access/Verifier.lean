import FieldAuthorization.Permissions.Basic
import FieldAuthorization.Schema.Basic

/-!
Verifiers: what the clients that a caller's scopes select may do together.
-/

set_option autoImplicit false
set_option relaxedAutoImplicit false

namespace FieldAuthorization

/-- The clients in ascending order and the union of their permissions. -/
structure Verifier where
  clients : List String
  permissions : PermissionSet
deriving DecidableEq

namespace Verifier

def denyAll : Verifier :=
  ⟨[], .empty⟩

/-- Unites the permissions of clients. -/
def ofClients (clients : List (String × PermissionSet)) : Verifier :=
  ⟨(clients.map Prod.fst).mergeSort (fun a b => decide (a ≤ b)),
    clients.foldl (fun p client => p.merge client.2) .empty⟩

def allows (v : Verifier) (parent field : String) : Bool :=
  v.permissions.permits parent field

/-- Whether introspection may list a type: introspection types and built-in scalars always. -/
def showsType (v : Verifier) (type : String) : Bool :=
  isMeta type || builtinScalars.contains type || v.permissions.shows type

def isDenyAll (v : Verifier) : Bool :=
  v.permissions.isEmpty

end Verifier

end FieldAuthorization
