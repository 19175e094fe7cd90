import FieldAuthorization.Access.ScopePattern
import FieldAuthorization.Access.ScopeSet
import FieldAuthorization.Access.Verifier
import FieldAuthorization.Settings.Basic

/-!
The index of clients: each client's compiled permissions, and the clients that a scope set selects.
-/

set_option autoImplicit false
set_option relaxedAutoImplicit false

namespace FieldAuthorization

structure IndexedClient where
  id : String
  patterns : List ScopePattern
  permissions : PermissionSet

structure ClientIndex where
  clients : List IndexedClient

namespace IndexedClient

/-- A client with patterns is selected by a scope that one of them matches, any other client by its
own identifier. -/
def selectedBy (c : IndexedClient) (scopes : ScopeSet) : Bool :=
  if c.patterns.isEmpty then scopes.contains c.id
  else scopes.toList.any (fun scope => (ScopePattern.find? c.patterns scope).isSome)

/-- Compiles a client: its patterns first, then its queries. -/
def build (s : Schema) (id : String) (client : Client) : Except SettingsError IndexedClient :=
  if client.queries.isEmpty then .error (.noQueries id)
  else
    match ScopePattern.compileAll client.scopes with
    | .error pattern => .error (.invalidPattern pattern none)
    | .ok patterns =>
      match Declaration.compile s id client.queries with
      | .error e => .error (.declaration e)
      | .ok permissions => .ok ⟨id, patterns, permissions⟩

end IndexedClient

namespace ClientIndex

/-- Compiles all clients, of which there must be one at least. -/
def build (s : Schema) (clients : Clients) : Except SettingsError ClientIndex :=
  if clients.isEmpty then .error .noClients
  else
    (clients.toList.mapM (fun (id, client) => IndexedClient.build s id client)).map ClientIndex.mk

def ids (x : ClientIndex) : List String :=
  x.clients.map IndexedClient.id

def permissions? (x : ClientIndex) (id : String) : Option PermissionSet :=
  (x.clients.find? (fun c => c.id == id)).map IndexedClient.permissions

/-- The clients that a scope set selects. -/
def selected (x : ClientIndex) (scopes : ScopeSet) : List IndexedClient :=
  x.clients.filter (fun c => c.selectedBy scopes)

def clientsFor (x : ClientIndex) (scopes : ScopeSet) : List String :=
  (x.selected scopes).map IndexedClient.id

/-- The verifier of a scope set. -/
def verifier (x : ClientIndex) (scopes : ScopeSet) : Verifier :=
  .ofClients ((x.selected scopes).map (fun c => (c.id, c.permissions)))

end ClientIndex

end FieldAuthorization
