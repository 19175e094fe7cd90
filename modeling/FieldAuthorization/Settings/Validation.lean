import FieldAuthorization.Access.ScopePattern
import FieldAuthorization.Settings.Decode

/-!
Settings that are checked before use: there is a client, every client has an identifier, queries and
patterns that can be compiled, and a cache in use has room.
-/

set_option autoImplicit false
set_option relaxedAutoImplicit false

namespace FieldAuthorization

def Client.validate (id : String) (client : Client) : Except SettingsError Unit :=
  if id.isEmpty then .error .emptyClientId
  else if client.queries.isEmpty then .error (.noQueries id)
  else
    match ScopePattern.compileAll client.scopes with
    | .error pattern => .error (.invalidPattern pattern (some id))
    | .ok _ => .ok ()

def CacheSettings.validate (cache : CacheSettings) : Except SettingsError Unit :=
  if cache.enabled ∧ cache.maxEntries = 0 then .error .noCacheEntries else .ok ()

namespace Settings

/-- Checks settings; of several faults the first counts, clients in ascending order. -/
def validate (s : Settings) : Except SettingsError Unit :=
  if s.clients.isEmpty then .error .noClients
  else do
    s.clients.toList.forM (fun (id, client) => client.validate id)
    s.cache.validate

/-- Reads settings from a table of them, and checks them. -/
def ofSetting (root : Setting) : Except SettingsError Settings :=
  match ofSetting? root with
  | none => .error .malformed
  | some s =>
    match s.validate with
    | .error e => .error e
    | .ok _ => .ok s

end Settings

end FieldAuthorization
