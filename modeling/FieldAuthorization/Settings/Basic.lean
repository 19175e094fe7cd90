import Std.Data.ExtTreeMap
import FieldAuthorization.Permissions.Declaration

/-!
Settings of an authorizer, and why settings are refused.
-/

set_option autoImplicit false
set_option relaxedAutoImplicit false

namespace FieldAuthorization

/-- A client: the queries that it declares, and the patterns of the scopes that select it. Without
patterns its own identifier selects it. -/
structure Client where
  queries : List String
  scopes : List String
deriving DecidableEq

abbrev Clients := Std.ExtTreeMap String Client

/-- What becomes of selections that redaction leaves empty. -/
inductive EmptySelections
  | prune
  | keep
deriving DecidableEq

structure CacheSettings where
  enabled : Bool
  maxEntries : Nat
deriving DecidableEq

inductive LogFormat
  | pretty
  | json
deriving DecidableEq

structure LogSettings where
  level : String
  format : LogFormat
deriving DecidableEq

structure Settings where
  schema : Option String
  clients : Clients
  emptySelections : EmptySelections
  cache : CacheSettings
  logging : LogSettings

namespace Settings

def defaultCache : CacheSettings :=
  ⟨true, 1024⟩

def defaultLogging : LogSettings :=
  ⟨"info", .pretty⟩

def initial : Settings :=
  ⟨none, ∅, .prune, defaultCache, defaultLogging⟩

end Settings

/-- Why settings, or the files that they name, are refused. -/
inductive SettingsError
  /-- The text or the environment does not describe settings. -/
  | malformed
  | settingsNotFound (path : String)
  | schemaNotFound (path : String)
  | emptyClientId
  | noCacheEntries
  | noQueries (client : String)
  /-- The client is named where all settings are checked before use. -/
  | invalidPattern (pattern : String) (client : Option String)
  | noClients
  | declaration (e : DeclarationError)
  | schema (e : SchemaError)
  | unreadable

def SettingsError.message : SettingsError → String
  | .malformed => "Failed to load configuration: "
  | .settingsNotFound path =>
    "Failed to load configuration: Configuration file not found: " ++ path
  | .schemaNotFound path => "Failed to load configuration: Schema file not found: " ++ path
  | .emptyClientId => "Invalid configuration: client identifiers must not be empty"
  | .noCacheEntries => "Invalid configuration: cache.max_entries must be greater than 0"
  | .noQueries client =>
    "Missing required configuration: clients." ++ client ++ ".queries"
  | .invalidPattern pattern none => "Invalid scope pattern '" ++ pattern ++ "': "
  | .invalidPattern pattern (some client) =>
    "Invalid scope pattern '" ++ pattern ++ "': in clients." ++ client ++ ".scopes: "
  | .noClients => "Clients missing from authorization configuration"
  | .declaration e => "Invalid rule declaration: " ++ e.message
  | .schema e => "Invalid schema: " ++ e.message
  | .unreadable => "IO error: "

end FieldAuthorization
