import FieldAuthorization.Files.Entry
import FieldAuthorization.Settings.Environment
import FieldAuthorization.Settings.Validation
import FieldAuthorization.Toml.Document

/-!
Loading settings: a file in TOML, over which the environment is put, checked before use.
-/

set_option autoImplicit false
set_option relaxedAutoImplicit false

namespace FieldAuthorization

namespace Settings

def root? (toml : String) : Option Setting :=
  (Toml.read? toml).map (fun members =>
    members.foldl (fun root (key, value) => root.put key value) (.table []))

def ofToml (toml : String) : Except SettingsError Settings :=
  match root? toml with
  | none => .error .malformed
  | some root => ofSetting root

/-- The paths where settings are looked for, best first. -/
def defaultPaths (env : Environment) : List String :=
  let home := match env.lookup "HOME" with
    | none | some "" => "~"
    | some home => home
  ["gql-authz.toml", ".gql-authz.toml", home ++ "/.config/gql-authz/config.toml",
    "/etc/gql-authz/config.toml"]

variable {m : Type → Type} [Monad m]

/-- The first of the paths that leads anywhere, with its entry. -/
def firstExisting (lookup : FileLookup m) : List String → m (Option (String × FileEntry))
  | [] => return none
  | path :: rest => do
    let entry ← lookup path
    if entry.exists? then return some (path, entry) else firstExisting lookup rest

/-- The setting values of an entry. A directory stands for the file of its name with an
extension. -/
def entryRoot? (lookup : FileLookup m) (path : String) (entry : FileEntry) :
    m (Option Setting) := do
  let entry ← match entry, FilePath.withExtension? path "toml" with
    | .directory, some path => lookup path
    | entry, _ => pure entry
  match entry with
  | .file bytes => return root? (Text.ofUtf8 bytes)
  | _ => return none

/-- Loads settings from the given path, or from the first default path that leads anywhere, or else
from the environment alone. -/
def load (lookup : FileLookup m) (env : Environment) (path : Option String) :
    m (Except SettingsError Settings) := do
  let source ← match path with
    | some path => do pure (some (path, ← lookup path))
    | none => firstExisting lookup (defaultPaths env)
  match source with
  | none => return ofSetting (env.onto (.table []))
  | some (path, .missing) => return .error (.settingsNotFound path)
  | some (path, entry) =>
    match ← entryRoot? lookup path entry with
    | none => return .error .malformed
    | some root => return ofSetting (env.onto root)

end Settings

end FieldAuthorization
