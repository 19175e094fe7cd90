import FieldAuthorization.Files.Entry
import FieldAuthorization.Schema.Parser
import FieldAuthorization.Settings.Basic

/-!
Loading a schema from a file.
-/

set_option autoImplicit false
set_option relaxedAutoImplicit false

namespace FieldAuthorization

/-- Reads the schema at a path. -/
def Schema.load {m : Type → Type} [Monad m] (lookup : FileLookup m) (path : String) :
    m (Except SettingsError Schema) := do
  match ← lookup path with
  | .missing => return .error (.schemaNotFound path)
  | entry =>
    match entry.text? with
    | none => return .error .unreadable
    | some sdl =>
      match Schema.parse sdl with
      | .error e => return .error (.schema e)
      | .ok schema => return .ok schema

end FieldAuthorization
