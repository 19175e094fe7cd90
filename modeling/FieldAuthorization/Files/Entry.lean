import FieldAuthorization.Text.Blank
import FieldAuthorization.Text.Utf8

/-!
What a path leads to.
-/

set_option autoImplicit false
set_option relaxedAutoImplicit false

namespace FieldAuthorization

/-- What is found at a path. -/
inductive FileEntry
  | missing
  | directory
  | file (bytes : List UInt8)
  /-- Something that exists and cannot be read. -/
  | unreadable
deriving DecidableEq

abbrev FileLookup (m : Type → Type) := String → m FileEntry

namespace FileEntry

def exists? (e : FileEntry) : Bool :=
  e != .missing

def text? : FileEntry → Option String
  | .file bytes => Text.ofUtf8? bytes
  | _ => none

end FileEntry

namespace FilePath

def parts (path : String) : List String :=
  (Text.splitOn (· = '/') path.toList).map String.ofList

def isStay (part : String) : Bool :=
  part = "" || part = "."

/-- The path with an extension after its last name, if it ends in a name. -/
def withExtension? (path extension : String) : Option String :=
  match (parts path).reverse.dropWhile isStay with
  | [] => none
  | last :: front =>
    if last = ".." then none
    else some ("/".intercalate (front.reverse ++ [last ++ "." ++ extension]))

end FilePath

end FieldAuthorization
