import FieldAuthorization.Files.Entry

/-!
Trees of files, in which paths are followed part by part from the working directory.
-/

set_option autoImplicit false
set_option relaxedAutoImplicit false

namespace FieldAuthorization

/-- The files and directories below the working directory, by the parts of their paths. -/
structure FileTree where
  entries : List (List String × FileEntry)

namespace FileTree

def ofPaths (files : List (String × FileEntry)) : FileTree :=
  ⟨files.map (fun (path, entry) => (FilePath.parts path, entry))⟩

/-- The entry at the given parts. What lies above an entry is a directory. -/
def entryAt (tree : FileTree) (parts : List String) : FileEntry :=
  match tree.entries.lookup parts with
  | some entry => entry
  | none =>
    if parts.isEmpty ∨ tree.entries.any (fun (path, _) => parts.isPrefixOf path) then .directory
    else .missing

/-- Follows the parts of a path from a directory, which is `none` above the working directory. -/
def follow (tree : FileTree) : Option (List String) → List String → FileEntry
  | none, [] => .directory
  | some place, [] => tree.entryAt place
  | none, part :: rest =>
    if FilePath.isStay part ∨ part = ".." then tree.follow none rest else .missing
  | some place, part :: rest =>
    match tree.entryAt place with
    | .directory =>
      if FilePath.isStay part then tree.follow (some place) rest
      else if part = ".." then
        tree.follow (if place.isEmpty then none else some place.dropLast) rest
      else tree.follow (some (place ++ [part])) rest
    | _ => .missing

/-- The entry of a path. Outside of the working directory only directories above it are known. -/
def lookup (tree : FileTree) (path : String) : FileEntry :=
  match FilePath.parts path with
  | [""] => .missing
  | "" :: rest => tree.follow none rest
  | parts => tree.follow (some []) parts

end FileTree

end FieldAuthorization
