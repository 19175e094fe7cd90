import FieldAuthorization.Document.Parser
import FieldAuthorization.Permissions.Basic
import FieldAuthorization.Schema.Basic

/-!
The permissions that a client's declarations grant.

A declaration is a query document. Walking its operations along the schema permits every field that
they select and shows every type that they pass. The rules of a fragment do not depend on where it
is spread, so each fragment is walked once per declaration; a spread inside the fragment's own walk
is a cycle.
-/

set_option autoImplicit false
set_option relaxedAutoImplicit false

namespace FieldAuthorization

/-- What is wrong with a declaration. -/
inductive DeclarationFault
  | malformed
  | unknownType (type : String)
  | unknownField (type field : String)
  | unknownFragment (name : String)
  | fragmentCycle (name : String)
  | missingRoot (kind : OperationKind)
deriving DecidableEq

def DeclarationFault.message : DeclarationFault → String
  | .malformed => "failed to parse declaration: "
  | .unknownType type => "unknown type '" ++ type ++ "'"
  | .unknownField type field => "type '" ++ type ++ "' has no field '" ++ field ++ "'"
  | .unknownFragment name => "unknown fragment '" ++ name ++ "'"
  | .fragmentCycle name => "fragment '" ++ name ++ "' spreads itself"
  | .missingRoot kind => "schema has no " ++ kind.keyword ++ " root type"

/-- A faulty declaration of a client. -/
structure DeclarationError where
  client : String
  fault : DeclarationFault
deriving DecidableEq

def DeclarationError.message (e : DeclarationError) : String :=
  "client '" ++ e.client ++ "': " ++ e.fault.message

namespace PermissionSet

/-- Shows an input type, and unless it was shown before, the types of its input fields. Each step
down follows a type that was not shown, so the number of types bounds the depth. -/
def showInput (s : Schema) : (depth : Nat) → String → PermissionSet → PermissionSet
  | 0, type, p => (p.markVisible type).2
  | depth + 1, type, p =>
    let (isNew, q) := p.markVisible type
    match s.type? type with
    | some d =>
      if isNew && d.kind = .inputObject then
        d.inputs.foldl (fun q input => showInput s depth input.type q) q
      else q
    | none => q

/-- Permits a field, shows the type that it returns, and shows what its arguments take. -/
def permitField (p : PermissionSet) (s : Schema) (parent : String) (d : FieldDef) :
    PermissionSet :=
  let p := (p.permit parent d.name).2
  let p := (p.markVisible d.type).2
  d.arguments.foldl (fun p argument => showInput s s.types.size argument.type p) p

end PermissionSet

namespace Declaration

/-- The state of a walk: the permissions so far and the fragments whose rules they hold. -/
structure Walk where
  permissions : PermissionSet
  inlined : List String

abbrev Step := Walk → Except DeclarationFault Walk

namespace Walk

def markVisible (w : Walk) (type : String) : Walk :=
  { w with permissions := (w.permissions.markVisible type).2 }

def permitField (w : Walk) (s : Schema) (parent : String) (d : FieldDef) : Walk :=
  { w with permissions := w.permissions.permitField s parent d }

/-- Shows the type of a condition, which must exist. -/
def requireType (s : Schema) (type : String) : Step := fun w =>
  if s.types.contains type then .ok (w.markVisible type) else .error (.unknownType type)

end Walk

mutual

/-- Walks a selection on a type; `spread` walks the fragment of a name. Introspection fields are
passed over with all that they select. -/
def walkSelection (s : Schema) (spread : String → Step) (parent : String) : Selection → Step
  | .field head items, w =>
    if isMeta head.name then .ok w
    else
      match s.field? parent head.name with
      | none => .error (.unknownField parent head.name)
      | some d => walkSelections s spread d.type items (w.permitField s parent d)
  | .spread head, w => spread head.name w
  | .inline head items, w =>
    match head.condition with
    | none => walkSelections s spread parent items w
    | some condition =>
      match w.requireType s condition with
      | .error fault => .error fault
      | .ok w => walkSelections s spread condition items w

def walkSelections (s : Schema) (spread : String → Step) (parent : String) :
    List Selection → Step
  | [], w => .ok w
  | item :: rest, w =>
    match walkSelection s spread parent item w with
    | .error fault => .error fault
    | .ok w => walkSelections s spread parent rest w

end

/-- Walks the fragment of a name, unless that has been done. `inProgress` holds the fragments whose
walk has begun; they are distinct fragments of the document, so their number bounds the depth. -/
def walkFragment (s : Schema) (d : Document) :
    (depth : Nat) → (inProgress : List String) → String → Step
  | depth, inProgress, name, w =>
    match d.fragment? name with
    | none => .error (.unknownFragment name)
    | some f =>
      if inProgress.contains name then .error (.fragmentCycle name)
      else if w.inlined.contains name then .ok w
      else
        match depth with
        | 0 => .error (.fragmentCycle name)
        | depth + 1 =>
          match w.requireType s f.condition with
          | .error fault => .error fault
          | .ok w =>
            match walkSelections s (walkFragment s d depth (name :: inProgress)) f.condition
                f.items w with
            | .error fault => .error fault
            | .ok w => .ok { w with inlined := name :: w.inlined }

/-- Walks the fragment of a name from outside all fragments. -/
def spread (s : Schema) (d : Document) (name : String) : Step :=
  walkFragment s d d.fragments.length [] name

/-- Walks an operation from its root type. -/
def walkOperation (s : Schema) (d : Document) (o : Operation) : Step := fun w =>
  match s.root? o.kind with
  | none => .error (.missingRoot o.kind)
  | some root => walkSelections s (spread s d) root o.items (w.markVisible root)

/-- Adds what a document grants to the permissions. -/
def grant (s : Schema) (d : Document) (p : PermissionSet) : Except DeclarationFault PermissionSet :=
  (d.operations.foldlM (fun w o => walkOperation s d o w) ⟨p, []⟩).map Walk.permissions

/-- Adds what the text of a declaration grants to the permissions. -/
def grantText (s : Schema) (p : PermissionSet) (declaration : String) :
    Except DeclarationFault PermissionSet :=
  match Document.parse declaration with
  | .error _ => .error .malformed
  | .ok d => grant s d p

/-- The permissions that a client's declarations grant together. -/
def compile (s : Schema) (client : String) (declarations : List String) :
    Except DeclarationError PermissionSet :=
  (declarations.foldlM (grantText s) .empty).mapError (fun fault => ⟨client, fault⟩)

end Declaration

end FieldAuthorization
