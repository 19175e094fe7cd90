import FieldAuthorization.Access.Verifier
import FieldAuthorization.Enforcement.Result
import FieldAuthorization.Introspection.Names

/-!
Filtering what introspection returns.

A value is read by its place in introspection: hidden types, fields that may not be selected, and
arguments and input fields of hidden types are taken out of it. Objects are recognised by the name
that redaction has added, or else by their own.
-/

set_option autoImplicit false
set_option relaxedAutoImplicit false

namespace FieldAuthorization.Introspection

/-- The name of a type or field object. -/
inductive ObjectName
  | named (name : String)
  /-- The name is null: the object is a list or non-null wrapper. -/
  | unnamed
  /-- No name was selected. -/
  | unknown
deriving DecidableEq

/-- The name that was added to an object, or else its own. -/
def nameOf (members : Json.Members) : ObjectName :=
  match members.get? nameKey <|> members.get? "name" with
  | some (.text name) => .named name
  | some .null => .unnamed
  | _ => .unknown

/-- What a value stands for. -/
inductive Place
  | schema
  /-- A type that may be null. -/
  | type
  /-- The query root type, which may not be null. -/
  | queryRoot
  | typeList
  /-- A type in a list, from which it may be missing. -/
  | typeEntry
  | fieldList (parent : Option String)
  | field (parent : Option String)
  | inputList
  /-- An argument or an input field. -/
  | input
  | directiveList
  | directive
  | other
deriving DecidableEq

/-- The place of the items of an array, if the array is a list of something. -/
def Place.items? : Place → Option Place
  | .typeList => some .typeEntry
  | .fieldList parent => some (.field parent)
  | .inputList => some .input
  | .directiveList => some .directive
  | _ => none

def typeMember (parent : Option String) : String → Place
  | "fields" => .fieldList parent
  | "inputFields" => .inputList
  | "possibleTypes" => .typeList
  | "interfaces" => .typeList
  | "ofType" => .type
  | _ => .other

/-- The place of a member of the object at a place; `parent` is the name of the object. Nothing
stands for a member that is taken out. -/
def Place.member? (place : Place) (parent : Option String) (key : String) : Option Place :=
  match place with
  | .schema =>
    match key with
    | "types" => some .typeList
    | "queryType" => some .queryRoot
    | "mutationType" => some .type
    | "subscriptionType" => some .type
    | "directives" => some .directiveList
    | _ => some .other
  | .type | .queryRoot | .typeEntry =>
    if key == nameKey then none else some (typeMember parent key)
  | .field _ =>
    if key == nameKey then none
    else
      match key with
      | "args" => some .inputList
      | "type" => some .type
      | _ => some .other
  | .input => if key == "type" then some .type else some .other
  | .directive => if key == "args" then some .inputList else some .other
  | _ => some .other

/-- The known name of an object. -/
def knownName (members : Json.Members) : Option String :=
  match nameOf members with
  | .named name => some name
  | _ => none

/-- Whether a type object is hidden: wrappers never are, and an object of unknown name always is. -/
def isHidden (v : Verifier) (members : Json.Members) : Bool :=
  match nameOf members with
  | .named name => !v.showsType name
  | .unnamed => false
  | .unknown => true

/-- Whether a field object of a type stays: fields of introspection always, others if the verifier
allows them. -/
def keepsField (v : Verifier) (parent : Option String) (members : Json.Members) : Bool :=
  match nameOf members with
  | .named name => isMeta name || parent.any (fun parent => v.allows parent name)
  | _ => false

mutual

/-- Whether a type reference names a hidden type through any wrappers. -/
def refersToHidden (v : Verifier) : Json → Bool
  | .object members =>
    match nameOf members with
    | .named name => !v.showsType name
    | _ => wrapsHidden v members
  | _ => false

/-- Whether the type that a wrapper is around refers to a hidden type. -/
def wrapsHidden (v : Verifier) : List (String × Json) → Bool
  | [] => false
  | (key, value) :: rest =>
    if key == "ofType" then refersToHidden v value else wrapsHidden v rest

end

/-- Whether an object may stand at a place. -/
def admits (v : Verifier) (place : Place) (members : Json.Members) : Bool :=
  match place with
  | .type | .typeEntry => !isHidden v members
  | .field parent => keepsField v parent members
  | .input => !(members.get? "type").any (refersToHidden v)
  | _ => true

mutual

/-- What is left of a value at a place: nothing if it is a list entry to be dropped, and null if it
is a hidden type where null may stand. -/
def filterAt (v : Verifier) (place : Place) : Json → Option Json
  | .object members =>
    if admits v place members then
      some (.object (filterMembers v place (knownName members) members))
    else if place = .type then some .null
    else none
  | .array items =>
    match place, place.items? with
    | .field _, _ => none
    | _, some entry => some (.array (filterItems v entry items))
    | _, none => some (.array items)
  | value =>
    match place with
    | .field _ => none
    | _ => some value

def filterItems (v : Verifier) (entry : Place) : List Json → List Json
  | [] => []
  | item :: rest =>
    match filterAt v entry item with
    | some kept => kept :: filterItems v entry rest
    | none => filterItems v entry rest

/-- What is left of the members of an object at a place. -/
def filterMembers (v : Verifier) (place : Place) (parent : Option String) :
    List (String × Json) → List (String × Json)
  | [] => []
  | (key, value) :: rest =>
    match place.member? parent key with
    | none => filterMembers v place parent rest
    | some inner =>
      match filterAt v inner value with
      | some kept => (key, kept) :: filterMembers v place parent rest
      | none => filterMembers v place parent rest

end

def entryPlace : String → Place
  | "__schema" => .schema
  | "__type" => .type
  | _ => .other

/-- Filters what an entry field returns; other fields are left as they are. -/
def filter (v : Verifier) (field : String) (value : Json) : Json :=
  (filterAt v (entryPlace field) value).getD .null

/-- Fetches the value of a field from a host and filters it if the field is one of introspection. -/
def fetch {m : Type → Type} [Monad m] (v : Verifier)
    (host : (parent field : String) → m (Except ResponseError Json)) (parent field : String) :
    m (Except ResponseError Json) := do
  match ← host parent field with
  | .error e => return .error e
  | .ok value => return .ok (if isMeta field then filter v field value else value)

end FieldAuthorization.Introspection
