import FieldAuthorization.Document.Basic

/-!
Name selections inside introspection.

What introspection returns is filtered by the names of types and fields, so every selection on a
type or field object is made to select the name as well, under a key that is taken out again.
-/

set_option autoImplicit false
set_option relaxedAutoImplicit false

namespace FieldAuthorization.Introspection

/-- The response key of the added name. -/
def nameKey : String := "_authzName"

/-- The type that an entry field returns. -/
def entryType? : String → Option String
  | "__schema" => some "__Schema"
  | "__type" => some "__Type"
  | _ => none

/-- The type that a field of an introspection type returns. -/
def childType? (parent field : String) : Option String :=
  match parent, field with
  | "__Schema", "types" => some "__Type"
  | "__Schema", "queryType" => some "__Type"
  | "__Schema", "mutationType" => some "__Type"
  | "__Schema", "subscriptionType" => some "__Type"
  | "__Schema", "directives" => some "__Directive"
  | "__Type", "fields" => some "__Field"
  | "__Type", "interfaces" => some "__Type"
  | "__Type", "possibleTypes" => some "__Type"
  | "__Type", "ofType" => some "__Type"
  | "__Type", "inputFields" => some "__InputValue"
  | "__Field", "args" => some "__InputValue"
  | "__Directive", "args" => some "__InputValue"
  | "__Field", "type" => some "__Type"
  | "__InputValue", "type" => some "__Type"
  | _, _ => none

/-- Whether objects of the type are recognised by name. -/
def isNamed (type : String) : Bool :=
  type == "__Type" || type == "__Field"

/-- Whether one of the selections has the added name's key as its alias. -/
def selectsNameKey (items : List Selection) : Bool :=
  items.any fun
    | .field head _ => head.aliasName == some nameKey
    | _ => false

/-- The selection that is added, at the given place. -/
def nameSelection (place : Position) : Selection :=
  .field ⟨place, place, place, some nameKey, "name", [], []⟩ []

/-- The name selection that selections on a type lack, if any; `closing` is where they end. -/
def missingName (type : String) (closing : Position) (items : List Selection) : List Selection :=
  if isNamed type && !items.isEmpty && !selectsNameKey items then [nameSelection closing] else []

mutual

def withNestedNames (type : String) : Selection → Selection
  | .field head items =>
    match childType? type head.name with
    | some child =>
      .field head (withNestedNamesAll child items ++ missingName child head.closing items)
    | none => .field head items
  | .spread head => .spread head
  | .inline head items => .inline head (withNestedNamesAll (head.condition.getD type) items)

/-- Adds names below selections on a type, but none to the selections themselves. -/
def withNestedNamesAll (type : String) : List Selection → List Selection
  | [] => []
  | item :: rest => withNestedNames type item :: withNestedNamesAll type rest

end

/-- The selections below a field whose name begins with two underscores, with names added if the
field is an entry into introspection. -/
def withEntryNames (head : Field) (items : List Selection) : List Selection :=
  match entryType? head.name with
  | some type => withNestedNamesAll type items ++ missingName type head.closing items
  | none => items

end FieldAuthorization.Introspection
