import FieldAuthorization.Document.Basic
import FieldAuthorization.Proofs.Introspection.Filtering

/-!
What a host answers to introspection, and what of it a caller may see.

A host has an object for everything that a schema contains, and answers a set of selections on an
object with the members that the fields of the set name, each under its response key. Selections of
inline fragments and of spread fragments count as selected in their place. An answer is given to a
depth, since fragments may spread each other and types refer to each other without end.
-/

set_option autoImplicit false
set_option relaxedAutoImplicit false

namespace FieldAuthorization.Introspection

/-- What an object of introspection describes. -/
inductive Origin
  | schema
  /-- A type; a list or non-null wrapper has no name. -/
  | type (name : Option String)
  | field (parent name : String)
  | input
  | directive

def Origin.typename : Origin → String
  | .schema => "__Schema"
  | .type _ => "__Type"
  | .field _ _ => "__Field"
  | .input => "__InputValue"
  | .directive => "__Directive"

/-- A field of an object may return an object of the other origin. The fields of a type are its
own. -/
def Origin.Returns (origin : Origin) (field : String) (child : Origin) : Prop :=
  childType? origin.typename field = some child.typename ∧
    ∀ parent name, child = .field parent name → origin = .type (some parent)

section Returns

variable {field : String} {child : Origin}

theorem mem_of_childType?_eq_some {type returned : String}
    (h : childType? type field = some returned) : (type, field, returned) ∈
      [("__Schema", "types", "__Type"), ("__Schema", "queryType", "__Type"),
        ("__Schema", "mutationType", "__Type"), ("__Schema", "subscriptionType", "__Type"),
        ("__Schema", "directives", "__Directive"), ("__Type", "fields", "__Field"),
        ("__Type", "interfaces", "__Type"), ("__Type", "possibleTypes", "__Type"),
        ("__Type", "ofType", "__Type"), ("__Type", "inputFields", "__InputValue"),
        ("__Field", "args", "__InputValue"), ("__Directive", "args", "__InputValue"),
        ("__Field", "type", "__Type"), ("__InputValue", "type", "__Type")] := by
  unfold childType? at h
  split at h <;> simp_all

theorem returns_schema (h : Origin.schema.Returns field child) :
    (∃ name, child = .type name) ∧
        field ∈ ["types", "queryType", "mutationType", "subscriptionType"] ∨
      child = .directive ∧ field = "directives" := by
  have hmem := mem_of_childType?_eq_some h.1
  cases child <;> simp_all [Origin.typename]

theorem returns_type {name : Option String} (h : (Origin.type name).Returns field child) :
    (∃ parent own, name = some parent ∧ child = .field parent own) ∧ field = "fields" ∨
      (∃ other, child = .type other) ∧ field ∈ ["interfaces", "possibleTypes", "ofType"] ∨
      child = .input ∧ field = "inputFields" := by
  have hmem := mem_of_childType?_eq_some h.1
  have hparent := h.2
  cases child <;> simp_all [Origin.typename]

theorem returns_field {parent name : String} (h : (Origin.field parent name).Returns field child) :
    (∃ other, child = .type other) ∧ field = "type" ∨ child = .input ∧ field = "args" := by
  have hmem := mem_of_childType?_eq_some h.1
  cases child <;> simp_all [Origin.typename]

theorem returns_input (h : Origin.input.Returns field child) :
    (∃ other, child = .type other) ∧ field = "type" := by
  have hmem := mem_of_childType?_eq_some h.1
  cases child <;> simp_all [Origin.typename]

theorem returns_directive (h : Origin.directive.Returns field child) :
    child = .input ∧ field = "args" := by
  have hmem := mem_of_childType?_eq_some h.1
  cases child <;> simp_all [Origin.typename]

end Returns

def returnsList (field : String) : Bool :=
  ["types", "directives", "fields", "interfaces", "possibleTypes", "inputFields", "args"].contains
    field

/-- What a field of an object returns. -/
inductive Member (Object : Type)
  | leaf (value : Json)
  | object (o : Object)
  | list (objects : List Object)

namespace Member

variable {Object : Type}

/-- The field returns null, or objects with a property: a list of them, or a single one. -/
def Holds (list : Bool) (p : Object → Prop) : Member Object → Prop
  | .leaf value => value = .null
  | .object o => list = false ∧ p o
  | .list objects => list = true ∧ ∀ o ∈ objects, p o

/-- The value of the field, where `answer` is the value of an object with selections on it. -/
def project (answer : Object → List Selection → Json) : Member Object → List Selection → Json
  | .leaf value, _ => value
  | .object o, items => answer o items
  | .list objects, items => .array (objects.map (answer · items))

/-- A value is left of the field's value, where `safe` says so of an object's value. Of a list the
values of some of the objects are left, in their order. -/
def Leaves (safe : Object → List Selection → Json → Prop) :
    Member Object → List Selection → Json → Prop
  | .leaf value, _, left => Cut left value
  | .object o, items, left => safe o items left
  | .list objects, items, left =>
    ∃ entries, left = .array entries ∧
      List.SublistForall₂ (fun entry o => safe o items entry) entries objects

end Member

/-- A host of introspection. Types and fields return their names, fields that return no objects
return leaves, and the others return objects of their type. -/
structure Host (Object : Type) where
  origin : Object → Origin
  entry : (field : String) → (arguments : List (String × Value)) → Member Object
  member : Object → (field : String) → (arguments : List (String × Value)) → Member Object
  entry_holds : ∀ field arguments type, entryType? field = some type →
    (entry field arguments).Holds false fun o => (origin o).typename = type
  type_name : ∀ o name arguments, origin o = .type name →
    member o "name" arguments = .leaf (name.elim .null .text)
  field_name : ∀ o parent name arguments, origin o = .field parent name →
    member o "name" arguments = .leaf (.text name)
  member_leaf : ∀ o field arguments, childType? (origin o).typename field = none →
    ∃ value, member o field arguments = .leaf value
  member_holds : ∀ o field arguments child, childType? (origin o).typename field = some child →
    (member o field arguments).Holds (returnsList field) fun other =>
      (origin o).Returns field (origin other)

mutual

/-- The fields that a selection selects on a type with what is selected below them; `spread` gives
those of the fragment of a name. -/
def collectSelection (type : String) (spread : String → List (Field × List Selection)) :
    Selection → List (Field × List Selection)
  | .field head items => [(head, items)]
  | .spread head => spread head.name
  | .inline head items =>
    if head.condition.getD type = type then collectSelections type spread items else []

def collectSelections (type : String) (spread : String → List (Field × List Selection)) :
    List Selection → List (Field × List Selection)
  | [] => []
  | item :: rest => collectSelection type spread item ++ collectSelections type spread rest

end

theorem collectSelections_eq_flatMap (type : String)
    (spread : String → List (Field × List Selection)) (items : List Selection) :
    collectSelections type spread items = items.flatMap (collectSelection type spread) := by
  induction items with
  | nil => simp [collectSelections]
  | cons x rest ih => rw [collectSelections, ih, List.flatMap_cons]

def collectFragment (d : Document) (type : String) :
    (depth : Nat) → String → List (Field × List Selection)
  | 0, _ => []
  | depth + 1, name =>
    match d.fragment? name with
    | some f =>
      if f.condition = type then collectSelections type (collectFragment d type depth) f.items
      else []
    | none => []

/-- The fields with a response key that none before them has. -/
def firsts : List Field → List Field
  | [] => []
  | head :: rest => head :: (firsts rest).filter (·.responseKey != head.responseKey)

/-- What is selected below the fields with the key and the name of a field. -/
def merged (collected : List (Field × List Selection)) (head : Field) : List Selection :=
  collected.flatMap fun (other, items) =>
    if other.responseKey = head.responseKey ∧ other.name = head.name then items else []

/-- The fields that selections select on a type, one for each key, with all that is selected below
them. -/
def selected (d : Document) (type : String) (depth : Nat) (items : List Selection) :
    List (Field × List Selection) :=
  let collected := collectSelections type (collectFragment d type depth) items
  (firsts (collected.map Prod.fst)).map fun head => (head, merged collected head)

namespace Host

variable {Object : Type} (host : Host Object) (d : Document)

/-- The value of an object with selections on it, to a depth. -/
def answer : (depth : Nat) → Object → List Selection → Json
  | 0, _, _ => .null
  | depth + 1, o, items =>
    .object ((selected d (host.origin o).typename depth items).map fun (head, below) =>
      (head.responseKey, (host.member o head.name head.arguments).project (answer depth) below))

def answerMembers (depth : Nat) (o : Object) (items : List Selection) : Json.Members :=
  (selected d (host.origin o).typename depth items).map fun (head, below) =>
    (head.responseKey,
      (host.member o head.name head.arguments).project (host.answer d depth) below)

theorem answer_succ (depth : Nat) (o : Object) (items : List Selection) :
    host.answer d (depth + 1) o items = .object (host.answerMembers d depth o items) := by
  rw [answer, answerMembers]

theorem mem_answerMembers {depth : Nat} {o : Object} {items : List Selection} {key : String}
    {value : Json} :
    (key, value) ∈ host.answerMembers d depth o items ↔
      ∃ head below, (head, below) ∈ selected d (host.origin o).typename depth items ∧
        head.responseKey = key ∧
        (host.member o head.name head.arguments).project (host.answer d depth) below = value := by
  simp [answerMembers]

def answerEntry (depth : Nat) (field : String) (arguments : List (String × Value))
    (items : List Selection) : Json :=
  (host.entry field arguments).project (host.answer d depth) items

variable (v : Verifier)

/-- The object describes no hidden type and no field that may not be selected; fields whose names
begin with two underscores are never kept from a caller. -/
def Visible (o : Object) : Prop :=
  match host.origin o with
  | .type (some name) => v.showsType name = true
  | .field parent name => isMeta name = true ∨ v.allows parent name = true
  | _ => True

/-- What is left of the value of an object shows nothing but visible objects, of which the object
itself need not be one if it is exempt. Only the query root is exempt among all other objects. -/
def Safe : (depth : Nat) → (exempt : Prop) → Object → List Selection → Json → Prop
  | 0, _, _, _, left => left = .null
  | depth + 1, exempt, o, items, left =>
    left = .null ∨ ((exempt ∨ host.Visible v o) ∧ ∃ members, left = .object members ∧
      ∀ key value, (key, value) ∈ members → ∃ head below,
        (head, below) ∈ selected d (host.origin o).typename depth items ∧ head.responseKey = key ∧
        (host.member o head.name head.arguments).Leaves
          (Safe depth ((host.origin o).typename = "__Schema" ∧ head.name = "queryType")) below
          value)

def SafeEntry (depth : Nat) (field : String) (arguments : List (String × Value))
    (items : List Selection) (left : Json) : Prop :=
  (host.entry field arguments).Leaves (host.Safe d v depth False) items left

end Host

end FieldAuthorization.Introspection
