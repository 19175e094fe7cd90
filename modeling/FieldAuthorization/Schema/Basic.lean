import Std.Data.ExtTreeMap
import FieldAuthorization.Document.Basic

/-!
Schemas: named types, their fields, and the root types of operations.

Types are kept by name in a map whose equality is agreement on every name, so two schemas with the
same types are equal in whatever order the types were written.
-/

set_option autoImplicit false
set_option relaxedAutoImplicit false

namespace FieldAuthorization

def builtinScalars : List String :=
  ["Int", "Float", "String", "Boolean", "ID"]

inductive TypeKind
  | object
  | interface
  | union
  | enum
  | scalar
  | inputObject
deriving DecidableEq

namespace TypeKind

def label : TypeKind → String
  | .object => "OBJECT"
  | .interface => "INTERFACE"
  | .union => "UNION"
  | .enum => "ENUM"
  | .scalar => "SCALAR"
  | .inputObject => "INPUT_OBJECT"

/-- Whether selections can be made on types of this kind. -/
def isComposite : TypeKind → Bool
  | .object | .interface | .union => true
  | .enum | .scalar | .inputObject => false

end TypeKind

/-- An argument or an input field with the name of its type, wrappers removed. -/
structure InputDef where
  name : String
  type : String
deriving DecidableEq

/-- An output field with the name of its type, wrappers removed. -/
structure FieldDef where
  name : String
  type : String
  arguments : List InputDef
deriving DecidableEq

/-- A named type. A list that its kind gives no meaning to is empty unless an extension of
another kind fills it. -/
structure TypeDef where
  name : String
  kind : TypeKind
  fields : List FieldDef
  inputs : List InputDef
  interfaces : List String
  possible : List String
deriving DecidableEq

namespace TypeDef

/-- A type of the given name and kind with nothing in it. -/
def empty (name : String) (kind : TypeKind) : TypeDef :=
  ⟨name, kind, [], [], [], []⟩

/-- The first field of the given name. -/
def field? (d : TypeDef) (name : String) : Option FieldDef :=
  d.fields.find? (fun f => f.name == name)

end TypeDef

abbrev TypeMap := Std.ExtTreeMap String TypeDef

structure Schema where
  types : TypeMap
  queryType : String
  mutationType : Option String
  subscriptionType : Option String

namespace Schema

def type? (s : Schema) (name : String) : Option TypeDef :=
  s.types[name]?

/-- The field of the given type and name. -/
def field? (s : Schema) (type field : String) : Option FieldDef :=
  (s.type? type).bind (·.field? field)

/-- The root type for operations of the given kind. -/
def root? (s : Schema) : OperationKind → Option String
  | .query => some s.queryType
  | .mutation => s.mutationType
  | .subscription => s.subscriptionType

end Schema

inductive SchemaError
  | malformed
  | missingQueryType
  | unknownRootType (name : String)
deriving DecidableEq

def SchemaError.message : SchemaError → String
  | .malformed => "Failed to parse schema: "
  | .missingQueryType => "Schema has no query root type"
  | .unknownRootType name => "Root type '" ++ name ++ "' is not defined in the schema"

end FieldAuthorization
