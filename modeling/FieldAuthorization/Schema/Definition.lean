import FieldAuthorization.Schema.Basic

/-!
Schema documents, and the schema that one describes.

The last definition of a name counts. Extensions apply after all definitions, in document order, so
it does not matter where they stand. Object types are then recorded with the interfaces that they
implement, and last the root types are resolved.
-/

set_option autoImplicit false
set_option relaxedAutoImplicit false

namespace FieldAuthorization

/-- What the definition of a type says about it, or an extension adds to it. -/
inductive TypeBody
  | scalar
  | object (interfaces : List String) (fields : List FieldDef)
  | interface (fields : List FieldDef)
  | union (members : List String)
  | enum
  | inputObject (fields : List InputDef)
deriving DecidableEq

structure RootTypes where
  query : Option String
  mutation : Option String
  subscription : Option String
deriving DecidableEq

inductive SchemaDefinition
  | roots (block : RootTypes)
  | type (name : String) (body : TypeBody)
  | extension (name : String) (body : TypeBody)
  | directive
deriving DecidableEq

structure SchemaDocument where
  definitions : List SchemaDefinition
deriving DecidableEq

def TypeBody.kind : TypeBody → TypeKind
  | .scalar => .scalar
  | .object _ _ => .object
  | .interface _ => .interface
  | .union _ => .union
  | .enum => .enum
  | .inputObject _ => .inputObject

namespace TypeDef

/-- Adds what a body says, whatever the kind of the type. -/
def extend (d : TypeDef) : TypeBody → TypeDef
  | .scalar | .enum => d
  | .object interfaces fields =>
    { d with interfaces := d.interfaces ++ interfaces, fields := d.fields ++ fields }
  | .interface fields => { d with fields := d.fields ++ fields }
  | .union members => { d with possible := d.possible ++ members }
  | .inputObject fields => { d with inputs := d.inputs ++ fields }

/-- The type of the given name that a body defines. -/
def ofBody (name : String) (body : TypeBody) : TypeDef :=
  (TypeDef.empty name body.kind).extend body

end TypeDef

namespace SchemaDocument

def builtinTypes : TypeMap :=
  builtinScalars.foldl (fun types name => types.insert name (TypeDef.empty name .scalar)) ∅

/-- The types as defined, before extensions. -/
def definedTypes (d : SchemaDocument) : TypeMap :=
  d.definitions.foldl
    (fun types definition =>
      match definition with
      | .type name body => types.insert name (TypeDef.ofBody name body)
      | _ => types)
    builtinTypes

/-- The types with all extensions applied; an extension of an undefined type adds nothing. -/
def extendedTypes (d : SchemaDocument) : TypeMap :=
  d.definitions.foldl
    (fun types definition =>
      match definition with
      | .extension name body => types.modify name (·.extend body)
      | _ => types)
    d.definedTypes

/-- The object types that implement an interface, by ascending name; one that lists the interface
several times occurs as often. -/
def implementers (types : TypeMap) (interface : String) : List String :=
  types.toList.flatMap fun (name, d) =>
    if d.kind = .object then List.replicate (d.interfaces.count interface) name else []

/-- The types, with each interface knowing the object types that implement it. -/
def linkedTypes (d : SchemaDocument) : TypeMap :=
  let types := d.extendedTypes
  types.map fun name type =>
    if type.kind = .interface then
      { type with possible := type.possible ++ implementers types name }
    else type

def roots? (d : SchemaDocument) : Option RootTypes :=
  d.definitions.foldl
    (fun roots definition =>
      match definition with
      | .roots block => some block
      | _ => roots)
    none

/-- The root types of a schema block; each must be a type. -/
def resolveBlock (types : TypeMap) (block : RootTypes) : Except SchemaError Schema :=
  match block.query with
  | none => .error .missingQueryType
  | some query =>
    let named := some query :: [block.mutation, block.subscription]
    match (named.filterMap id).find? (fun name => !types.contains name) with
    | some name => .error (.unknownRootType name)
    | none => .ok ⟨types, query, block.mutation, block.subscription⟩

/-- The root types of a schema without a block: the types of conventional name. -/
def resolveByConvention (types : TypeMap) : Except SchemaError Schema :=
  let present (kind : OperationKind) : Option String :=
    if types.contains kind.conventionalType then some kind.conventionalType else none
  match present .query with
  | none => .error .missingQueryType
  | some query => .ok ⟨types, query, present .mutation, present .subscription⟩

def toSchema (d : SchemaDocument) : Except SchemaError Schema :=
  match d.roots? with
  | some block => resolveBlock d.linkedTypes block
  | none => resolveByConvention d.linkedTypes

end SchemaDocument

end FieldAuthorization
