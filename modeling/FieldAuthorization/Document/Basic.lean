/-!
Query documents: operations and fragments over selections of fields.

A selection owns the list of selections below it, so functions on documents recurse through
`Selection` and `List Selection` together.
-/

set_option autoImplicit false
set_option relaxedAutoImplicit false

namespace FieldAuthorization

/-- A place in a text; lines and columns count from one. -/
structure Position where
  line : Nat
  column : Nat
deriving DecidableEq

def Position.text (p : Position) : String :=
  toString p.line ++ ":" ++ toString p.column

/-- A reference to a type through list and non-null wrappers. -/
inductive TypeRef
  | named (name : String)
  | list (item : TypeRef)
  | nonNull (inner : TypeRef)
deriving DecidableEq

def TypeRef.baseName : TypeRef → String
  | .named name => name
  | .list item => item.baseName
  | .nonNull inner => inner.baseName

/-- Literal values; the members of an object are ascending by key. -/
inductive Value
  | var (name : String)
  | int (n : Int)
  | float (x : Float)
  | text (s : String)
  | boolean (b : Bool)
  | null
  | enum (name : String)
  | list (items : List Value)
  | object (members : List (String × Value))

/-- Inserts a member into members ascending by key, in place of one with the same key. -/
def Value.insertMember (key : String) (value : Value) :
    List (String × Value) → List (String × Value)
  | [] => [(key, value)]
  | (k, v) :: rest =>
    if key < k then (key, value) :: (k, v) :: rest
    else if key = k then (key, value) :: rest
    else (k, v) :: insertMember key value rest

/-- The object with the given members, of which the last with a key counts. -/
def Value.ofMembers (members : List (String × Value)) : Value :=
  .object (members.foldl (fun sorted (k, v) => insertMember k v sorted) [])

structure Directive where
  position : Position
  name : String
  arguments : List (String × Value)

/-- A field as selected, without the selections below it. `opening` and `closing` are the places of
the braces around those, and the field's own place if it has none. -/
structure Field where
  position : Position
  opening : Position
  closing : Position
  aliasName : Option String
  name : String
  arguments : List (String × Value)
  directives : List Directive

/-- The key under which the field's value is returned. -/
def Field.responseKey (f : Field) : String :=
  f.aliasName.getD f.name

structure Spread where
  position : Position
  name : String
  directives : List Directive

/-- An inline fragment without the selections below it. -/
structure InlineFragment where
  position : Position
  opening : Position
  closing : Position
  condition : Option String
  directives : List Directive

inductive Selection
  | field (head : Field) (items : List Selection)
  | spread (head : Spread)
  | inline (head : InlineFragment) (items : List Selection)

inductive OperationKind
  | query
  | mutation
  | subscription
deriving DecidableEq

/-- The word that introduces an operation of this kind. -/
def OperationKind.keyword : OperationKind → String
  | .query => "query"
  | .mutation => "mutation"
  | .subscription => "subscription"

/-- The name that the root type of this kind has by convention. -/
def OperationKind.conventionalType : OperationKind → String
  | .query => "Query"
  | .mutation => "Mutation"
  | .subscription => "Subscription"

structure VariableDefinition where
  position : Position
  name : String
  type : TypeRef
  initial : Option Value

structure Heading where
  position : Position
  kind : OperationKind
  name : Option String
  variableDefs : List VariableDefinition
  directives : List Directive

/-- An operation; without a heading it is an anonymous query. -/
structure Operation where
  heading : Option Heading
  opening : Position
  closing : Position
  items : List Selection

namespace Operation

def kind (o : Operation) : OperationKind :=
  match o.heading with
  | some heading => heading.kind
  | none => .query

def name (o : Operation) : Option String :=
  o.heading.bind Heading.name

end Operation

structure Fragment where
  position : Position
  opening : Position
  closing : Position
  name : String
  condition : String
  directives : List Directive
  items : List Selection

inductive Definition
  | operation (o : Operation)
  | fragment (f : Fragment)

structure Document where
  definitions : List Definition

namespace Document

def operations (d : Document) : List Operation :=
  d.definitions.filterMap fun
    | .operation o => some o
    | .fragment _ => none

def fragments (d : Document) : List Fragment :=
  d.definitions.filterMap fun
    | .operation _ => none
    | .fragment f => some f

/-- The fragment of a name; of several the last counts. -/
def fragment? (d : Document) (name : String) : Option Fragment :=
  d.fragments.reverse.find? (fun f => f.name == name)

end Document

/-- Names that begin with two underscores belong to introspection. -/
def isMeta (name : String) : Bool :=
  ['_', '_'].isPrefixOf name.toList

/-- Why a query text is refused, or no operation of it can be chosen. -/
inductive QueryError
  | malformed
  | noOperation
  | unknownOperation (name : String)
  | ambiguousOperation
deriving DecidableEq

def QueryError.message : QueryError → String
  | .malformed => "Failed to parse query: "
  | .noOperation => "Document contains no operation"
  | .unknownOperation name => "Unknown operation named '" ++ name ++ "'"
  | .ambiguousOperation =>
    "Document contains several operations; an operation name is required"

end FieldAuthorization
