import FieldAuthorization.Introspection.Names
import FieldAuthorization.Redaction.Authority
import FieldAuthorization.Redaction.Prune
import FieldAuthorization.Settings.Basic

/-!
Redaction: a query without the fields that its caller may not select.

The chosen operation and every fragment are redacted on their own, each field against the type that
encloses it. Introspection fields are kept, since what they return is filtered.
-/

set_option autoImplicit false
set_option relaxedAutoImplicit false

namespace FieldAuthorization

namespace Definition

def isOperation : Definition → Bool
  | .operation _ => true
  | .fragment _ => false

/-- Whether the definition is an operation of the given name. -/
def isOperationNamed (name : String) : Definition → Bool
  | .operation o => o.name == some name
  | .fragment _ => false

end Definition

namespace Document

/-- The index of the operation to execute: the first of the given name, or the only one. -/
def chosenIndex (d : Document) : Option String → Except QueryError Nat
  | some name =>
    match d.definitions.findIdx? (·.isOperationNamed name) with
    | some i => .ok i
    | none => .error (.unknownOperation name)
  | none =>
    match d.operations with
    | [] => .error .noOperation
    | [_] => .ok (d.definitions.findIdx (·.isOperation))
    | _ => .error .ambiguousOperation

/-- The document without operations other than the one at an index. -/
def withoutOthers (d : Document) (chosen : Nat) : Document :=
  ⟨(d.definitions.zipIdx.filter (fun (x, i) => !x.isOperation || i == chosen)).map Prod.fst⟩

/-- The document with the operation to execute as its only operation. -/
def restrict (d : Document) (name : Option String) : Except QueryError Document :=
  (d.chosenIndex name).map d.withoutOthers

end Document

/-- A redacted document with the denied fields in document order. -/
structure Redaction where
  document : Document
  denials : List Denial

namespace Redaction

mutual

/-- What is left of a selection on a type. -/
def redactSelection (a : Authority) (policy : EmptySelections) (parent : String) :
    Selection → Option Selection
  | .field head items =>
    if isMeta head.name then some (.field head (Introspection.withEntryNames head items))
    else
      match a.judge parent head items with
      | .error _ => none
      | .ok type =>
        let kept := redactSelections a policy type items
        if !items.isEmpty && kept.isEmpty && policy = .prune then none
        else some (.field head kept)
  | .spread head => some (.spread head)
  | .inline head items =>
    let kept := redactSelections a policy (head.condition.getD parent) items
    if kept.isEmpty && policy = .prune then none else some (.inline head kept)

def redactSelections (a : Authority) (policy : EmptySelections) (parent : String) :
    List Selection → List Selection
  | [] => []
  | item :: rest =>
    match redactSelection a policy parent item with
    | some kept => kept :: redactSelections a policy parent rest
    | none => redactSelections a policy parent rest

end

mutual

/-- The denied fields of a selection on a type; `path` holds the response keys of the fields
around it. Nothing below a denied field is looked at. -/
def denialsIn (a : Authority) (root : RedactionRoot) (parent : String) (path : List String) :
    Selection → List Denial
  | .field head items =>
    if isMeta head.name then []
    else
      let path := path ++ [head.responseKey]
      match a.judge parent head items with
      | .error reason => [⟨root, path, parent, head.name, head.position, reason⟩]
      | .ok type => denialsInAll a root type path items
  | .spread _ => []
  | .inline head items => denialsInAll a root (head.condition.getD parent) path items

/-- The denied fields of selections on a type, in order. -/
def denialsInAll (a : Authority) (root : RedactionRoot) (parent : String) (path : List String) :
    List Selection → List Denial
  | [] => []
  | item :: rest => denialsIn a root parent path item ++ denialsInAll a root parent path rest

end

/-- What is left of a definition. A fragment on an introspection type can only be spread below
introspection fields, so names are added to it and nothing is taken out. -/
def redactDefinition (a : Authority) (policy : EmptySelections) : Definition → Definition
  | .operation o =>
    .operation { o with items := redactSelections a policy (a.rootType o.kind) o.items }
  | .fragment f =>
    if isMeta f.condition then
      .fragment { f with items := Introspection.withNestedNamesAll f.condition f.items }
    else .fragment { f with items := redactSelections a policy f.condition f.items }

def denialsInDefinition (a : Authority) : Definition → List Denial
  | .operation o => denialsInAll a (.operation o.name) (a.rootType o.kind) [] o.items
  | .fragment f =>
    if isMeta f.condition then [] else denialsInAll a (.fragment f.name) f.condition [] f.items

def redactDocument (a : Authority) (policy : EmptySelections) (d : Document) : Document :=
  let redacted : Document := ⟨d.definitions.map (redactDefinition a policy)⟩
  match policy with
  | .prune => Prune.pruneDocument redacted
  | .keep => redacted

/-- Redacts the operation of the given name, or the only one, and every fragment. -/
def redact (a : Authority) (policy : EmptySelections) (d : Document) (name : Option String) :
    Except QueryError Redaction :=
  match d.restrict name with
  | .error e => .error e
  | .ok d => .ok ⟨redactDocument a policy d, d.definitions.flatMap (denialsInDefinition a)⟩

end Redaction

end FieldAuthorization
