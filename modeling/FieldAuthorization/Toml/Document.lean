import FieldAuthorization.Toml.Parser

/-!
The meaning of TOML statements: the tables and lists that they build up together.

A table is entered through the headers and dotted keys of its members, but each way of writing a
table excludes some of the others; a document that mixes them has no meaning.
-/

set_option autoImplicit false
set_option relaxedAutoImplicit false

namespace FieldAuthorization.Toml

/-- How a table has come up. -/
inductive Origin
  /-- Only as the parent of a table with a header. -/
  | implicit
  /-- Inside a dotted key. -/
  | dotted
  /-- By its own header. -/
  | explicit
deriving DecidableEq

/-- A value that may still grow, by later statements of its document. -/
inductive Node
  | value (v : Setting)
  | table (origin : Origin) (entries : List (String × Node))
  /-- A list of tables, of which only the last grows. -/
  | tables (earlier : List (List (String × Node))) (last : List (String × Node))

abbrev Entries := List (String × Node)

namespace Entries

def add (key : String) (node : Node) (entries : Entries) : Option Entries :=
  if (entries.lookup key).isSome then none else some (entries ++ [(key, node)])

def replace (key : String) (node : Node) (entries : Entries) : Entries :=
  entries.map (fun (k, old) => if k = key then (k, node) else (k, old))

/-- Changes the table at a path; tables that are missing on the way come up with the given origin.
A dotted key does not enter a table that has its own header. -/
def changeAt (created : Origin) : (path : List String) →
    (change : Origin → Entries → Option Entries) → Origin → Entries → Option Entries
  | [], change, origin, entries => change origin entries
  | key :: path, change, _, entries =>
    match entries.lookup key with
    | none => do
      let inner ← changeAt created path change created []
      return entries ++ [(key, .table created inner)]
    | some (.table origin inner) =>
      if created = .dotted ∧ origin = .explicit then none
      else do
        let inner ← changeAt created path change origin inner
        return entries.replace key (.table origin inner)
    | some (.tables earlier last) => do
      let last ← changeAt created path change .explicit last
      return entries.replace key (.tables earlier last)
    | some (.value _) => none

/-- Begins a table by its header: the table is new, or has come up only as a parent. -/
def begin (key : String) (entries : Entries) : Option Entries :=
  match entries.lookup key with
  | none => entries.add key (.table .explicit [])
  | some (.table .implicit inner) => some (entries.replace key (.table .explicit inner))
  | _ => none

/-- Begins a new table at the end of a list of tables. -/
def beginElement (key : String) (entries : Entries) : Option Entries :=
  match entries.lookup key with
  | none => entries.add key (.tables [] [])
  | some (.tables earlier last) => some (entries.replace key (.tables (earlier ++ [last]) []))
  | _ => none

/-- Adds a value under a dotted key. Below the first key, only tables that have come up inside
dotted keys take it. -/
def addAt (path : List String) (v : Setting) (entries : Entries) : Option Entries :=
  match path.getLast? with
  | none => none
  | some key =>
    let parents := path.dropLast
    changeAt .dotted parents (fun origin inner =>
      if parents.isEmpty ∨ origin = .dotted then inner.add key (.value v) else none)
      .explicit entries

end Entries

mutual

def Node.toSetting : Node → Setting
  | .value v => v
  | .table _ entries => .table (members entries)
  | .tables earlier last => .list (elements earlier ++ [.table (members last)])

def members : List (String × Node) → List (String × Setting)
  | [] => []
  | (key, node) :: rest => (key, node.toSetting) :: members rest

def elements : List (List (String × Node)) → List Setting
  | [] => []
  | entries :: rest => .table (members entries) :: elements rest

end

mutual

/-- The value of an expression; nothing if an inline table mixes its keys up. -/
def Expr.value? : Expr → Option Setting
  | .scalar v => some v
  | .array items => (values? items).map .list
  | .inline entries => (inlineEntries? entries []).map (fun entries => .table (members entries))

def values? : List Expr → Option (List Setting)
  | [] => some []
  | e :: rest => do
    let v ← e.value?
    return v :: (← values? rest)

/-- Adds the entries of an inline table to those before them. -/
def inlineEntries? : List (List String × Expr) → Entries → Option Entries
  | [], before => some before
  | (path, e) :: rest, before => do
    let v ← e.value?
    inlineEntries? rest (← before.addAt path v)

end

/-- A document as far as it has been read: what it holds, and the path of the table that entries
go to. -/
structure Progress where
  root : Entries
  current : List String

def Progress.header (p : Progress) (path : List String)
    (begin : String → Entries → Option Entries) : Option Progress :=
  match path.getLast? with
  | none => none
  | some key => do
    let root ← Entries.changeAt .implicit path.dropLast (fun _ entries => begin key entries)
      .explicit p.root
    return ⟨root, path⟩

def Progress.step (p : Progress) : Statement → Option Progress
  | .table path => p.header path (fun key entries => entries.begin key)
  | .element path => p.header path (fun key entries => entries.beginElement key)
  | .entry path e => do
    let v ← e.value?
    let root ← Entries.changeAt .implicit p.current (fun _ entries => entries.addAt path v)
      .explicit p.root
    return { p with root := root }

def read? (s : String) : Option (List (String × Setting)) := do
  let statements ← parse? s
  let p ← statements.foldlM Progress.step ⟨[], []⟩
  return members p.root

end FieldAuthorization.Toml
