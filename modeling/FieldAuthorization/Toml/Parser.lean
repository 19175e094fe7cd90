import FieldAuthorization.Toml.Quoted
import FieldAuthorization.Toml.Scalar

/-!
The syntax of TOML: a document is a list of statements, each a table header or an entry.
-/

set_option autoImplicit false
set_option relaxedAutoImplicit false

namespace FieldAuthorization.Toml

/-- A value as written. The keys of an inline table may be dotted. -/
inductive Expr
  | scalar (v : Setting)
  | array (items : List Expr)
  | inline (entries : List (List String × Expr))

inductive Statement
  /-- Begins the table at a path. -/
  | table (path : List String)
  /-- Begins a new table at the end of the list at a path. -/
  | element (path : List String)
  | entry (path : List String) (value : Expr)

/-! ### Layout -/

/-- Passes over spaces, ends of lines and comments; `fuel` is at least the number of lines. -/
def skipLayoutWithin : (fuel : Nat) → List Char → List Char
  | 0, s => s
  | fuel + 1, s =>
    match s.dropWhile isSpace with
    | '#' :: s => skipLayoutWithin fuel (s.dropWhile isTextChar)
    | s =>
      match newline? s with
      | some s => skipLayoutWithin fuel s
      | none => s

/-- Passes over spaces, ends of lines and comments. -/
def skipLayout (s : List Char) : List Char :=
  skipLayoutWithin (s.length + 1) s

/-- The end of a statement: perhaps a comment, then the end of the line or of the text. -/
def endOfLine? (s : List Char) : Option (List Char) :=
  let s := s.dropWhile isSpace
  let s := match s with
    | '#' :: s => s.dropWhile isTextChar
    | s => s
  match s with
  | [] => some []
  | s => newline? s

/-! ### Keys -/

def isBareChar (c : Char) : Bool :=
  c.isAlphanum || c = '_' || c = '-'

def simpleKey? (s : List Char) : Option (String × List Char) :=
  match s.takeWhile isBareChar with
  | [] => (line? s).map (fun (key, s) => (String.ofList key, s))
  | key => some (String.ofList key, s.dropWhile isBareChar)

/-- Keys with points between them; `fuel` is more than the number of characters. -/
def keyWithin? : (fuel : Nat) → List Char → Option (List String × List Char)
  | 0, _ => none
  | fuel + 1, s => do
    let (key, s) ← simpleKey? (s.dropWhile isSpace)
    match s.dropWhile isSpace with
    | '.' :: s => do
      let (path, s) ← keyWithin? fuel s
      return (key :: path, s)
    | s => return ([key], s)

def key? (s : List Char) : Option (List String × List Char) :=
  keyWithin? (s.length + 1) s

/-! ### Values -/

/-- The greatest depth of arrays and inline tables. -/
def maxDepth : Nat := 80

mutual

/-- A value inside which arrays and inline tables nest at most `depth` deep; `fuel` is at least
twice the number of characters. -/
def value? (depth : Nat) : (fuel : Nat) → List Char → Option (Expr × List Char)
  | 0, _ => none
  | _, [] => none
  | fuel + 1, c :: s =>
    if c = '[' then
      match depth with
      | 0 => none
      | depth + 1 => (items? depth fuel (skipLayout s)).map (fun (items, s) => (.array items, s))
    else if c = '\x7b' then
      match depth with
      | 0 => none
      | depth + 1 =>
        (entries? depth fuel (skipLayout s)).map (fun (entries, s) => (.inline entries, s))
    else if c = '"' || c = '\'' then
      (quoted? (c :: s)).map (fun (text, s) => (.scalar (.text (String.ofList text)), s))
    else
      let (span, s) := scalarSpan (c :: s)
      (scalar? span).map (fun v => (.scalar v, s))

/-- The items of an array up to its closing bracket; a comma may follow the last. -/
def items? (depth : Nat) : (fuel : Nat) → List Char → Option (List Expr × List Char)
  | _, ']' :: s => some ([], s)
  | 0, _ => none
  | fuel + 1, s => do
    let (item, s) ← value? depth fuel s
    match skipLayout s with
    | ',' :: s => do
      let (rest, s) ← items? depth fuel (skipLayout s)
      return (item :: rest, s)
    | ']' :: s => return ([item], s)
    | _ => none

/-- The entries of an inline table up to its closing brace; a comma may follow the last. -/
def entries? (depth : Nat) :
    (fuel : Nat) → List Char → Option (List (List String × Expr) × List Char)
  | _, '\x7d' :: s => some ([], s)
  | 0, _ => none
  | fuel + 1, s => do
    let (path, s) ← key? s
    let s ← match s with
      | '=' :: s => some (s.dropWhile isSpace)
      | _ => none
    let (value, s) ← value? depth fuel s
    match skipLayout s with
    | ',' :: s => do
      let (rest, s) ← entries? depth fuel (skipLayout s)
      return ((path, value) :: rest, s)
    | '\x7d' :: s => return ([(path, value)], s)
    | _ => none

end

/-! ### Statements -/

def statement? : List Char → Option (Statement × List Char)
  | '[' :: '[' :: s => do
    match ← key? s with
    | (path, ']' :: ']' :: s) => return (.element path, s)
    | _ => none
  | '[' :: s => do
    match ← key? s with
    | (path, ']' :: s) => return (.table path, s)
    | _ => none
  | s => do
    match ← key? s with
    | (path, '=' :: s) => do
      let s := s.dropWhile isSpace
      let (value, s) ← value? maxDepth (2 * s.length + 1) s
      return (.entry path value, s)
    | _ => none

/-- Statements up to the end of the text; `fuel` is more than their number. -/
def statements? : (fuel : Nat) → List Char → Option (List Statement)
  | 0, _ => none
  | fuel + 1, s =>
    match skipLayout s with
    | [] => some []
    | s => do
      let (statement, s) ← statement? s
      return statement :: (← statements? fuel (← endOfLine? s))

/-- The statements of a document; a byte order mark in front does not count. -/
def parse? (s : String) : Option (List Statement) :=
  let s := match s.toList with
    | '\ufeff' :: s => s
    | s => s
  statements? (s.length + 1) s

end FieldAuthorization.Toml
