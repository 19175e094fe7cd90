import FieldAuthorization.Decimal
import FieldAuthorization.Document.Basic
import FieldAuthorization.Document.Token
import FieldAuthorization.Text.Blank

/-!
Writing query documents: two blanks per level, one selection per line, an empty line between
definitions.
-/

set_option autoImplicit false
set_option relaxedAutoImplicit false

namespace FieldAuthorization

def indent (level : Nat) : String :=
  String.ofList (List.replicate (2 * level) ' ')

namespace TypeRef

def print : TypeRef → String
  | .named name => name
  | .list item => "[" ++ item.print ++ "]"
  | .nonNull inner => inner.print ++ "!"

end TypeRef

namespace Value

/-- The characters that a quoted text may hold as they are. -/
def isPlain (c : Char) : Bool :=
  ' ' ≤ c && c ≤ '\uffff'

/-- A character inside quotes; one that may not stand as it is is named by its code point in
decimal, four digits at least. -/
def quoteChar (c : Char) : String :=
  match c with
  | '\r' => "\\r"
  | '\n' => "\\n"
  | '\t' => "\\t"
  | '"' => "\\\""
  | '\\' => "\\\\"
  | c =>
    if isPlain c then String.singleton c
    else
      let digits := toString c.toNat
      "\\u" ++ String.ofList (List.replicate (4 - digits.length) '0') ++ digits

def escapeQuotes : List Char → List Char
  | '"' :: '"' :: '"' :: rest => '\\' :: '"' :: '"' :: '"' :: escapeQuotes rest
  | c :: rest => c :: escapeQuotes rest
  | [] => []

/-- A text at a level: in block form if it has a line feed and nothing that needs an escape. -/
def printText (level : Nat) (s : String) : String :=
  let characters := s.toList
  let isBlockChar (c : Char) : Bool := c == '\r' || c == '\n' || c == '\t' || isPlain c
  if characters.any (· == '\n') && characters.all isBlockChar then
    let line (s : List Char) : String :=
      if s.all Text.isBlank then "\n"
      else indent (level + 1) ++ String.ofList (escapeQuotes s) ++ "\n"
    "\"\"\"\n" ++ String.join ((Token.lines characters).map line) ++ indent level ++ "\"\"\""
  else
    "\"" ++ String.join (characters.map quoteChar) ++ "\""

mutual

def print (level : Nat) : Value → String
  | .var name => "$" ++ name
  | .int n => toString n
  | .float x => Decimal.ofFloatText x
  | .text s => printText level s
  | .boolean b => if b then "true" else "false"
  | .null => "null"
  | .enum name => name
  | .list items => "[" ++ ", ".intercalate (printItems level items) ++ "]"
  | .object members => "\x7b" ++ ", ".intercalate (printMembers level members) ++ "\x7d"

def printItems (level : Nat) : List Value → List String
  | [] => []
  | item :: rest => print level item :: printItems level rest

def printMembers (level : Nat) : List (String × Value) → List String
  | [] => []
  | (key, value) :: rest => (key ++ ": " ++ print level value) :: printMembers level rest

end

end Value

/-- Arguments in parentheses, nothing if there are none. -/
def printArguments (level : Nat) (arguments : List (String × Value)) : String :=
  if arguments.isEmpty then ""
  else "(" ++ ", ".intercalate (Value.printMembers level arguments) ++ ")"

def printDirectives (level : Nat) (directives : List Directive) : String :=
  String.join (directives.map fun d => " @" ++ d.name ++ printArguments level d.arguments)

mutual

def Selection.print (level : Nat) : Selection → String
  | .field head items =>
    let aliasText := match head.aliasName with
      | some word => word ++ ": "
      | none => ""
    indent level ++ aliasText ++ head.name ++ printArguments level head.arguments
      ++ printDirectives level head.directives
      ++ (if items.isEmpty then "\n"
          else " \x7b\n" ++ Selection.printAll (level + 1) items ++ indent level ++ "\x7d\n")
  | .spread head =>
    indent level ++ "..." ++ head.name ++ printDirectives level head.directives ++ "\n"
  | .inline head items =>
    let condition := match head.condition with
      | some word => " on " ++ word
      | none => ""
    indent level ++ "..." ++ condition ++ printDirectives level head.directives
      ++ " \x7b\n" ++ Selection.printAll (level + 1) items ++ indent level ++ "\x7d\n"

def Selection.printAll (level : Nat) : List Selection → String
  | [] => ""
  | item :: rest => Selection.print level item ++ Selection.printAll level rest

end

def VariableDefinition.print (v : VariableDefinition) : String :=
  "$" ++ v.name ++ ": " ++ v.type.print
    ++ (match v.initial with
        | some value => " = " ++ value.print 0
        | none => "")

/-- The line before an operation's braces. Variables of a subscription are written only if it has
a name, and then without anything between them. -/
def Heading.print (h : Heading) : String :=
  let word := match h.name with
    | some word => " " ++ word
    | none => ""
  let separator := match h.kind with
    | .subscription => ""
    | _ => ", "
  let showsVariables := !h.variableDefs.isEmpty && (h.kind != .subscription || h.name.isSome)
  h.kind.keyword ++ word
    ++ (if showsVariables then
          "(" ++ separator.intercalate (h.variableDefs.map VariableDefinition.print) ++ ")"
        else "")
    ++ printDirectives 0 h.directives ++ " "

def printBraces (items : List Selection) : String :=
  "\x7b\n" ++ Selection.printAll 1 items ++ "\x7d\n"

def Definition.print : Definition → String
  | .operation o =>
    (match o.heading with
      | some heading => heading.print
      | none => "") ++ printBraces o.items
  | .fragment f =>
    "fragment " ++ f.name ++ " on " ++ f.condition ++ printDirectives 0 f.directives ++ " "
      ++ printBraces f.items

def Document.print (d : Document) : String :=
  "\n".intercalate (d.definitions.map Definition.print)

end FieldAuthorization
