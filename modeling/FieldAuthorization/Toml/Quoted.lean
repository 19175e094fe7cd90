import FieldAuthorization.Decimal

/-!
Quoted texts of TOML: with escapes between quotes, literally between apostrophes, and either on
several lines between three of them.
-/

set_option autoImplicit false
set_option relaxedAutoImplicit false

namespace FieldAuthorization.Toml

/-- The characters that may stand in a text or a comment: all but control characters, and tabs. -/
def isTextChar (c : Char) : Bool :=
  c = '\t' || (' ' ≤ c && c != '\x7f')

def isSpace (c : Char) : Bool :=
  c = ' ' || c = '\t'

def newline? : List Char → Option (List Char)
  | '\n' :: s => some s
  | '\r' :: '\n' :: s => some s
  | _ => none

/-- The character of a number of hexadecimal digits, which is no surrogate. -/
def codePoint? (digits : List Char) : Option Char :=
  match readDigits? 16 hexValue? digits with
  | some n => if h : n.isValidChar then some (Char.ofNatAux n h) else none
  | none => none

def escape? : Char → Option Char
  | 'b' => some '\x08'
  | 't' => some '\t'
  | 'n' => some '\n'
  | 'f' => some '\x0c'
  | 'r' => some '\r'
  | 'e' => some '\x1b'
  | '"' => some '"'
  | '\\' => some '\\'
  | _ => none

/-- The number of digits that name a character after a letter after a backslash. -/
def codeWidth? : Char → Option Nat
  | 'x' => some 2
  | 'u' => some 4
  | 'U' => some 8
  | _ => none

/-- The character that an escape stands for, read after the backslash. -/
def readEscape? : List Char → Option (Char × List Char)
  | [] => none
  | c :: s =>
    match codeWidth? c with
    | some width =>
      if s.length < width then none
      else (codePoint? (s.take width)).map (·, s.drop width)
    | none => (escape? c).map (·, s)

/-- Passes over spaces and ends of lines; `fuel` is more than the number of lines. -/
def skipLines : (fuel : Nat) → List Char → List Char
  | 0, s => s
  | fuel + 1, s =>
    match newline? (s.dropWhile isSpace) with
    | some s => skipLines fuel s
    | none => s.dropWhile isSpace

/-- The rest of a line after a backslash, if only spaces follow up to its end: the text goes on at
the next character that is neither a space nor the end of a line. -/
def lineContinuation? (s : List Char) : Option (List Char) :=
  (newline? (s.dropWhile isSpace)).map (fun s => skipLines (s.length + 1) s)

/-- The content of a text on one line and what follows its closing quote; `fuel` is more than the
number of characters. -/
def basic? : (fuel : Nat) → List Char → Option (List Char × List Char)
  | 0, _ => none
  | _, [] => none
  | _, '"' :: s => some ([], s)
  | fuel + 1, '\\' :: s => do
    let (c, s) ← readEscape? s
    let (content, rest) ← basic? fuel s
    return (c :: content, rest)
  | fuel + 1, c :: s => do
    guard (isTextChar c)
    let (content, rest) ← basic? fuel s
    return (c :: content, rest)

/-- What follows the content of a literal text, which `quote` closes. -/
def literal? (s : List Char) : Option (List Char × List Char) :=
  let content := s.takeWhile (· != '\'')
  match s.dropWhile (· != '\'') with
  | [] => none
  | _ :: rest => if content.all isTextChar then some (content, rest) else none

/-- Up to two of the quotes that follow three closing ones belong to the content. -/
def closing (quote : Char) (s : List Char) : List Char × List Char :=
  let extra := (s.takeWhile (· = quote)).take 2
  (extra, s.drop extra.length)

/-- The content of a text on several lines and what follows its closing quotes; `fuel` is more than
the number of characters. -/
def multiline? (quote : Char) (escapes : Bool) :
    (fuel : Nat) → List Char → Option (List Char × List Char)
  | 0, _ => none
  | _, [] => none
  | fuel + 1, c :: s =>
    let keep (content s : List Char) : Option (List Char × List Char) := do
      let (more, rest) ← multiline? quote escapes fuel s
      return (content ++ more, rest)
    if [quote, quote, quote].isPrefixOf (c :: s) then some (closing quote (s.drop 2))
    else if escapes && c = '\\' then
      match lineContinuation? s with
      | some s => keep [] s
      | none => do
        let (x, s) ← readEscape? s
        keep [x] s
    else
      match newline? (c :: s) with
      | some rest => keep ((c :: s).take (s.length + 1 - rest.length)) rest
      | none => do
        guard (isTextChar c)
        keep [c] s

/-- A text on several lines after its opening quotes; the end of a line right after them does not
count. -/
def multilineText? (quote : Char) (escapes : Bool) (s : List Char) :
    Option (List Char × List Char) :=
  multiline? quote escapes (s.length + 1) ((newline? s).getD s)

def line? : List Char → Option (List Char × List Char)
  | '"' :: s => basic? (s.length + 1) s
  | '\'' :: s => literal? s
  | _ => none

def quoted? : List Char → Option (List Char × List Char)
  | '"' :: '"' :: '"' :: s => multilineText? '"' true s
  | '\'' :: '\'' :: '\'' :: s => multilineText? '\'' false s
  | s => line? s

end FieldAuthorization.Toml
