import FieldAuthorization.Decimal
import FieldAuthorization.Document.Basic
import FieldAuthorization.Text.Blank

/-!
Tokens of query and schema texts, each with the place where it begins.

Blanks, commas, byte order marks and comments separate tokens and vanish. A column is counted per
character, save that a tab is eight columns wide and that carriage returns and byte order marks
have no width.
-/

set_option autoImplicit false
set_option relaxedAutoImplicit false

namespace FieldAuthorization

inductive Token
  /-- One of the characters of `Token.punctuation`. -/
  | mark (c : Char)
  | ellipsis
  | name (s : String)
  | int (n : Int)
  | float (x : Float)
  | text (s : String)

structure Lexeme where
  token : Token
  position : Position

namespace Position

def start : Position := ⟨1, 1⟩

def right (p : Position) (columns : Nat) : Position :=
  ⟨p.line, p.column + columns⟩

def nextLine (p : Position) : Position :=
  ⟨p.line + 1, 1⟩

/-- The place after a text in which only line feeds end a line and every other character is one
column wide. -/
def after (p : Position) (s : List Char) : Position :=
  s.foldl (fun p c => if c = '\n' then p.nextLine else p.right 1) p

end Position

namespace Token

def punctuation : List Char :=
  ['!', '$', ':', '=', '@', '|', '&', '(', ')', '[', ']', '\x7b', '\x7d']

def isOpening (c : Char) : Bool :=
  c = '(' || c = '[' || c = '\x7b'

def isClosing (c : Char) : Bool :=
  c = ')' || c = ']' || c = '\x7d'

/-- The greatest number of brackets open at a time. -/
def maxDepth : Nat := 50

def isNameStart (c : Char) : Bool :=
  c = '_' || c.isAlpha

def isNameChar (c : Char) : Bool :=
  c = '_' || c.isAlphanum

/-- What ends a number: a separator or punctuation. -/
def endsNumber (c : Char) : Bool :=
  c = ' ' || c = '\n' || c = '\r' || c = '\t' || c = ',' || c = '#' || punctuation.contains c

/-- Digits without a superfluous zero in front, and an optional minus. -/
def isInteger : List Char → Bool
  | '-' :: s => isNatural s
  | s => isNatural s
where
  isNatural : List Char → Bool
    | ['0'] => true
    | c :: s => '1' ≤ c && c ≤ '9' && s.all Char.isDigit
    | [] => false

/-- The part after an exponent mark: a sign or a digit from 1 to 8, then digits. -/
def isExponent : List Char → Bool
  | c :: s => (c = '+' || c = '-' || ('1' ≤ c && c ≤ '8')) && s.all Char.isDigit
  | [] => false

/-- Splits a text at the last character on which `p` holds. -/
def splitAtLast (p : Char → Bool) (s : List Char) : Option (List Char × List Char) :=
  match s.reverse.dropWhile (fun c => !p c) with
  | [] => none
  | _ :: front => some (front.reverse, (s.reverse.takeWhile (fun c => !p c)).reverse)

/-- Whether a numeral with a point or an exponent mark is well formed. The last point and the last
mark count. -/
def isFloat (s : List Char) : Bool :=
  let isMark (c : Char) : Bool := c = 'e' || c = 'E'
  let isFraction (s : List Char) : Bool := !s.isEmpty && s.all Char.isDigit
  match splitAtLast isMark s with
  | none =>
    match splitAtLast (· = '.') s with
    | none => false
    | some (whole, fraction) => isInteger whole && isFraction fraction
  | some (significand, power) =>
    isExponent power &&
      match splitAtLast (· = '.') significand with
      | none => isInteger significand
      | some (whole, fraction) => isInteger whole && isFraction fraction

def ofNumeral? (s : List Char) : Option Token :=
  if s.any (fun c => c = '.' || c = 'e' || c = 'E') then
    if isFloat s then (Decimal.read? s).map (fun d => .float d.toFloat) else none
  else if isInteger s then
    (readInt? s).bind (fun n => if fitsInt64 n then some (.int n) else none)
  else none

/-- Four characters that name a character by hexadecimal digits, of which the first may be a
plus sign; surrogates are no characters. -/
def codePoint? (s : List Char) : Option Char :=
  let digits := match s with
    | '+' :: rest => rest
    | _ => s
  match readDigits? 16 hexValue? digits with
  | some n => if h : n.isValidChar then some (Char.ofNatAux n h) else none
  | none => none

def escape? : Char → Option Char
  | '"' => some '"'
  | '\\' => some '\\'
  | '/' => some '/'
  | 'b' => some '\x10'
  | 'f' => some '\x0c'
  | 'n' => some '\n'
  | 'r' => some '\r'
  | 't' => some '\t'
  | _ => none

/-- The rest of a quoted text after its opening quote: its content, the number of characters up to
and with the closing quote, and what follows. -/
def quoted? : List Char → Option (List Char × Nat × List Char)
  | [] => none
  | '"' :: rest => some ([], 1, rest)
  | '\n' :: _ => none
  | '\\' :: 'u' :: a :: b :: c :: d :: rest => do
    let x ← codePoint? [a, b, c, d]
    let (content, count, rest) ← quoted? rest
    return (x :: content, count + 6, rest)
  | '\\' :: c :: rest => do
    let x ← escape? c
    let (content, count, rest) ← quoted? rest
    return (x :: content, count + 2, rest)
  | '\\' :: [] => none
  | c :: rest => do
    let (content, count, rest) ← quoted? rest
    return (c :: content, count + 1, rest)

/-- The rest of a block text after its three opening quotes: what stands before three quotes that
no backslash precedes, and what follows them. -/
def block? (previous : Option Char) : List Char → Option (List Char × List Char)
  | [] => none
  | '"' :: '"' :: '"' :: rest =>
    if previous = some '\\' then
      (block? (some '"') rest).map (fun (s, rest) => ('"' :: '"' :: '"' :: s, rest))
    else some ([], rest)
  | c :: rest => (block? (some c) rest).map (fun (s, rest) => (c :: s, rest))

def dropReturn (line : List Char) : List Char :=
  match line.getLast? with
  | some '\r' => line.dropLast
  | _ => line

/-- The lines of a text: each ends at a line feed, before which a carriage return is dropped; the
last line may lack its end. -/
def lines (s : List Char) : List (List Char) :=
  let pieces := Text.splitOn (· = '\n') s
  let ended := pieces.dropLast.map dropReturn
  match pieces.getLast? with
  | none | some [] => ended
  | some last => ended ++ [last]

def width (s : List Char) : Nat :=
  s.foldr (fun c n => c.utf8Size + n) 0

/-- The width of the blanks at the start of a line. -/
def indentation (line : List Char) : Nat :=
  width (line.takeWhile Text.isBlank)

/-- Removes `width` bytes from the start of a line. -/
def dropBytes : Nat → List Char → List Char
  | 0, line => line
  | _, [] => []
  | width + 1, c :: line => dropBytes (width + 1 - c.utf8Size) line
termination_by _ line => line.length

/-- Reads three quotes after a backslash as three quotes. -/
def unescapeQuotes : List Char → List Char
  | '\\' :: '"' :: '"' :: '"' :: rest => '"' :: '"' :: '"' :: unescapeQuotes rest
  | c :: rest => c :: unescapeQuotes rest
  | [] => []

/-- The content of a block text. Blank lines at both ends vanish, and the lines after the first
lose the indentation that those of them that are not blank share. -/
def blockContent (s : List Char) : List Char :=
  let isBlankLine (line : List Char) : Bool := line.all Text.isBlank
  let all := lines s
  let shared := ((all.drop 1).filter (fun line => !isBlankLine line)).map indentation
  let unindent (line : List Char) : List Char :=
    match shared.min? with
    | none => line
    | some n => if n ≤ width line then dropBytes n line else line
  let stripped := match all with
    | [] => []
    | first :: rest =>
      (isBlankLine first, first) :: rest.map (fun line => (isBlankLine line, unindent line))
  let kept := ((stripped.dropWhile Prod.fst).reverse.dropWhile Prod.fst).reverse
  ['\n'].intercalate (kept.map (fun (_, line) => unescapeQuotes line))

end Token

namespace Lexeme

/-- Reads the tokens of `s`, which begins at `p` inside `depth` open brackets. Every step consumes
a character, so the length of the text bounds the number of steps. -/
def scan : (fuel : Nat) → (depth : Nat) → (p : Position) → (s : List Char) → Option (List Lexeme)
  | _, _, _, [] => some []
  | 0, _, _, _ :: _ => none
  | fuel + 1, depth, p, c :: s =>
    let rest := c :: s
    if c = ' ' || c = ',' then scan fuel depth (p.right 1) s
    else if c = '\t' then scan fuel depth (p.right 8) s
    else if c = '\r' || c = '\ufeff' then scan fuel depth p s
    else if c = '\n' then scan fuel depth p.nextLine s
    else if c = '#' then
      match s.dropWhile (fun c => c != '\r' && c != '\n') with
      | [] => some []
      | _ :: s => scan fuel depth p.nextLine s
    else if Token.punctuation.contains c then
      if Token.isOpening c && Token.maxDepth ≤ depth then none
      else
        let depth :=
          if Token.isOpening c then depth + 1
          else if Token.isClosing c then depth - 1
          else depth
        (scan fuel depth (p.right 1) s).map (⟨.mark c, p⟩ :: ·)
    else if ['.', '.', '.'].isPrefixOf rest then
      (scan fuel depth (p.right 3) (rest.drop 3)).map (⟨.ellipsis, p⟩ :: ·)
    else if Token.isNameStart c then
      let word := rest.takeWhile Token.isNameChar
      (scan fuel depth (p.right word.length) (rest.drop word.length)).map
        (⟨.name (String.ofList word), p⟩ :: ·)
    else if c = '-' || c.isDigit then
      let numeral := rest.takeWhile (fun c => !Token.endsNumber c)
      match Token.ofNumeral? numeral with
      | none => none
      | some token =>
        (scan fuel depth (p.right numeral.length) (rest.drop numeral.length)).map (⟨token, p⟩ :: ·)
    else if ['"', '"', '"'].isPrefixOf rest then
      match Token.block? none (rest.drop 3) with
      | none => none
      | some (content, s) =>
        let token := Token.text (String.ofList (Token.blockContent content))
        (scan fuel depth (((p.right 3).after content).right 3) s).map (⟨token, p⟩ :: ·)
    else if c = '"' then
      match Token.quoted? s with
      | none => none
      | some (content, count, s) =>
        (scan fuel depth (p.right (count + 1)) s).map
          (⟨.text (String.ofList content), p⟩ :: ·)
    else none

/-- The tokens of a text, or nothing if some part of it is no token. -/
def ofText? (s : String) : Option (List Lexeme) :=
  scan s.toList.length 0 .start s.toList

end Lexeme

end FieldAuthorization
