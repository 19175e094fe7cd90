import FieldAuthorization.Text.Blank
import FieldAuthorization.Text.CaseFolding
import FieldAuthorization.Text.Category
import FieldAuthorization.Text.Script

/-!
Classes of characters by name, and their closure under differences of case.
-/

set_option autoImplicit false
set_option relaxedAutoImplicit false

namespace FieldAuthorization

abbrev CharClass := Nat → Bool

namespace CharClass

def single (n : Nat) : CharClass := fun m => m == n

/-- The code points from `first` to `last`, both included. -/
def range (first last : Nat) : CharClass := fun n => first ≤ n && n ≤ last

def ofChars (s : List Char) : CharClass := fun n => s.any (fun c => c.toNat == n)

def union (a b : CharClass) : CharClass := fun n => a n || b n

def unionAll (l : List CharClass) : CharClass := fun n => l.any (· n)

def negateIf (negated : Bool) (a : CharClass) : CharClass := fun n => a n != negated

def ascii : CharClass := range 0 0x7F
def digit : CharClass := range 0x30 0x39
def upper : CharClass := range 0x41 0x5A
def lower : CharClass := range 0x61 0x7A
def alphabetic : CharClass := union upper lower
def word : CharClass := unionAll [alphabetic, digit, ofChars ['_']]
def space : CharClass := ofChars ['\t', '\n', '\x0b', '\x0c', '\r', ' ']

def otherCase (n : Nat) : Nat :=
  if upper n then n + 32 else if lower n then n - 32 else n

/-- The code points of which some variant of case is in the class; all scripts have cases if
`wide` holds, else ASCII letters alone. -/
def ignoringCase (wide : Bool) (a : CharClass) : CharClass := fun n =>
  if wide then (Text.caseVariants n).any a else a n || a (otherCase n)

/-- The classes that have names inside brackets and colons; all are ASCII. -/
def ofAsciiName? : String → Option CharClass
  | "alnum" => some (union alphabetic digit)
  | "alpha" => some alphabetic
  | "ascii" => some ascii
  | "blank" => some (ofChars ['\t', ' '])
  | "cntrl" => some (union (range 0 0x1F) (single 0x7F))
  | "digit" => some digit
  | "graph" => some (range 0x21 0x7E)
  | "lower" => some lower
  | "print" => some (range 0x20 0x7E)
  | "punct" => some
    (unionAll [range 0x21 0x2F, range 0x3A 0x40, range 0x5B 0x60, range 0x7B 0x7E])
  | "space" => some space
  | "upper" => some upper
  | "word" => some word
  | "xdigit" => some (unionAll [digit, range 0x41 0x46, range 0x61 0x66])
  | _ => none

/-- A property name in lower case, without separators and without `is` in front. -/
def normalizeName (s : List Char) : String :=
  let plain := (s.filter (fun c => c != ' ' && c != '_' && c != '-')).map Char.toLower
  String.ofList (match plain with
    | 'i' :: 's' :: rest => rest
    | _ => plain)

/-- The code points of a general category or of a group of categories. -/
def ofCategory? (name : String) : Option CharClass :=
  match name with
  | "any" => some (fun _ => true)
  | "assigned" => some (fun n => Text.generalCategory n != "Cn")
  | "ascii" => some ascii
  | _ =>
    (Text.categoryNames.find? (fun (names, _) => names.contains name)).map
      (fun (_, categories) => fun n => categories.contains (Text.generalCategory n))

def ofScript? (name : String) : Option CharClass :=
  (Text.scriptNames.find? (fun (_, names) => names.contains name)).map
    (fun (code, _) => Text.Run.carries Text.scriptTable code)

/-- The code points with a property that is true or false. -/
def ofBinaryName? : String → Option CharClass
  | "alphabetic" | "alpha" => some Text.isAlphabetic
  | "lowercase" | "lower" => some Text.isLowercase
  | "uppercase" | "upper" => some Text.isUppercase
  | "whitespace" | "wspace" | "space" => some Text.isBlankCode
  | _ => none

def ofProperty? (name : List Char) : Option CharClass :=
  let name := normalizeName name
  ofBinaryName? name <|> ofCategory? name <|> ofScript? name

def ofPropertyValue? (name value : List Char) : Option CharClass :=
  match normalizeName name with
  | "generalcategory" | "gc" => ofCategory? (normalizeName value)
  | "script" | "sc" => ofScript? (normalizeName value)
  | _ => none

end CharClass

end FieldAuthorization
