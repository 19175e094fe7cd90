import FieldAuthorization.Settings.Setting
import FieldAuthorization.Text.Blank

/-!
Unquoted values of TOML: booleans, numbers, dates and times.
-/

set_option autoImplicit false
set_option relaxedAutoImplicit false

namespace FieldAuthorization.Toml

/-- The digits of a run that may hold an underscore between any two of them. -/
def digits? (isDigit : Char → Bool) (s : List Char) : Option (List Char) :=
  let groups := Text.splitOn (· = '_') s
  if groups.all (fun group => !group.isEmpty && group.all isDigit) then some groups.flatten
  else none

/-- Decimal digits without a superfluous zero in front. -/
def natural? (s : List Char) : Option (List Char) :=
  match digits? Char.isDigit s with
  | some ('0' :: _ :: _) => none
  | digits => digits

def splitSign : List Char → Bool × List Char
  | '-' :: s => (true, s)
  | '+' :: s => (false, s)
  | s => (false, s)

def isDigitOf (base : Nat) (c : Char) : Bool :=
  (hexValue? c).any (· < base)

def based? (base : Nat) (s : List Char) : Option Int := do
  let n ← readDigits? base hexValue? (← digits? (isDigitOf base) s)
  return n

/-- An integer: decimal with an optional sign, or unsigned after a mark for its base. -/
def integer? (s : List Char) : Option Int := do
  let n ← match s with
    | '0' :: 'x' :: s => based? 16 s
    | '0' :: 'o' :: s => based? 8 s
    | '0' :: 'b' :: s => based? 2 s
    | _ => do
      let (negative, s) := splitSign s
      let n ← readNat? (← natural? s)
      pure (if negative then -(n : Int) else n)
  if fitsInt64 n then some n else none

def isRunChar (c : Char) : Bool :=
  c.isDigit || c = '_'

/-- The exponent of a number after its mark, zero if there is none. -/
def exponent? : List Char → Option Int
  | [] => some 0
  | c :: s => do
    guard (c = 'e' || c = 'E')
    let (negative, s) := splitSign s
    let n ← readNat? (← digits? Char.isDigit s)
    return if negative then -(n : Int) else n

/-- A number with a fraction or an exponent or both, as a decimal. -/
def decimal? (s : List Char) : Option Decimal := do
  let (negative, s) := splitSign s
  let whole ← natural? (s.takeWhile isRunChar)
  match s.dropWhile isRunChar with
  | [] => none
  | '.' :: s =>
    let fraction ← digits? Char.isDigit (s.takeWhile isRunChar)
    let power ← exponent? (s.dropWhile isRunChar)
    return ⟨negative, ← readNat? (whole ++ fraction), power - fraction.length⟩
  | s =>
    return ⟨negative, ← readNat? whole, ← exponent? s⟩

/-- A double other than the numbers too large for one. -/
def float? (s : List Char) : Option Float :=
  let (negative, word) := splitSign s
  if word = ['i', 'n', 'f'] then some (if negative then -(1.0 / 0.0) else 1.0 / 0.0)
  else if word = ['n', 'a', 'n'] then some (0.0 / 0.0)
  else do
    let x := (← decimal? s).toFloat
    match FloatParts.ofFloat x with
    | .infinite _ => none
    | _ => some x

def twoDigits? (low high : Nat) : List Char → Option (List Char × List Char)
  | a :: b :: s => do
    let n ← readNat? [a, b]
    if low ≤ n ∧ n ≤ high then some ([a, b], s) else none
  | _ => none

def skip? (c : Char) : List Char → Option (List Char)
  | d :: s => if c = d then some s else none
  | [] => none

def isLeapYear (year : Nat) : Bool :=
  year % 4 == 0 && (year % 100 != 0 || year % 400 == 0)

def daysInMonth (year month : Nat) : Nat :=
  if month = 2 then if isLeapYear year then 29 else 28
  else if month = 4 ∨ month = 6 ∨ month = 9 ∨ month = 11 then 30
  else 31

/-- A date: four digits, two and two, that name a day of the calendar. -/
def date? (s : List Char) : Option (List Char × List Char) := do
  let year ← readNat? (s.take 4)
  let (month, rest) ← twoDigits? 1 12 (← skip? '-' (s.drop 4))
  let (_, rest) ← twoDigits? 1 (daysInMonth year (← readNat? month)) (← skip? '-' rest)
  return (s.take 10, rest)

/-- The fraction of a second: nine digits count, and zeros at the end are dropped. -/
def fraction (digits : List Char) : List Char :=
  match ((digits.take 9).reverse.dropWhile (· = '0')).reverse with
  | [] => ['0']
  | kept => kept

/-- A time: hours and minutes, then perhaps seconds, of which there may be 60, and a fraction. -/
def time? (s : List Char) : Option (List Char × List Char) := do
  let (hour, s) ← twoDigits? 0 23 s
  let (minute, s) ← twoDigits? 0 59 (← skip? ':' s)
  let text := hour ++ ':' :: minute
  match s with
  | ':' :: s =>
    let (second, s) ← twoDigits? 0 60 s
    let text := text ++ ':' :: second
    match s with
    | '.' :: s =>
      let digits := s.takeWhile Char.isDigit
      if digits.isEmpty then none
      else some (text ++ '.' :: fraction digits, s.dropWhile Char.isDigit)
    | s => some (text, s)
  | s => some (text, s)

/-- The distance of a local time from universal time, up to the end of the text. -/
def offset? : List Char → Option (List Char)
  | [] => some []
  | c :: s =>
    if c = 'Z' ∨ c = 'z' then
      if s.isEmpty then some ['Z'] else none
    else if c = '+' ∨ c = '-' then do
      let (hour, s) ← twoDigits? 0 23 s
      let (minute, s) ← twoDigits? 0 59 (← skip? ':' s)
      guard s.isEmpty
      let sign := if hour = ['0', '0'] ∧ minute = ['0', '0'] then '+' else c
      return sign :: hour ++ ':' :: minute
    else none

/-- A date, a time, or both with an optional offset, in its canonical text. -/
def moment? (s : List Char) : Option (List Char) :=
  match date? s with
  | none =>
    match time? s with
    | some (text, []) => some text
    | _ => none
  | some (text, []) => some text
  | some (text, c :: s) => do
    guard (c = 'T' || c = 't' || c = ' ')
    let (time, s) ← time? s
    return text ++ 'T' :: time ++ (← offset? s)

def isScalarChar (c : Char) : Bool :=
  c.isAlphanum || c = '_' || c = '+' || c = '-' || c = '.' || c = ':'

/-- The characters of a scalar at the front of a text: a run, and after a date and one space a
second run if it begins with a digit. -/
def scalarSpan (s : List Char) : List Char × List Char :=
  let run := s.takeWhile isScalarChar
  let rest := s.dropWhile isScalarChar
  match date? run, rest with
  | some (_, []), ' ' :: c :: _ =>
    if c.isDigit then
      let rest := rest.drop 1
      (run ++ ' ' :: rest.takeWhile isScalarChar, rest.dropWhile isScalarChar)
    else (run, rest)
  | _, _ => (run, rest)

/-- The value of a scalar; dates and times become their texts. -/
def scalar? (s : List Char) : Option Setting :=
  if s = "true".toList then some (.boolean true)
  else if s = "false".toList then some (.boolean false)
  else
    ((integer? s).map Setting.integer).or <|
      ((float? s).map Setting.float).or <|
        (moment? s).map (fun text => .text (String.ofList text))

end FieldAuthorization.Toml
