/-!
Decimal numerals and double-precision numbers: reading a numeral to the nearest double, and
writing a double with the fewest digits that read back as the same double.
-/

set_option autoImplicit false
set_option relaxedAutoImplicit false

namespace FieldAuthorization

/-- The number `digits · 10 ^ exponent`, negated if `negative` holds. -/
structure Decimal where
  negative : Bool
  digits : Nat
  exponent : Int
deriving DecidableEq

def digitValue? (c : Char) : Option Nat :=
  if '0' ≤ c ∧ c ≤ '9' then some (c.toNat - '0'.toNat) else none

def hexValue? (c : Char) : Option Nat :=
  if '0' ≤ c ∧ c ≤ '9' then some (c.toNat - '0'.toNat)
  else if 'a' ≤ c ∧ c ≤ 'f' then some (c.toNat - 'a'.toNat + 10)
  else if 'A' ≤ c ∧ c ≤ 'F' then some (c.toNat - 'A'.toNat + 10)
  else none

/-- A non-empty run of digits of the given base, most significant first. -/
def readDigits? (base : Nat) (value? : Char → Option Nat) : List Char → Option Nat
  | [] => none
  | s => s.foldlM (fun n c => (value? c).map (base * n + ·)) 0

def readNat? (s : List Char) : Option Nat :=
  readDigits? 10 digitValue? s

def readInt? : List Char → Option Int
  | '-' :: s => (readNat? s).map (fun n => -(n : Int))
  | '+' :: s => (readNat? s).map Int.ofNat
  | s => (readNat? s).map Int.ofNat

def fitsInt64 (n : Int) : Bool :=
  -0x8000000000000000 ≤ n && n < 0x8000000000000000

namespace Decimal

/-- The digits before an exponent mark: a point may stand anywhere among at least one digit. -/
def readSignificand? (s : List Char) : Option (Nat × Nat) :=
  let whole := s.takeWhile Char.isDigit
  match s.dropWhile Char.isDigit with
  | [] => (readNat? whole).map (·, 0)
  | '.' :: fraction => (readNat? (whole ++ fraction)).map (·, fraction.length)
  | _ => none

/-- Reads an unsigned numeral: digits with an optional point and an optional exponent. -/
def readUnsigned? (negative : Bool) (s : List Char) : Option Decimal :=
  let isMark (c : Char) : Bool := c == 'e' || c == 'E'
  match s.dropWhile (fun c => !isMark c) with
  | [] => (readSignificand? s).map (fun (d, k) => ⟨negative, d, -(k : Int)⟩)
  | _ :: power => do
    let (d, k) ← readSignificand? (s.takeWhile (fun c => !isMark c))
    let e ← readInt? power
    return ⟨negative, d, e - k⟩

def read? : List Char → Option Decimal
  | '-' :: s => readUnsigned? true s
  | '+' :: s => readUnsigned? false s
  | s => readUnsigned? false s

/-- The double nearest to a decimal. Exponents beyond every double are answered at once: no
number of `n` digits reaches a power of ten above its `n`-th. -/
def toFloat (d : Decimal) : Float :=
  let width := (Nat.toDigits 10 d.digits).length
  let magnitude : Float :=
    if d.digits = 0 then 0.0
    else if 400 < d.exponent + width then 1.0 / 0.0
    else if d.exponent + width < -400 then 0.0
    else OfScientific.ofScientific d.digits (decide (d.exponent < 0)) d.exponent.natAbs
  if d.negative then -magnitude else magnitude

end Decimal

inductive FloatParts
  | nan
  | infinite (negative : Bool)
  /-- The number `significand · 2 ^ exponent`, negated if `negative` holds. -/
  | finite (negative : Bool) (significand : Nat) (exponent : Int)
deriving DecidableEq

def FloatParts.ofFloat (x : Float) : FloatParts :=
  let bits : Nat := x.toBits.toNat
  let negative : Bool := bits / Nat.pow 2 63 == 1
  let biased : Nat := bits / Nat.pow 2 52 % Nat.pow 2 11
  let fraction : Nat := bits % Nat.pow 2 52
  if biased = 2047 then
    if fraction = 0 then .infinite negative else .nan
  else if biased = 0 then .finite negative fraction (-1074)
  else .finite negative (Nat.pow 2 52 + fraction) ((biased : Int) - 1075)

namespace Decimal

private structure Ratio where
  num : Nat
  den : Nat

private def Ratio.dyadic (n : Nat) (e : Int) : Ratio :=
  if 0 ≤ e then ⟨n * Nat.pow 2 e.toNat, 1⟩ else ⟨n, Nat.pow 2 (-e).toNat⟩

/-- The quotient of a rational and `10 ^ s`, rounded down. -/
private def Ratio.floorOn (r : Ratio) (s : Int) : Nat :=
  if 0 ≤ s then r.num / (r.den * Nat.pow 10 s.toNat)
  else r.num * Nat.pow 10 (-s).toNat / r.den

/-- How the point `n · 10 ^ s` compares with a rational. -/
private def Ratio.compareGrid (n : Nat) (s : Int) (r : Ratio) : Ordering :=
  if 0 ≤ s then compare (n * Nat.pow 10 s.toNat * r.den) r.num
  else compare (n * r.den) (r.num * Nat.pow 10 (-s).toNat)

/-- The number of digits before the point, negative for zeros after it. -/
private def Ratio.magnitude (r : Ratio) : Int :=
  if r.den ≤ r.num then (Nat.toDigits 10 (r.num / r.den)).length
  else -((List.range 400).findIdx (fun j => r.den ≤ r.num * Nat.pow 10 (j + 1)) : Int)

/-- Removes zeros from the end of the digits. -/
private def dropZeros : Nat → Nat → Int → Nat × Int
  | 0, d, e => (d, e)
  | fuel + 1, d, e => if d % 10 = 0 ∧ d ≠ 0 then dropZeros fuel (d / 10) (e + 1) else (d, e)

/-- The shortest decimal that rounds to `significand · 2 ^ exponent`; of several the nearest, and
of two equally near the greater. The numbers that round to a double reach half-way to its
neighbours, ends included if the significand is even; below a power of two the lower neighbour is
half as far. -/
def shortest (significand : Nat) (exponent : Int) : Nat × Int :=
  if significand = 0 then (0, 0)
  else
    let value := Ratio.dyadic (4 * significand) (exponent - 2)
    let high := Ratio.dyadic (4 * significand + 2) (exponent - 2)
    let below := if significand = Nat.pow 2 52 ∧ -1074 < exponent then 1 else 2
    let low := Ratio.dyadic (4 * significand - below) (exponent - 2)
    let closed := significand % 2 == 0
    let magnitude := value.magnitude
    let candidate? (n : Nat) : Option (Nat × Int) :=
      let s := magnitude - n
      let down := value.floorOn s
      let downOk := match Ratio.compareGrid down s low with
        | .gt => true
        | .eq => closed
        | .lt => false
      let upOk := match Ratio.compareGrid (down + 1) s high with
        | .lt => true
        | .eq => closed
        | .gt => false
      if downOk && upOk then
        -- twice the value against the middle of the two neighbours
        let twice : Ratio := ⟨2 * value.num, value.den⟩
        if Ratio.compareGrid (2 * down + 1) s twice == .gt then some (down, s)
        else some (down + 1, s)
      else if downOk then some (down, s)
      else if upOk then some (down + 1, s)
      else none
    match (List.range 17).findSome? (fun n => candidate? (n + 1)) with
    | some (d, s) => dropZeros 400 d s
    | none => (significand, 0)

/-- Writes `digits · 10 ^ exponent` without an exponent, and without a point if it is whole. -/
def positional (digits : Nat) (exponent : Int) : List Char :=
  let written := Nat.toDigits 10 digits
  if digits = 0 then ['0']
  else if 0 ≤ exponent then written ++ List.replicate exponent.toNat '0'
  else
    let places := (-exponent).toNat
    let padded := List.replicate (places + 1 - written.length) '0' ++ written
    let whole := padded.length - places
    padded.take whole ++ '.' :: padded.drop whole

/-- A double in full: the fewest digits that read back, never an exponent. -/
def ofFloatText (x : Float) : String :=
  match FloatParts.ofFloat x with
  | .nan => "NaN"
  | .infinite negative => if negative then "-inf" else "inf"
  | .finite negative significand exponent =>
    let (digits, power) := shortest significand exponent
    String.ofList ((if negative then ['-'] else []) ++ positional digits power)

/-- A double with the given number of places after its point; a half goes to the even neighbour. -/
def fixedPlaces (places : Nat) (x : Float) : String :=
  match FloatParts.ofFloat x with
  | .nan => "NaN"
  | .infinite negative => if negative then "-inf" else "inf"
  | .finite negative significand exponent =>
    let scaled := Ratio.dyadic (significand * Nat.pow 10 places) exponent
    let down := scaled.num / scaled.den
    let twice := 2 * (scaled.num % scaled.den)
    let rounded :=
      if scaled.den < twice || (twice == scaled.den && down % 2 == 1) then down + 1 else down
    let digits := Nat.toDigits 10 rounded
    let padded := List.replicate (places + 1 - digits.length) '0' ++ digits
    let whole := padded.length - places
    let sign := if negative then ['-'] else []
    String.ofList (sign ++ padded.take whole ++ '.' :: padded.drop whole)

end Decimal

end FieldAuthorization
