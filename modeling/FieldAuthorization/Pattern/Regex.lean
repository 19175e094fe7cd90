import FieldAuthorization.Text.Category

/-!
Regular expressions over characters with assertions, and where their matches in a text end.
-/

set_option autoImplicit false
set_option relaxedAutoImplicit false

namespace FieldAuthorization

/-- Conditions on a place between two characters. A `wide` word character is one of any script,
any other one is an ASCII letter, digit or underscore. -/
inductive Assertion
  | textStart
  | textEnd
  /-- The start of the text or the place after a line feed. -/
  | lineStart
  | lineEnd
  /-- Line starts where carriage returns end lines too, save before a line feed. -/
  | returnStart
  | returnEnd
  | boundary (wide : Bool)
  | noBoundary (wide : Bool)
  | wordStart (wide : Bool)
  | wordEnd (wide : Bool)
  | wordStartHalf (wide : Bool)
  | wordEndHalf (wide : Bool)
deriving DecidableEq

inductive Regex
  | empty
  | chars (has : Char → Bool)
  | assertion (a : Assertion)
  | seq (r s : Regex)
  | alt (r s : Regex)
  /-- At least `least` matches in a row, and at most `most` if that is given. -/
  | repeated (r : Regex) (least : Nat) (most : Option Nat)

namespace Assertion

def isNarrowWord (c : Char) : Bool :=
  c.isAlphanum || c == '_'

/-- Whether the character, if there is one, belongs to a word. -/
def inWord (wide : Bool) : Option Char → Bool
  | none => false
  | some c => if wide then Text.isWordChar c.toNat else isNarrowWord c

/-- Whether the assertion holds between two characters; `none` stands for an end of the text. -/
def holds (before after : Option Char) : Assertion → Bool
  | textStart => before.isNone
  | textEnd => after.isNone
  | lineStart => before.isNone || before == some '\n'
  | lineEnd => after.isNone || after == some '\n'
  | returnStart =>
    before.isNone || before == some '\n' || (before == some '\r' && after != some '\n')
  | returnEnd =>
    after.isNone || after == some '\r' || (after == some '\n' && before != some '\r')
  | boundary wide => inWord wide before != inWord wide after
  | noBoundary wide => inWord wide before == inWord wide after
  | wordStart wide => !inWord wide before && inWord wide after
  | wordEnd wide => inWord wide before && !inWord wide after
  | wordStartHalf wide => !inWord wide before
  | wordEndHalf wide => !inWord wide after

/-- Whether the assertion holds at an index of a text. -/
def holdsAt (t : Array Char) (i : Nat) (a : Assertion) : Bool :=
  a.holds (if i = 0 then none else t[i - 1]?) t[i]?

end Assertion

namespace Regex

def anyOf : List Regex → Regex
  | [] => .chars (fun _ => false)
  | [r] => r
  | r :: rest => .alt r (anyOf rest)

/-- The regex that matches the given ones in order. -/
def inOrder : List Regex → Regex
  | [] => .empty
  | [r] => r
  | r :: rest => .seq r (inOrder rest)

/-- Applies `f` a number of times to a list that `f` leaves empty if it is empty. -/
def times (f : List Nat → List Nat) : Nat → List Nat → List Nat
  | 0, places => places
  | n + 1, places => if places.isEmpty then [] else times f n (f places)

/-- The places that at most `n` applications of `f` reach. -/
def within (f : List Nat → List Nat) : Nat → List Nat → List Nat
  | 0, places => places
  | n + 1, places =>
    let fresh := (f places).filter (fun i => !places.contains i)
    if fresh.isEmpty then places else within f n (places ++ fresh)

/-- The indices of `t` at which a match that starts at one of the given indices can end, each once.
Repetition without a bound stops at the latest when every index has been reached. -/
def ends (t : Array Char) : Regex → List Nat → List Nat
  | .empty, places => places
  | .chars has, places => (places.filter (fun i => t[i]?.any has)).map (· + 1)
  | .assertion a, places => places.filter (fun i => a.holdsAt t i)
  | .seq r s, places => ends t s (ends t r places)
  | .alt r s, places =>
    let left := ends t r places
    left ++ (ends t s places).filter (fun i => !left.contains i)
  | .repeated r least most, places =>
    let more := match most with
      | some most => most - least
      | none => t.size + 1
    within (ends t r) more (times (ends t r) least places)

def isMatch (r : Regex) (s : String) : Bool :=
  let t := s.toList.toArray
  !(ends t r (List.range (t.size + 1))).isEmpty

end Regex

end FieldAuthorization
