/-!
Blank characters and the pieces of a text between separators.
-/

set_option autoImplicit false
set_option relaxedAutoImplicit false

namespace FieldAuthorization.Text

/-- The code points with the Unicode property White_Space. -/
def isBlankCode (n : Nat) : Bool :=
  (0x09 ≤ n && n ≤ 0x0D) || n == 0x20 || n == 0x85 || n == 0xA0 || n == 0x1680
    || (0x2000 ≤ n && n ≤ 0x200A) || n == 0x2028 || n == 0x2029 || n == 0x202F
    || n == 0x205F || n == 0x3000

/-- The characters with the Unicode property White_Space. -/
def isBlank (c : Char) : Bool :=
  isBlankCode c.toNat

/-- The pieces of `s` between the characters on which `separator` holds; a text without
separators is one piece, and two separators in a row enclose an empty piece. -/
def splitOn (separator : Char → Bool) : List Char → List (List Char)
  | [] => [[]]
  | c :: s =>
    if separator c then
      [] :: splitOn separator s
    else
      match splitOn separator s with
      | [] => [[c]]
      | piece :: rest => (c :: piece) :: rest

/-- The non-empty pieces of `s` between the characters on which `separator` holds. -/
def words (separator : Char → Bool) (s : List Char) : List (List Char) :=
  (splitOn separator s).filter (fun piece => !piece.isEmpty)

end FieldAuthorization.Text
