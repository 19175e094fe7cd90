/-!
Characters from their UTF-8 bytes. Bytes that encode no character are taken together as long as
they begin one.
-/

set_option autoImplicit false
set_option relaxedAutoImplicit false

namespace FieldAuthorization.Text

namespace Utf8

structure Pending where
  /-- The bits that have been read. -/
  value : Nat
  /-- The number of bytes to come. -/
  missing : Nat
  /-- The bounds of the next byte; every later one lies between 0x80 and 0xBF. -/
  low : Nat
  high : Nat
deriving DecidableEq

/-- What the first byte of a character tells: the characters that it ends, of which `none` is an
error, and the one that it begins. -/
def begin (b : Nat) : List (Option Char) × Option Pending :=
  if b < 0x80 then ([some (Char.ofNat b)], none)
  else if b < 0xC2 then ([none], none)
  else if b < 0xE0 then ([], some ⟨b - 0xC0, 1, 0x80, 0xBF⟩)
  else if b = 0xE0 then ([], some ⟨0, 2, 0xA0, 0xBF⟩)
  else if b = 0xED then ([], some ⟨0xD, 2, 0x80, 0x9F⟩)
  else if b < 0xF0 then ([], some ⟨b - 0xE0, 2, 0x80, 0xBF⟩)
  else if b = 0xF0 then ([], some ⟨0, 3, 0x90, 0xBF⟩)
  else if b < 0xF4 then ([], some ⟨b - 0xF0, 3, 0x80, 0xBF⟩)
  else if b = 0xF4 then ([], some ⟨4, 3, 0x80, 0x8F⟩)
  else ([none], none)

/-- Takes a byte. A byte that cannot go on with the character begins another one. -/
def step (b : Nat) : Option Pending → List (Option Char) × Option Pending
  | none => begin b
  | some p =>
    if p.low ≤ b ∧ b ≤ p.high then
      let value := 64 * p.value + (b - 0x80)
      if p.missing = 1 then ([some (Char.ofNat value)], none)
      else ([], some ⟨value, p.missing - 1, 0x80, 0xBF⟩)
    else
      let (characters, pending) := begin b
      (none :: characters, pending)

/-- The characters of bytes, `none` for each run of bytes that encodes none. -/
def characters : Option Pending → List UInt8 → List (Option Char)
  | none, [] => []
  | some _, [] => [none]
  | state, b :: bytes =>
    let (ended, next) := step b.toNat state
    ended ++ characters next bytes

end Utf8

def ofUtf8? (bytes : List UInt8) : Option String :=
  ((Utf8.characters none bytes).mapM id).map String.ofList

/-- The text of bytes, with the replacement character for what encodes none. -/
def ofUtf8 (bytes : List UInt8) : String :=
  String.ofList ((Utf8.characters none bytes).map (·.getD '\ufffd'))

end FieldAuthorization.Text
