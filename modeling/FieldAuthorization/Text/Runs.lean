/-!
Tables of character properties as run-length texts: each run is a label of letters and the number
of consecutive characters that carry it, beginning with character zero.
-/

set_option autoImplicit false
set_option relaxedAutoImplicit false

namespace FieldAuthorization.Text

/-- The characters from `first` to just before `stop` carry a label. -/
structure Run where
  first : Nat
  stop : Nat
  label : String

namespace Run

/-- Reads a run-length text. `label` and `count` are what has been read of the current run. -/
def decodeFrom (first : Nat) (label : List Char) (count : Nat) : List Char → List Run
  | [] => if count = 0 then [] else [⟨first, first + count, String.ofList label.reverse⟩]
  | c :: s =>
    if c.isDigit then
      decodeFrom first label (10 * count + (c.toNat - '0'.toNat)) s
    else if count = 0 then
      decodeFrom first (c :: label) 0 s
    else
      ⟨first, first + count, String.ofList label.reverse⟩ :: decodeFrom (first + count) [c] 0 s

def decode (pieces : List String) : List Run :=
  decodeFrom 0 [] 0 (String.join pieces).toList

/-- The run of a character, if the table reaches so far. -/
def find? (table : List Run) (n : Nat) : Option Run :=
  table.find? (fun run => n < run.stop)

def carries (table : List Run) (label : String) (n : Nat) : Bool :=
  (find? table n).any (fun run => run.label == label)

end Run

end FieldAuthorization.Text
