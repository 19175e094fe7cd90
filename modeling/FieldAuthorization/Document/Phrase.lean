import FieldAuthorization.Document.Token

/-!
Phrases: ways to read a value off the front of a list of lexemes.

Sequences end at a closing mark, and every item of one takes a lexeme, so the number of lexemes
bounds their length; nesting is bounded by `Token.maxDepth`, which the lexemes already obey.
-/

set_option autoImplicit false
set_option relaxedAutoImplicit false

namespace FieldAuthorization

/-- Reads a value off the front of the lexemes, or refuses. -/
abbrev Phrase : Type → Type := StateT (List Lexeme) Option

namespace Phrase

variable {α : Type}

def peek : Phrase (Option Token) := fun ts =>
  some (ts.head?.map Lexeme.token, ts)

def position : Phrase Position := fun ts =>
  ts.head?.map (fun t => (t.position, ts))

/-- Passes over the next lexeme if `p` holds of its token. -/
def skipIf (p : Token → Bool) : Phrase Bool := fun ts =>
  match ts with
  | t :: rest => if p t.token then some (true, rest) else some (false, ts)
  | [] => some (false, [])

def isMark (c : Char) : Token → Bool
  | .mark d => c == d
  | _ => false

def isName (word : String) : Token → Bool
  | .name s => s == word
  | _ => false

def isAnyName : Token → Bool
  | .name _ => true
  | _ => false

def atMark (c : Char) : Phrase Bool :=
  return (← peek).any (isMark c)

def skipMark (c : Char) : Phrase Bool :=
  skipIf (isMark c)

def mark (c : Char) : Phrase Unit := do
  guard (← skipMark c)

def skipName (word : String) : Phrase Bool :=
  skipIf (isName word)

def keyword (word : String) : Phrase Unit := do
  guard (← skipName word)

def name : Phrase String := fun ts =>
  match ts with
  | ⟨.name s, _⟩ :: rest => some (s, rest)
  | _ => none

def name? : Phrase (Option String) := do
  if (← peek).any isAnyName then return some (← name) else return none

/-- Items up to a closing mark; `bound` is at least their number. -/
def manyWithin (close : Char) (item : Phrase α) : (bound : Nat) → Phrase (List α)
  | 0 => do
    mark close
    return []
  | bound + 1 => do
    if ← skipMark close then
      return []
    else
      let first ← item
      let rest ← manyWithin close item bound
      return first :: rest

/-- Items up to a closing mark, which is passed over. -/
def many (close : Char) (item : Phrase α) : Phrase (List α) := fun ts =>
  manyWithin close item ts.length ts

/-- At least one item up to a closing mark, which is passed over. -/
def many1 (close : Char) (item : Phrase α) : Phrase (List α) := do
  let first ← item
  let rest ← many close item
  return first :: rest

/-- Items while `more` holds of the next token; `bound` is at least their number. -/
def whileWithin (more : Token → Bool) (item : Phrase α) : (bound : Nat) → Phrase (List α)
  | 0 => return []
  | bound + 1 => do
    if (← peek).any more then
      let first ← item
      let rest ← whileWithin more item bound
      return first :: rest
    else
      return []

def manyWhile (more : Token → Bool) (item : Phrase α) : Phrase (List α) := fun ts =>
  whileWithin more item ts.length ts

/-- Items until the lexemes end. -/
def toEnd (item : Phrase α) (ts : List Lexeme) : Option (List α) :=
  match (manyWhile (fun _ => true) item).run ts with
  | some (items, []) => some items
  | _ => none

/-- One item, then more of them as long as each follows the given mark. -/
def separatedBy (c : Char) (item : Phrase α) : Phrase (List α) := do
  let first ← item
  let rest ← manyWhile (isMark c) (do
    mark c
    item)
  return first :: rest

end Phrase

end FieldAuthorization
