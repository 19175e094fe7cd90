import Std.Data.ExtTreeSet
import FieldAuthorization.Text.Blank

/-!
Scope sets: the rights that a caller presents.

Equal sets are equal values however they were written, which is what lets them be keys.
-/

set_option autoImplicit false
set_option relaxedAutoImplicit false

namespace FieldAuthorization

abbrev ScopeSet := Std.ExtTreeSet String

namespace ScopeSet

def ofScopes (l : List String) : ScopeSet :=
  Std.ExtTreeSet.ofList l compare

/-- Commas and blanks separate scopes. -/
def isSeparator (c : Char) : Bool :=
  c == ',' || Text.isBlank c

def parse (s : String) : ScopeSet :=
  ofScopes ((Text.words isSeparator s.toList).map String.ofList)

def text (s : ScopeSet) : String :=
  "\x7b" ++ ",".intercalate s.toList ++ "\x7d"

/-- The lexicographic order of the ascending scopes. -/
def precedes (a b : ScopeSet) : Bool :=
  decide (a.toList < b.toList)

end ScopeSet

end FieldAuthorization
