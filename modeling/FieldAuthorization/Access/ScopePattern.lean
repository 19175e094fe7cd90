import FieldAuthorization.Pattern.Parser

/-!
Scope patterns: regular expressions that select scopes as a whole.
-/

set_option autoImplicit false
set_option relaxedAutoImplicit false

namespace FieldAuthorization

/-- A pattern as written, with what it compiles to. -/
structure ScopePattern where
  source : String
  regex : Regex

namespace ScopePattern

/-- The text that is compiled for a pattern: the pattern in a group between the assertions of start
and end. -/
def anchored (source : String) : String :=
  "^(?:" ++ source ++ ")$"

def compile? (source : String) : Option ScopePattern :=
  (Regex.parse? (anchored source)).map (fun regex => ⟨source, regex⟩)

/-- Compiles patterns in order; the first that cannot be compiled is the error. -/
def compileAll (sources : List String) : Except String (List ScopePattern) :=
  sources.mapM fun source =>
    match compile? source with
    | some pattern => .ok pattern
    | none => .error source

def matchesScope (p : ScopePattern) (scope : String) : Bool :=
  p.regex.isMatch scope

/-- The first of the patterns that matches a scope. -/
def find? (patterns : List ScopePattern) (scope : String) : Option ScopePattern :=
  patterns.find? (fun p => p.matchesScope scope)

end ScopePattern

end FieldAuthorization
