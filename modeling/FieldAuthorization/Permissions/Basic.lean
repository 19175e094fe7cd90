import Std.Data.ExtTreeSet

/-!
Permission sets: the fields that a client may select, and the types that it may see.

Both are kept in ordered sets whose equality is having the same members, so permission sets are
equal exactly if they permit the same fields and show the same types.
-/

set_option autoImplicit false
set_option relaxedAutoImplicit false

namespace FieldAuthorization

/-- The permission to select one field of one type. Rules are ordered by type, then by field. -/
structure FieldRule where
  parent : String
  field : String
deriving DecidableEq

namespace FieldRule

instance : Ord FieldRule :=
  ⟨fun a b => (compare a.parent b.parent).then (compare a.field b.field)⟩

instance : Std.TransOrd FieldRule :=
  inferInstanceAs
    (Std.TransCmp (compareLex (compareOn FieldRule.parent) (compareOn FieldRule.field)))

instance : Std.LawfulEqOrd FieldRule where
  eq_of_compare {a b} h := by
    have h : (compare a.parent b.parent).then (compare a.field b.field) = .eq := h
    rw [Ordering.then_eq_eq] at h
    cases a
    cases b
    simp_all

def text (r : FieldRule) : String :=
  r.parent ++ "." ++ r.field

end FieldRule

structure PermissionSet where
  rules : Std.ExtTreeSet FieldRule
  types : Std.ExtTreeSet String
deriving DecidableEq

namespace PermissionSet

def empty : PermissionSet :=
  ⟨∅, ∅⟩

def permits (p : PermissionSet) (parent field : String) : Bool :=
  p.rules.contains ⟨parent, field⟩

def shows (p : PermissionSet) (type : String) : Bool :=
  p.types.contains type

/-- Permits a field, and tells whether it was not permitted before. -/
def permit (p : PermissionSet) (parent field : String) : Bool × PermissionSet :=
  (!p.permits parent field, { p with rules := p.rules.insert ⟨parent, field⟩ })

/-- Shows a type, and tells whether it was not shown before. -/
def markVisible (p : PermissionSet) (type : String) : Bool × PermissionSet :=
  (!p.shows type, { p with types := p.types.insert type })

def merge (p q : PermissionSet) : PermissionSet :=
  ⟨p.rules ∪ q.rules, p.types ∪ q.types⟩

def ruleCount (p : PermissionSet) : Nat :=
  p.rules.size

/-- Whether nothing is permitted; types may still be shown. -/
def isEmpty (p : PermissionSet) : Bool :=
  p.rules.isEmpty

end PermissionSet

end FieldAuthorization
