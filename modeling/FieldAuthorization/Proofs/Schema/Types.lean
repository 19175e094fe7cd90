import Mathlib
import FieldAuthorization.Schema.Parser

/-!
The types of a schema document, name by name.

The last definition of a name says what the type is, the extensions of the name add to it in
document order, and an interface then gets the object types that list it.

Mathlib is imported whole for the modules on top of this one that evaluate texts with `cbv`: it is
to find the equations of library functions there, and not to make its own.
-/

set_option autoImplicit false
set_option relaxedAutoImplicit false

namespace FieldAuthorization

namespace SchemaDefinition

def body? (name : String) : SchemaDefinition → Option TypeBody
  | .type n body => if n = name then some body else none
  | .roots _ | .extension _ _ | .directive => none

def addition? (name : String) : SchemaDefinition → Option TypeBody
  | .extension n body => if n = name then some body else none
  | .roots _ | .type _ _ | .directive => none

private theorem addition?_eq_some {x : SchemaDefinition} {name : String} {body : TypeBody} :
    x.addition? name = some body ↔ x = .extension name body := by
  cases x <;> simp [addition?]

end SchemaDefinition

namespace SchemaDocument

def body? (d : SchemaDocument) (name : String) : Option TypeBody :=
  (d.definitions.filterMap (·.body? name)).getLast?

/-- What the extensions of a name add, in document order. -/
def additions (d : SchemaDocument) (name : String) : List TypeBody :=
  d.definitions.filterMap (·.addition? name)

variable {d : SchemaDocument} {name : String}

theorem mem_additions {body : TypeBody} :
    body ∈ d.additions name ↔ .extension name body ∈ d.definitions := by
  simp [additions, SchemaDefinition.addition?_eq_some]

theorem getElem?_builtinTypes (name : String) :
    builtinTypes[name]? =
      if name ∈ builtinScalars then some (TypeDef.empty name .scalar) else none := by
  have hinsert (l : List String) (types : TypeMap) :
      (l.foldl (fun types n => types.insert n (TypeDef.empty n .scalar)) types)[name]? =
        if name ∈ l then some (TypeDef.empty name .scalar) else types[name]? := by
    induction l generalizing types with
    | nil => simp
    | cons n rest ih =>
      rw [List.foldl_cons, ih, Std.ExtTreeMap.getElem?_insert]
      simp only [Std.compare_eq_iff_eq, List.mem_cons]
      by_cases hn : n = name
      · simp [hn]
      · simp [hn, Ne.symm hn]
  rw [builtinTypes, hinsert, Std.ExtTreeMap.getElem?_empty]

theorem getElem?_definedTypes (d : SchemaDocument) (name : String) :
    d.definedTypes[name]? =
      ((d.body? name).map (TypeDef.ofBody name)).or builtinTypes[name]? := by
  unfold definedTypes body?
  induction d.definitions using List.reverseRecOn with
  | nil => rfl
  | append_singleton l x ih =>
    rw [List.foldl_append, List.foldl_cons, List.foldl_nil, List.filterMap_append]
    cases x with
    | type n body =>
      simp only [Std.ExtTreeMap.getElem?_insert, Std.compare_eq_iff_eq, ih]
      by_cases hn : n = name <;> simp [SchemaDefinition.body?, hn]
    | roots _ | extension _ _ | directive => simpa [SchemaDefinition.body?] using ih

theorem getElem?_extendedTypes (d : SchemaDocument) (name : String) :
    d.extendedTypes[name]? =
      (d.definedTypes[name]?).map (fun type => (d.additions name).foldl TypeDef.extend type) := by
  unfold extendedTypes additions
  induction d.definitions using List.reverseRecOn with
  | nil => simp
  | append_singleton l x ih =>
    rw [List.foldl_append, List.foldl_cons, List.foldl_nil, List.filterMap_append]
    cases x with
    | extension n body =>
      simp only [Std.ExtTreeMap.getElem?_modify, Std.compare_eq_iff_eq]
      by_cases hn : n = name
      · subst hn
        simp [SchemaDefinition.addition?, ih, Function.comp_def]
      · simpa [SchemaDefinition.addition?, hn] using ih
    | roots _ | type _ _ | directive => simpa [SchemaDefinition.addition?] using ih

/-- The type as an interface knows it: with the object types that list it. -/
theorem getElem?_linkedTypes (d : SchemaDocument) (name : String) :
    d.linkedTypes[name]? = (d.extendedTypes[name]?).map fun type =>
      if type.kind = .interface then
        { type with possible := type.possible ++ implementers d.extendedTypes name }
      else type := by
  rw [linkedTypes, Std.ExtTreeMap.getElem?_map]

theorem types_of_toSchema {s : Schema} (h : d.toSchema = .ok s) : s.types = d.linkedTypes := by
  unfold toSchema at h
  cases hroots : d.roots? with
  | some block =>
    simp only [hroots, resolveBlock] at h
    split at h
    · cases h
    · split at h
      · cases h
      · cases h
        rfl
  | none =>
    simp only [hroots, resolveByConvention] at h
    split at h
    · cases h
    · cases h
      rfl

end SchemaDocument

theorem Schema.parse_eq_ok {sdl : String} {s : Schema} :
    Schema.parse sdl = .ok s ↔ ∃ d, SchemaDocument.parse sdl = .ok d ∧ d.toSchema = .ok s := by
  unfold Schema.parse
  cases SchemaDocument.parse sdl with
  | error e => simp [bind, Except.bind]
  | ok d => simp [bind, Except.bind]

end FieldAuthorization
