import Mathlib.Data.List.Forall2
import FieldAuthorization.Introspection.Filter

/-!
What the filter leaves of a value.

The filter takes parts of a value out or sets them to null, and adds nothing.
-/

set_option autoImplicit false
set_option relaxedAutoImplicit false

namespace FieldAuthorization.Introspection

mutual

/-- A value is another one with parts taken out or set to null. -/
inductive Cut : Json → Json → Prop
  | whole (value : Json) : Cut value value
  | null (value : Json) : Cut .null value
  | array {left items : List Json} : CutItems left items → Cut (.array left) (.array items)
  | object {left members : Json.Members} :
      CutMembers left members → Cut (.object left) (.object members)

inductive CutItems : List Json → List Json → Prop
  | nil : CutItems [] []
  | drop {left items : List Json} (item : Json) :
      CutItems left items → CutItems left (item :: items)
  | keep {left items : List Json} {kept item : Json} :
      Cut kept item → CutItems left items → CutItems (kept :: left) (item :: items)

inductive CutMembers : Json.Members → Json.Members → Prop
  | nil : CutMembers [] []
  | drop {left members : Json.Members} (key : String) (value : Json) :
      CutMembers left members → CutMembers left ((key, value) :: members)
  | keep {left members : Json.Members} {kept value : Json} (key : String) :
      Cut kept value → CutMembers left members →
      CutMembers ((key, kept) :: left) ((key, value) :: members)

end

variable {v : Verifier} {place : Place}

section Unfolding

attribute [local simp] filterAt filterItems filterMembers

theorem filterItems_eq_filterMap (v : Verifier) (entry : Place) (items : List Json) :
    filterItems v entry items = items.filterMap (filterAt v entry) := by
  induction items with
  | nil => simp
  | cons item rest ih =>
    rw [filterItems, List.filterMap_cons, ih]
    cases filterAt v entry item <;> rfl

theorem sublistForall₂_filterMap {α β : Type} {R : β → α → Prop} {f : α → Option β} {l : List α}
    (h : ∀ x ∈ l, ∀ y, f x = some y → R y x) : List.SublistForall₂ R (l.filterMap f) l := by
  induction l with
  | nil => exact .nil
  | cons x rest ih =>
    obtain ⟨hx, hrest⟩ := List.forall_mem_cons.mp h
    rw [List.filterMap_cons]
    split
    · exact .cons_right (ih hrest)
    · rename_i y hy
      exact .cons (hx y hy) (ih hrest)

theorem mem_filterItems {entry : Place} {items : List Json} {left : Json} :
    left ∈ filterItems v entry items ↔ ∃ item ∈ items, filterAt v entry item = some left := by
  rw [filterItems_eq_filterMap, List.mem_filterMap]

theorem filterMembers_eq_filterMap (v : Verifier) (place : Place) (parent : Option String)
    (members : Json.Members) :
    filterMembers v place parent members = members.filterMap fun member =>
      (place.member? parent member.1).bind fun inner =>
        (filterAt v inner member.2).map fun left => (member.1, left) := by
  induction members with
  | nil => simp
  | cons member rest ih =>
    obtain ⟨key, value⟩ := member
    rw [filterMembers, List.filterMap_cons, ih]
    cases hinner : place.member? parent key with
    | none => simp
    | some inner => cases hleft : filterAt v inner value <;> simp [hleft]

theorem mem_filterMembers {parent : Option String} {members : Json.Members} {key : String}
    {left : Json} :
    (key, left) ∈ filterMembers v place parent members ↔
      ∃ value inner, (key, value) ∈ members ∧ place.member? parent key = some inner ∧
        filterAt v inner value = some left := by
  simp only [filterMembers_eq_filterMap, List.mem_filterMap, Option.bind_eq_some_iff,
    Option.map_eq_some_iff, Prod.mk.injEq, Prod.exists]
  constructor
  · rintro ⟨key', value, hm, inner, hinner, left', hleft, rfl, rfl⟩
    exact ⟨value, inner, hm, hinner, hleft⟩
  · rintro ⟨value, inner, hm, hinner, hleft⟩
    exact ⟨key, value, hm, inner, hinner, left, hleft, rfl, rfl⟩

theorem filterAt_array {entry : Place} (hitems : place.items? = some entry) (items : List Json) :
    filterAt v place (.array items) = some (.array (filterItems v entry items)) := by
  cases place <;> simp_all [Place.items?]

theorem filterAt_array_of_items?_eq_none {items : List Json} (hitems : place.items? = none)
    {left : Json} (h : filterAt v place (.array items) = some left) : left = .array items := by
  cases place <;> simp_all [Place.items?]

def isScalar : Json → Bool
  | .array _ => false
  | .object _ => false
  | _ => true

theorem eq_of_filterAt_scalar {value left : Json} (hscalar : isScalar value = true)
    (h : filterAt v place value = some left) : left = value := by
  cases value <;> cases place <;> simp_all [isScalar]

end Unfolding

private theorem filterAt_scalar_cut {value left : Json} (hscalar : isScalar value = true)
    (h : filterAt v place value = some left) : Cut left value :=
  eq_of_filterAt_scalar hscalar h ▸ .whole value

mutual

theorem filterAt_cut {place : Place} {left : Json} :
    ∀ {value : Json}, filterAt v place value = some left → Cut left value
  | .object members, h => by
    rw [filterAt] at h
    split at h
    · cases h
      exact .object (filterMembers_cut members)
    · split at h
      · cases h
        exact .null _
      · cases h
  | .array items, h => by
    cases hitems : place.items? with
    | none => exact filterAt_array_of_items?_eq_none hitems h ▸ .whole _
    | some entry =>
      rw [filterAt_array hitems] at h
      cases h
      exact .array (filterItems_cut items)
  | .null, h => filterAt_scalar_cut rfl h
  | .boolean _, h => filterAt_scalar_cut rfl h
  | .number _, h => filterAt_scalar_cut rfl h
  | .text _, h => filterAt_scalar_cut rfl h

theorem filterItems_cut {entry : Place} :
    ∀ items : List Json, CutItems (filterItems v entry items) items
  | [] => by
    rw [filterItems]
    exact .nil
  | item :: rest => by
    rw [filterItems]
    split
    · rename_i kept hkept
      exact .keep (filterAt_cut hkept) (filterItems_cut rest)
    · exact .drop item (filterItems_cut rest)

theorem filterMembers_cut {place : Place} {parent : Option String} :
    ∀ members : Json.Members, CutMembers (filterMembers v place parent members) members
  | [] => by
    rw [filterMembers]
    exact .nil
  | (key, value) :: rest => by
    rw [filterMembers]
    split
    · exact .drop key value (filterMembers_cut rest)
    · split
      · rename_i kept hkept
        exact .keep key (filterAt_cut hkept) (filterMembers_cut rest)
      · exact .drop key value (filterMembers_cut rest)

end

end FieldAuthorization.Introspection
