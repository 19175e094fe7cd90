import FieldAuthorization.Proofs.Document.Occurrence

/-!
Selections with all that is around them.

A place is where selections stand: at the top of a definition, below a field or in an inline
fragment. The selections of a document are listed with their places as the text has them, and a
document is sifted by a test of each selection at its place.
-/

set_option autoImplicit false
set_option relaxedAutoImplicit false

namespace FieldAuthorization

/-- Where selections stand, with everything around them. -/
inductive Place
  | root (x : Definition)
  | field (outer : Place) (head : Field) (items : List Selection)
  | inline (outer : Place) (head : InlineFragment)

namespace Place

def origin : Place → Definition
  | root x => x
  | field outer _ _ => outer.origin
  | inline outer _ => outer.origin

def path : Place → List String
  | root _ => []
  | field outer head _ => outer.path ++ [head.responseKey]
  | inline outer _ => outer.path

/-- The type at the place as a schema gives it, unless it lacks a field around the place. -/
def type? (s : Schema) : Place → Option String
  | root x => some (x.rootType s)
  | field outer head _ => (outer.type? s).bind (s.returns? · head.name)
  | inline outer head => (outer.type? s).map (head.condition.getD ·)

/-- Whether the place is outside introspection: not in a fragment on a type of it and not below a
field whose name begins with two underscores. -/
def isExposed : Place → Bool
  | root x => !x.onIntrospection
  | field outer head _ => outer.isExposed && !isMeta head.name
  | inline outer _ => outer.isExposed

end Place

mutual

/-- A selection at a place and all that is below it, each before what is below it. -/
def occurrencesIn (outer : Place) : Selection → List (Place × Selection)
  | .field head items =>
    (outer, .field head items) :: occurrencesInAll (.field outer head items) items
  | .spread head => [(outer, .spread head)]
  | .inline head items => (outer, .inline head items) :: occurrencesInAll (.inline outer head) items

def occurrencesInAll (outer : Place) : List Selection → List (Place × Selection)
  | [] => []
  | item :: rest => occurrencesIn outer item ++ occurrencesInAll outer rest

end

mutual

/-- A selection at a place, if it passes the test, without all below it that does not. -/
def siftSelection (keep : Place → Selection → Bool) (outer : Place) : Selection → Option Selection
  | .field head items =>
    if keep outer (.field head items) then
      some (.field head (siftSelections keep (.field outer head items) items))
    else none
  | .spread head => if keep outer (.spread head) then some (.spread head) else none
  | .inline head items =>
    if keep outer (.inline head items) then
      some (.inline head (siftSelections keep (.inline outer head) items))
    else none

def siftSelections (keep : Place → Selection → Bool) (outer : Place) :
    List Selection → List Selection
  | [] => []
  | item :: rest =>
    match siftSelection keep outer item with
    | some kept => kept :: siftSelections keep outer rest
    | none => siftSelections keep outer rest

end

namespace Document

def occurrences (d : Document) : List (Place × Selection) :=
  d.definitions.flatMap fun x => occurrencesInAll (.root x) x.items

def sift (d : Document) (keep : Place → Selection → Bool) : Document :=
  ⟨d.definitions.map fun x => x.withItems (siftSelections keep (.root x) x.items)⟩

end Document

theorem occurrencesInAll_eq_flatMap (outer : Place) (items : List Selection) :
    occurrencesInAll outer items = items.flatMap (occurrencesIn outer) := by
  induction items with
  | nil => rfl
  | cons x rest ih => rw [occurrencesInAll, ih, List.flatMap_cons]

theorem siftSelections_eq_filterMap (keep : Place → Selection → Bool) (outer : Place)
    (items : List Selection) :
    siftSelections keep outer items = items.filterMap (siftSelection keep outer) := by
  induction items with
  | nil => rfl
  | cons x rest ih =>
    rw [siftSelections, List.filterMap_cons, ih]
    cases siftSelection keep outer x <;> rfl

section Inside

variable (inside : Place → Prop)
  (hfield : ∀ outer head items, inside outer → inside (.field outer head items))
  (hinline : ∀ outer head, inside outer → inside (.inline outer head))

include hfield hinline

private theorem inside_of_mem_occurrencesIn {outer : Place} {x : Selection} (h : inside outer) :
    ∀ p ∈ occurrencesIn outer x, inside p.1 := by
  have hall {outer : Place} {items : List Selection} (h : inside outer)
      (ih : ∀ y ∈ items, ∀ {outer}, inside outer → ∀ p ∈ occurrencesIn outer y, inside p.1) :
      ∀ p ∈ occurrencesInAll outer items, inside p.1 := by
    intro p hp
    rw [occurrencesInAll_eq_flatMap] at hp
    obtain ⟨y, hy, hp⟩ := List.mem_flatMap.mp hp
    exact ih y hy h p hp
  induction x generalizing outer with
  | field head items ih =>
    rw [occurrencesIn]
    exact List.forall_mem_cons.mpr ⟨h, hall (hfield outer head items h) ih⟩
  | spread head =>
    rw [occurrencesIn]
    exact List.forall_mem_cons.mpr ⟨h, fun _ hp => absurd hp List.not_mem_nil⟩
  | inline head items ih =>
    rw [occurrencesIn]
    exact List.forall_mem_cons.mpr ⟨h, hall (hinline outer head h) ih⟩

theorem inside_of_mem_occurrencesInAll {outer : Place} {items : List Selection} (h : inside outer) :
    ∀ p ∈ occurrencesInAll outer items, inside p.1 := by
  intro p hp
  rw [occurrencesInAll_eq_flatMap] at hp
  obtain ⟨x, -, hp⟩ := List.mem_flatMap.mp hp
  exact inside_of_mem_occurrencesIn inside hfield hinline h p hp

theorem siftSelection_eq_self {keep : Place → Selection → Bool} {outer : Place} {x : Selection}
    (hkeep : ∀ outer x, inside outer → keep outer x = true) (h : inside outer) :
    siftSelection keep outer x = some x := by
  have hall {outer : Place} {items : List Selection} (h : inside outer)
      (ih : ∀ y ∈ items, ∀ {outer}, inside outer → siftSelection keep outer y = some y) :
      siftSelections keep outer items = items := by
    rw [siftSelections_eq_filterMap]
    exact filterMap_eq_self fun y hy => ih y hy h
  induction x generalizing outer with
  | field head items ih =>
    rw [siftSelection, if_pos (hkeep outer _ h), hall (hfield outer head items h) ih]
  | spread head => rw [siftSelection, if_pos (hkeep outer _ h)]
  | inline head items ih =>
    rw [siftSelection, if_pos (hkeep outer _ h), hall (hinline outer head h) ih]

end Inside

theorem Place.origin_of_mem {outer : Place} {items : List Selection} {p : Place × Selection}
    (hp : p ∈ occurrencesInAll outer items) : p.1.origin = outer.origin :=
  inside_of_mem_occurrencesInAll (fun place => place.origin = outer.origin) (fun _ _ _ => id)
    (fun _ _ => id) rfl p hp

end FieldAuthorization
