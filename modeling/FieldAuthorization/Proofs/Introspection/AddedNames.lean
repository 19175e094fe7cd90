import Mathlib.Data.List.Forall2
import FieldAuthorization.Proofs.Document.Occurrence

/-!
What adding names does to selections.

Every field stays at its place, with names added to the selections below it if it returns a type of
introspection. The only new fields are the names themselves, which select nothing.
-/

set_option autoImplicit false
set_option relaxedAutoImplicit false

namespace FieldAuthorization.Introspection

/-- Selections on a type with names added to them and below them. -/
def withNames (type : String) (closing : Position) (items : List Selection) : List Selection :=
  withNestedNamesAll type items ++ missingName type closing items

def withNamesOf (type : Option String) (closing : Position) (items : List Selection) :
    List Selection :=
  match type with
  | some type => withNames type closing items
  | none => items

def typeAt (type : String) (trail : List Enclosure) : Option String :=
  typeAlong childType? type trail

/-- The second selection is the first with nothing but names added: at most one below a field,
behind what is selected there, and none where nothing is. -/
inductive GainsNames : Selection → Selection → Prop
  | field {head : Field} {items inner left : List Selection} :
      List.Forall₂ GainsNames items inner →
      (left = inner ∨ items ≠ [] ∧ left = inner ++ [nameSelection head.closing]) →
      GainsNames (.field head items) (.field head left)
  | spread (head : Spread) : GainsNames (.spread head) (.spread head)
  | inline {head : InlineFragment} {items left : List Selection} :
      List.Forall₂ GainsNames items left → GainsNames (.inline head items) (.inline head left)

variable {type : String} {items : List Selection} {trail : List Enclosure} {head : Field}

theorem childType?_name (type : String) : childType? type "name" = none := by
  unfold childType?
  split <;> simp_all

private theorem childType?_of_entryType? {entry : String} (h : entryType? head.name = some entry)
    (type : String) : childType? type head.name = none := by
  unfold entryType? at h
  unfold childType?
  split at h <;> split <;> simp_all

theorem isMeta_of_entryType? {entry : String} (h : entryType? head.name = some entry) :
    isMeta head.name = true := by
  unfold entryType? at h
  split at h
  · rename_i heq
    rw [heq]
    decide
  · rename_i heq
    rw [heq]
    decide
  · simp at h

private theorem name_ne_of_entryType? {entry : String} (h : entryType? head.name = some entry) :
    head.name ≠ "name" := by
  intro hname
  simp [hname, entryType?] at h

theorem withEntryNames_eq (head : Field) (items : List Selection) :
    withEntryNames head items = withNamesOf (entryType? head.name) head.closing items := by
  unfold withEntryNames withNamesOf
  cases entryType? head.name <;> rfl

theorem withNestedNamesAll_eq_map (type : String) (items : List Selection) :
    withNestedNamesAll type items = items.map (withNestedNames type) := by
  induction items with
  | nil => simp [withNestedNamesAll]
  | cons x rest ih => rw [withNestedNamesAll, ih, List.map_cons]

theorem withNestedNames_field (type : String) (head : Field) (items : List Selection) :
    withNestedNames type (.field head items) =
      .field head (withNamesOf (childType? type head.name) head.closing items) := by
  rw [withNestedNames]
  cases childType? type head.name <;> rfl

private theorem GainsNames.refl (x : Selection) : GainsNames x x := by
  induction x with
  | field head items ih => exact .field (List.forall₂_same.mpr ih) (.inl rfl)
  | spread head => exact .spread head
  | inline head items ih => exact .inline (List.forall₂_same.mpr ih)

theorem GainsNames.forall₂_map {f : Selection → Selection} (h : ∀ x ∈ items, GainsNames x (f x)) :
    List.Forall₂ GainsNames items (items.map f) :=
  List.forall₂_map_right_iff.mpr (List.forall₂_same.mpr h)

theorem GainsNames.withNamesOf (head : Field) (type : Option String)
    (h : ∀ x ∈ items, ∀ type, GainsNames x (withNestedNames type x)) :
    GainsNames (.field head items) (.field head (withNamesOf type head.closing items)) := by
  cases type with
  | none => exact .refl _
  | some type =>
    refine .field (forall₂_map fun x hx => h x hx type) ?_
    rw [Introspection.withNamesOf, withNames, withNestedNamesAll_eq_map, missingName]
    split
    · rename_i hlacks
      simp only [Bool.and_eq_true, Bool.not_eq_true', List.isEmpty_eq_false_iff] at hlacks
      exact .inr ⟨hlacks.1.2, rfl⟩
    · exact .inl (List.append_nil _)

theorem gainsNames_withNestedNames (type : String) (x : Selection) :
    GainsNames x (withNestedNames type x) := by
  induction x generalizing type with
  | field head items ih =>
    rw [withNestedNames_field]
    exact .withNamesOf head _ ih
  | spread head =>
    rw [withNestedNames]
    exact .spread head
  | inline head items ih =>
    rw [withNestedNames, withNestedNamesAll_eq_map]
    exact .inline (GainsNames.forall₂_map fun x hx => ih x hx _)

private theorem field_mem_withNestedNamesAll {left : List Selection} :
    .field head left ∈ withNestedNamesAll type items ↔
      ∃ inner, .field head inner ∈ items ∧
        left = withNamesOf (childType? type head.name) head.closing inner := by
  rw [withNestedNamesAll_eq_map, List.mem_map]
  constructor
  · rintro ⟨x, hx, hxy⟩
    cases x with
    | field head' inner =>
      rw [withNestedNames_field] at hxy
      obtain ⟨rfl, rfl⟩ := Selection.field.inj hxy
      exact ⟨inner, hx, rfl⟩
    | spread head' => simp [withNestedNames] at hxy
    | inline head' inner => simp [withNestedNames] at hxy
  · rintro ⟨inner, hinner, rfl⟩
    exact ⟨_, hinner, withNestedNames_field type head inner⟩

private theorem inline_mem_withNestedNamesAll {head : InlineFragment} {left : List Selection} :
    .inline head left ∈ withNestedNamesAll type items ↔
      ∃ inner, .inline head inner ∈ items ∧
        left = withNestedNamesAll (head.condition.getD type) inner := by
  rw [withNestedNamesAll_eq_map, List.mem_map]
  constructor
  · rintro ⟨x, hx, hxy⟩
    cases x with
    | field head' inner => simp [withNestedNames_field] at hxy
    | spread head' => simp [withNestedNames] at hxy
    | inline head' inner =>
      rw [withNestedNames] at hxy
      obtain ⟨rfl, rfl⟩ := Selection.inline.inj hxy
      exact ⟨inner, hx, rfl⟩
  · rintro ⟨inner, hinner, rfl⟩
    exact ⟨_, hinner, by rw [withNestedNames]⟩

theorem mem_missingName {closing : Position} {x : Selection}
    (h : x ∈ missingName type closing items) : x = nameSelection closing := by
  unfold missingName at h
  split at h
  · exact List.mem_singleton.mp h
  · exact absurd h List.not_mem_nil

private theorem name_of_occurs_missingName {closing : Position} {left : List Selection}
    (h : Occurs (missingName type closing items) trail (.field head left)) :
    head.name = "name" := by
  cases h with
  | here hx =>
    obtain ⟨rfl, -⟩ := Selection.field.inj (mem_missingName hx)
    rfl
  | field hm hinner =>
    obtain ⟨-, rfl⟩ := Selection.field.inj (mem_missingName hm)
    exact absurd hinner not_occurs_nil
  | inline hm _ => exact Selection.noConfusion (mem_missingName hm)

theorem occurs_withNames {closing : Position} {left : List Selection} (hname : head.name ≠ "name") :
    Occurs (withNames type closing items) trail (.field head left) ↔
      Occurs (withNestedNamesAll type items) trail (.field head left) := by
  rw [withNames, occurs_append, or_iff_left]
  exact fun h => hname (name_of_occurs_missingName h)

/-- Among selections with names the fields that are not names are those there were before, each
with names added below it if it returns a type of introspection at its place. -/
theorem occurs_withNestedNamesAll {left : List Selection} (hname : head.name ≠ "name") :
    Occurs (withNestedNamesAll type items) trail (.field head left) ↔
      ∃ inner, Occurs items trail (.field head inner) ∧
        left = withNamesOf ((typeAt type trail).bind (childType? · head.name)) head.closing
          inner := by
  induction trail generalizing type items with
  | nil =>
    simp only [occurs_nil_iff, field_mem_withNestedNamesAll]
    rfl
  | cons e trail ih =>
    cases e with
    | field outer =>
      -- below a field that returns no type of introspection nothing is changed
      have hbelow : ∀ middle,
          Occurs (withNamesOf (childType? type outer.name) outer.closing middle) trail
              (.field head left) ↔
            ∃ inner, Occurs middle trail (.field head inner) ∧
              left = withNamesOf ((typeAt type (.field outer :: trail)).bind
                (childType? · head.name)) head.closing inner := by
        intro middle
        cases hchild : childType? type outer.name with
        | none => simp [withNamesOf, typeAt, typeAlong, hchild]
        | some child =>
          have htype : typeAt type (.field outer :: trail) = typeAt child trail := by
            simp [typeAt, typeAlong, hchild]
          rw [htype, withNamesOf, occurs_withNames hname]
          exact ih
      simp only [occurs_field_iff, field_mem_withNestedNamesAll]
      constructor
      · rintro ⟨_, ⟨middle, hm, rfl⟩, hoccurs⟩
        obtain ⟨inner, hinner, hleft⟩ := (hbelow middle).mp hoccurs
        exact ⟨inner, ⟨middle, hm, hinner⟩, hleft⟩
      · rintro ⟨inner, ⟨middle, hm, hinner⟩, hleft⟩
        exact ⟨_, ⟨middle, hm, rfl⟩, (hbelow middle).mpr ⟨inner, hinner, hleft⟩⟩
    | inline outer =>
      simp only [occurs_inline_iff, inline_mem_withNestedNamesAll]
      constructor
      · rintro ⟨_, ⟨middle, hm, rfl⟩, hoccurs⟩
        obtain ⟨inner, hinner, hleft⟩ := ih.mp hoccurs
        exact ⟨inner, ⟨middle, hm, hinner⟩, hleft⟩
      · rintro ⟨inner, ⟨middle, hm, hinner⟩, hleft⟩
        exact ⟨_, ⟨middle, hm, rfl⟩, ih.mpr ⟨inner, hinner, hleft⟩⟩

theorem occurs_entry_withNestedNamesAll {entry : String} {left : List Selection}
    (hentry : entryType? head.name = some entry) :
    Occurs (withNestedNamesAll type items) trail (.field head left) ↔
      Occurs items trail (.field head left) := by
  rw [occurs_withNestedNamesAll (name_ne_of_entryType? hentry)]
  simp [childType?_of_entryType? hentry, withNamesOf]

theorem occurs_entry_withEntryNames {outer : Field} {entry : String} {left : List Selection}
    (hentry : entryType? head.name = some entry) :
    Occurs (withEntryNames outer items) trail (.field head left) ↔
      Occurs items trail (.field head left) := by
  rw [withEntryNames_eq]
  cases entryType? outer.name with
  | none => rfl
  | some type =>
    rw [withNamesOf, occurs_withNames (name_ne_of_entryType? hentry),
      occurs_entry_withNestedNamesAll hentry]

end FieldAuthorization.Introspection
