import FieldAuthorization.Proofs.Introspection.AddedNames
import FieldAuthorization.Proofs.Redaction.Pruning

/-!
Selections that lack no name.

Where the client leaves the alias of added names alone, adding names labels every set of selections
on a type or a field. Labelled selections stay labelled when others are taken away, and adding names
changes nothing of them.
-/

set_option autoImplicit false
set_option relaxedAutoImplicit false

namespace FieldAuthorization

open Introspection

def NameKeyFree (items : List Selection) : Prop :=
  ∀ trail head inner, Occurs items trail (.field head inner) → head.aliasName ≠ some nameKey

@[simp] theorem nameKeyFree_nil : NameKeyFree [] :=
  fun _ _ _ hoccurs => absurd hoccurs not_occurs_nil

private theorem nameKeyFree_append {items more : List Selection} :
    NameKeyFree (items ++ more) ↔ NameKeyFree items ∧ NameKeyFree more := by
  simp only [NameKeyFree, occurs_append, or_imp, forall_and]

@[simp] theorem nameKeyFree_field {head : Field} {inner rest : List Selection} :
    NameKeyFree (.field head inner :: rest) ↔
      (head.aliasName ≠ some nameKey ∧ NameKeyFree inner) ∧ NameKeyFree rest := by
  refine (@nameKeyFree_append [_] rest).trans (and_congr_left fun _ => ?_)
  constructor
  · intro h
    exact ⟨h [] head inner (.here (List.mem_singleton.mpr rfl)), fun trail below rest hoccurs =>
      h (.field head :: trail) below rest (.field (List.mem_singleton.mpr rfl) hoccurs)⟩
  · rintro ⟨halias, hinner⟩ trail below rest hoccurs
    cases hoccurs with
    | here hm =>
      obtain ⟨rfl, rfl⟩ := Selection.field.inj (List.mem_singleton.mp hm)
      exact halias
    | field hm hoccurs =>
      obtain ⟨rfl, rfl⟩ := Selection.field.inj (List.mem_singleton.mp hm)
      exact hinner _ below rest hoccurs
    | inline hm _ => cases List.mem_singleton.mp hm

@[simp] theorem nameKeyFree_spread {head : Spread} {rest : List Selection} :
    NameKeyFree (.spread head :: rest) ↔ NameKeyFree rest := by
  refine (@nameKeyFree_append [_] rest).trans (and_iff_right ?_)
  intro trail below inner hoccurs
  rcases hoccurs with hm | ⟨hm, -⟩ | ⟨hm, -⟩ <;> cases List.mem_singleton.mp hm

@[simp] theorem nameKeyFree_inline {head : InlineFragment} {inner rest : List Selection} :
    NameKeyFree (.inline head inner :: rest) ↔ NameKeyFree inner ∧ NameKeyFree rest := by
  refine (@nameKeyFree_append [_] rest).trans (and_congr_left fun _ => ?_)
  constructor
  · exact fun h trail below rest hoccurs =>
      h (.inline head :: trail) below rest (.inline (List.mem_singleton.mpr rfl) hoccurs)
  · intro hinner trail below rest hoccurs
    cases hoccurs with
    | here hm => cases List.mem_singleton.mp hm
    | field hm _ => cases List.mem_singleton.mp hm
    | inline hm hoccurs =>
      obtain ⟨rfl, rfl⟩ := Selection.inline.inj (List.mem_singleton.mp hm)
      exact hinner _ below rest hoccurs

namespace NameKeyFree

variable {items : List Selection}

theorem of_mem {x : Selection} (h : NameKeyFree items) (hx : x ∈ items) : NameKeyFree [x] :=
  fun trail head inner hoccurs => h trail head inner (hoccurs.mono (by simpa using hx))

private theorem selectsNameKey_eq_false (h : NameKeyFree items) : selectsNameKey items = false := by
  rw [selectsNameKey, List.any_eq_false]
  intro x hx halias
  cases x with
  | field head inner => exact h [] head inner (.here hx) (by simpa using halias)
  | spread head => simp at halias
  | inline head inner => simp at halias

end NameKeyFree

namespace Introspection

variable {type : String} {items : List Selection} {emptied : Prune.Emptied}

/-- Selections on a type or a field, if there are any, select something under the alias of added
names that cannot be emptied. -/
def Labelled (type : String) (items : List Selection) : Prop :=
  isNamed type = true → items ≠ [] →
    ∃ head, .field head [] ∈ items ∧ head.aliasName = some nameKey

/-- Every set of selections below a selection on a type of introspection is labelled. -/
inductive LabelledBelow : String → Selection → Prop
  | field {type : String} {head : Field} {items : List Selection} :
      (∀ child, childType? type head.name = some child → Labelled child items) →
      (∀ child, childType? type head.name = some child → ∀ x ∈ items, LabelledBelow child x) →
      LabelledBelow type (.field head items)
  | spread {type : String} (head : Spread) : LabelledBelow type (.spread head)
  | inline {type : String} {head : InlineFragment} {items : List Selection} :
      (∀ x ∈ items, LabelledBelow (head.condition.getD type) x) →
      LabelledBelow type (.inline head items)

private theorem labelledBelow_nameSelection (place : Position) :
    LabelledBelow type (nameSelection place) := by
  refine .field (fun child hchild => ?_) (fun child hchild => ?_) <;>
    simp [childType?_name] at hchild

theorem Labelled.missingName_eq (h : Labelled type items) (closing : Position) :
    missingName type closing items = [] := by
  refine if_neg fun hmissing => ?_
  simp only [Bool.and_eq_true, Bool.not_eq_true', List.isEmpty_eq_false_iff] at hmissing
  obtain ⟨⟨htype, hne⟩, hkey⟩ := hmissing
  obtain ⟨head, hm, halias⟩ := h htype hne
  rw [selectsNameKey, List.any_eq_false] at hkey
  exact hkey _ hm (by simpa using halias)

private theorem LabelledBelow.withNestedNames_eq {x : Selection} (h : LabelledBelow type x) :
    withNestedNames type x = x := by
  induction h with
  | @field type head items hlabelled _ ih =>
    rw [withNestedNames_field]
    cases hchild : childType? type head.name with
    | none => rfl
    | some child =>
      rw [withNamesOf, withNames, (hlabelled child hchild).missingName_eq, List.append_nil,
        withNestedNamesAll_eq_map, List.map_congr_left (ih child hchild), List.map_id']
  | spread head => rfl
  | inline _ ih =>
    rw [withNestedNames, withNestedNamesAll_eq_map, List.map_congr_left ih, List.map_id']

theorem withNestedNamesAll_of_labelledBelow (h : ∀ x ∈ items, LabelledBelow type x) :
    withNestedNamesAll type items = items := by
  rw [withNestedNamesAll_eq_map,
    List.map_congr_left fun x hx => (h x hx).withNestedNames_eq, List.map_id']

theorem labelled_withNames (closing : Position) (h : NameKeyFree items) :
    Labelled type (withNames type closing items) := by
  intro htype hne
  have hitems : items ≠ [] := by
    rintro rfl
    simp [withNames, withNestedNamesAll, missingName] at hne
  have hmissing : missingName type closing items = [nameSelection closing] := by
    simp [missingName, htype, hitems, h.selectsNameKey_eq_false]
  rw [withNames, hmissing]
  exact ⟨_, List.mem_append_right _ (List.mem_singleton.mpr rfl), rfl⟩

private theorem labelledBelow_withNestedNames {x : Selection} (h : NameKeyFree [x]) :
    LabelledBelow type (withNestedNames type x) := by
  induction x generalizing type with
  | field head items ih =>
    have hfree : NameKeyFree items := (nameKeyFree_field.mp h).1.2
    rw [withNestedNames_field]
    refine .field (fun child hchild => ?_) fun child hchild => ?_
    · rw [hchild]
      exact labelled_withNames head.closing hfree
    · rw [hchild]
      intro y hy
      rcases List.mem_append.mp hy with hy | hy
      · rw [withNestedNamesAll_eq_map] at hy
        obtain ⟨x, hx, rfl⟩ := List.mem_map.mp hy
        exact ih x hx (hfree.of_mem hx)
      · exact mem_missingName hy ▸ labelledBelow_nameSelection _
  | spread head => exact .spread head
  | inline head items ih =>
    have hfree : NameKeyFree items := (nameKeyFree_inline.mp h).1
    rw [withNestedNames, withNestedNamesAll_eq_map]
    refine .inline fun y hy => ?_
    obtain ⟨x, hx, rfl⟩ := List.mem_map.mp hy
    exact ih x hx (hfree.of_mem hx)

theorem labelledBelow_withNestedNamesAll (h : NameKeyFree items) :
    ∀ y ∈ withNestedNamesAll type items, LabelledBelow type y := by
  intro y hy
  rw [withNestedNamesAll_eq_map] at hy
  obtain ⟨x, hx, rfl⟩ := List.mem_map.mp hy
  exact labelledBelow_withNestedNames (h.of_mem hx)

theorem labelledBelow_withNames (closing : Position) (h : NameKeyFree items) :
    ∀ y ∈ withNames type closing items, LabelledBelow type y := by
  intro y hy
  rcases List.mem_append.mp hy with hy | hy
  · exact labelledBelow_withNestedNamesAll h y hy
  · exact mem_missingName hy ▸ labelledBelow_nameSelection _

theorem Labelled.pruneSelections (h : Labelled type items) :
    Labelled type (Prune.pruneSelections emptied items) := by
  intro htype hne
  have hitems : items ≠ [] := by
    rintro rfl
    simp at hne
  obtain ⟨head, hm, halias⟩ := h htype hitems
  exact ⟨head, Prune.mem_pruneSelections.mpr ⟨_, hm, Prune.pruneSelection_leaf head⟩, halias⟩

theorem LabelledBelow.pruneSelection {x y : Selection} (h : LabelledBelow type x)
    (hleft : Prune.pruneSelection emptied x = some y) : LabelledBelow type y := by
  induction h generalizing y with
  | field hlabelled _ ih =>
    obtain rfl := Prune.eq_of_pruneSelection_field hleft
    refine .field (fun child hchild => (hlabelled child hchild).pruneSelections) ?_
    intro child hchild z hz
    obtain ⟨w, hw, hwz⟩ := Prune.mem_pruneSelections.mp hz
    exact ih child hchild w hw hwz
  | spread head =>
    obtain rfl := Prune.eq_of_pruneSelection_spread hleft
    exact .spread head
  | inline _ ih =>
    obtain rfl := Prune.eq_of_pruneSelection_inline hleft
    refine .inline fun z hz => ?_
    obtain ⟨w, hw, hwz⟩ := Prune.mem_pruneSelections.mp hz
    exact ih w hw hwz

theorem labelledBelow_pruneSelections (h : ∀ x ∈ items, LabelledBelow type x) :
    ∀ y ∈ Prune.pruneSelections emptied items, LabelledBelow type y := by
  intro y hy
  obtain ⟨x, hx, hxy⟩ := Prune.mem_pruneSelections.mp hy
  exact (h x hx).pruneSelection hxy

end Introspection

end FieldAuthorization
