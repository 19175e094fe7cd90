import FieldAuthorization.Proofs.Document.Occurrence

/-!
What pruning leaves.

Pruning takes selections away and changes nothing else: what is left at a place was made from a
selection at the same place.
-/

set_option autoImplicit false
set_option relaxedAutoImplicit false

namespace FieldAuthorization.Prune

variable {emptied : Emptied}

section Unfolding

attribute [local simp] pruneSelection pruneSelections

theorem pruneSelections_eq_filterMap (emptied : Emptied) (items : List Selection) :
    pruneSelections emptied items = items.filterMap (pruneSelection emptied) := by
  induction items with
  | nil => simp
  | cons x rest ih =>
    rw [pruneSelections, List.filterMap_cons, ih]
    cases pruneSelection emptied x <;> rfl

theorem mem_pruneSelections {items : List Selection} {y : Selection} :
    y ∈ pruneSelections emptied items ↔ ∃ x ∈ items, pruneSelection emptied x = some y := by
  rw [pruneSelections_eq_filterMap, List.mem_filterMap]

@[simp] theorem pruneSelections_nil : pruneSelections emptied [] = [] := by
  simp

theorem pruneSelection_leaf (head : Field) :
    pruneSelection emptied (.field head []) = some (.field head []) := by
  simp

end Unfolding

theorem eq_of_pruneSelection_field {head : Field} {items : List Selection} {y : Selection}
    (h : pruneSelection emptied (.field head items) = some y) :
    y = .field head (pruneSelections emptied items) := by
  cases items with
  | nil => simpa [pruneSelection] using h.symm
  | cons x rest =>
    simp only [pruneSelection] at h
    split at h
    · simp_all
    · split at h <;> simp_all

theorem eq_of_pruneSelection_inline {head : InlineFragment} {items : List Selection}
    {y : Selection} (h : pruneSelection emptied (.inline head items) = some y) :
    y = .inline head (pruneSelections emptied items) := by
  simp only [pruneSelection] at h
  split at h <;> simp_all

theorem eq_of_pruneSelection_spread {head : Spread} {y : Selection}
    (h : pruneSelection emptied (.spread head) = some y) : y = .spread head := by
  rw [pruneSelection] at h
  split at h <;> simp_all

theorem items_eq_nil_of_pruneSelection {head : Field} {items : List Selection} {y : Selection}
    (h : pruneSelection emptied (.field head items) = some y)
    (hleft : pruneSelections emptied items = []) : items = [] := by
  cases items with
  | nil => rfl
  | cons x rest => simp [pruneSelection, hleft] at h

theorem pruneSelections_ne_nil_of_inline {head : InlineFragment} {items : List Selection}
    {y : Selection} (h : pruneSelection emptied (.inline head items) = some y) :
    pruneSelections emptied items ≠ [] := by
  intro hleft
  simp [pruneSelection, hleft] at h

theorem of_pruneSelection_field {x : Selection} {head : Field} {left : List Selection}
    (h : pruneSelection emptied x = some (.field head left)) :
    ∃ inner, x = .field head inner ∧ left = pruneSelections emptied inner := by
  cases x with
  | field head' inner =>
    obtain ⟨rfl, rfl⟩ := Selection.field.inj (eq_of_pruneSelection_field h)
    exact ⟨inner, rfl, rfl⟩
  | spread head' => exact Selection.noConfusion (eq_of_pruneSelection_spread h)
  | inline head' inner => exact Selection.noConfusion (eq_of_pruneSelection_inline h)

private theorem of_pruneSelection_inline {x : Selection} {head : InlineFragment}
    {left : List Selection} (h : pruneSelection emptied x = some (.inline head left)) :
    ∃ inner, x = .inline head inner ∧ left = pruneSelections emptied inner := by
  cases x with
  | field head' inner => exact Selection.noConfusion (eq_of_pruneSelection_field h)
  | spread head' => exact Selection.noConfusion (eq_of_pruneSelection_spread h)
  | inline head' inner =>
    obtain ⟨rfl, rfl⟩ := Selection.inline.inj (eq_of_pruneSelection_inline h)
    exact ⟨inner, rfl, rfl⟩

theorem of_pruneSelection_spread {x : Selection} {head : Spread}
    (h : pruneSelection emptied x = some (.spread head)) :
    x = .spread head ∧ emptied.contains head.name = false := by
  cases x with
  | field head' inner => exact Selection.noConfusion (eq_of_pruneSelection_field h)
  | spread head' =>
    obtain rfl := Selection.spread.inj (eq_of_pruneSelection_spread h)
    refine ⟨rfl, ?_⟩
    cases hgone : emptied.contains head.name with
    | false => rfl
    | true => simp [pruneSelection, hgone] at h
  | inline head' inner => exact Selection.noConfusion (eq_of_pruneSelection_inline h)

theorem occurs_of_pruned {items : List Selection} {trail : List Enclosure} {y : Selection}
    (h : Occurs (pruneSelections emptied items) trail y) :
    ∃ x, Occurs items trail x ∧ pruneSelection emptied x = some y := by
  generalize hleft : pruneSelections emptied items = left at h
  induction h generalizing items with
  | here hy =>
    subst hleft
    obtain ⟨x, hx, hxy⟩ := mem_pruneSelections.mp hy
    exact ⟨x, .here hx, hxy⟩
  | field hm _ ih =>
    subst hleft
    obtain ⟨x, hx, hxy⟩ := mem_pruneSelections.mp hm
    obtain ⟨inner, rfl, hinner⟩ := of_pruneSelection_field hxy
    obtain ⟨z, hz, hzy⟩ := ih hinner.symm
    exact ⟨z, .field hx hz, hzy⟩
  | inline hm _ ih =>
    subst hleft
    obtain ⟨x, hx, hxy⟩ := mem_pruneSelections.mp hm
    obtain ⟨inner, rfl, hinner⟩ := of_pruneSelection_inline hxy
    obtain ⟨z, hz, hzy⟩ := ih hinner.symm
    exact ⟨z, .inline hx hz, hzy⟩

theorem not_emptied_of_occurs_pruned {items : List Selection} {trail : List Enclosure}
    {head : Spread} (h : Occurs (pruneSelections emptied items) trail (.spread head)) :
    emptied.contains head.name = false := by
  obtain ⟨x, -, hx⟩ := occurs_of_pruned h
  exact (of_pruneSelection_spread hx).2

theorem pruneSelection_field {head : Field} {items : List Selection}
    (hleft : pruneSelections emptied items ≠ []) :
    pruneSelection emptied (.field head items) =
      some (.field head (pruneSelections emptied items)) := by
  cases items with
  | nil => simp at hleft
  | cons x rest => simp [pruneSelection, hleft]

theorem pruneSelection_inline {head : InlineFragment} {items : List Selection}
    (hleft : pruneSelections emptied items ≠ []) :
    pruneSelection emptied (.inline head items) =
      some (.inline head (pruneSelections emptied items)) := by
  simp [pruneSelection, hleft]

theorem occurs_pruneSelections {items : List Selection} {trail : List Enclosure}
    {x y : Selection} (h : Occurs items trail x) (hleft : pruneSelection emptied x = some y) :
    Occurs (pruneSelections emptied items) trail y := by
  induction h with
  | here hx => exact .here (mem_pruneSelections.mpr ⟨_, hx, hleft⟩)
  | field hm _ ih =>
    have hinner := ih hleft
    exact .field (mem_pruneSelections.mpr ⟨_, hm, pruneSelection_field hinner.ne_nil⟩) hinner
  | inline hm _ ih =>
    have hinner := ih hleft
    exact .inline (mem_pruneSelections.mpr ⟨_, hm, pruneSelection_inline hinner.ne_nil⟩) hinner

theorem pruneDefinition_eq_some {x y : Definition} :
    pruneDefinition emptied x = some y ↔
      (∀ f, x = .fragment f → emptied.contains f.name = false) ∧
        y = x.withItems (pruneSelections emptied x.items) := by
  rw [@eq_comm _ y]
  cases x with
  | operation o => simp [pruneDefinition, Definition.withItems, Definition.items]
  | fragment f =>
    cases hemptied : emptied.contains f.name <;>
      simp [pruneDefinition, hemptied, Definition.withItems, Definition.items]

theorem mem_pruneDocument {d : Document} {y : Definition} :
    y ∈ (pruneDocument d).definitions ↔ ∃ x ∈ d.definitions,
      (∀ f, x = .fragment f → (emptiedFragments d).contains f.name = false) ∧
        y = x.withItems (pruneSelections (emptiedFragments d) x.items) := by
  simp only [pruneDocument, List.mem_filterMap, pruneDefinition_eq_some]

end FieldAuthorization.Prune
