import FieldAuthorization.Proofs.Document.Occurrence

/-!
What redaction comes to, and what it leaves of it.

Redaction reaches a place if no field around it belongs to introspection and every field around it
is authorized. Whatever it leaves outside introspection stood at a place that it reached, and
pruning only takes selections away.
-/

set_option autoImplicit false
set_option relaxedAutoImplicit false

namespace FieldAuthorization

namespace Authority

theorem judge_eq_ok_iff {a : Authority} {parent : String} {head : Field}
    {items : List Selection} {type : String} :
    a.judge parent head items = .ok type ↔
      a.verifier.allows parent head.name = true ∧
        (∀ authorizes, a.extension = some authorizes → authorizes parent head items = true) ∧
        ∃ d, a.schema.field? parent head.name = some d ∧ d.type = type := by
  unfold judge
  cases hv : a.verifier.allows parent head.name with
  | false => simp
  | true =>
    cases he : a.extension with
    | none => cases hf : a.schema.field? parent head.name <;> simp
    | some authorizes =>
      cases hx : authorizes parent head items <;>
        cases hf : a.schema.field? parent head.name <;> simp [hx]

/-- Redaction of selections on a type comes to a selection on another type inside the enclosures of
a trail: none of them belongs to introspection, and each field among them is authorized. -/
inductive Reaches (a : Authority) :
    String → List Selection → List Enclosure → String → Selection → Prop
  | here {parent : String} {items : List Selection} {x : Selection} :
      x ∈ items → Reaches a parent items [] parent x
  | field {parent type inside : String} {items inner : List Selection} {head : Field}
      {trail : List Enclosure} {x : Selection} :
      .field head inner ∈ items → isMeta head.name = false →
      a.judge parent head inner = .ok type → Reaches a type inner trail inside x →
      Reaches a parent items (.field head :: trail) inside x
  | inline {parent inside : String} {items inner : List Selection} {head : InlineFragment}
      {trail : List Enclosure} {x : Selection} :
      .inline head inner ∈ items → Reaches a (head.condition.getD parent) inner trail inside x →
      Reaches a parent items (.inline head :: trail) inside x

namespace Reaches

variable {a : Authority} {parent inside : String} {items : List Selection}
  {trail : List Enclosure} {x : Selection}

theorem occurs (h : a.Reaches parent items trail inside x) : Occurs items trail x := by
  induction h with
  | here hx => exact .here hx
  | field hm _ _ _ ih => exact .field hm ih
  | inline hm _ ih => exact .inline hm ih

theorem typeAt (h : a.Reaches parent items trail inside x) :
    a.schema.typeAt parent trail = some inside := by
  induction h with
  | here _ => rfl
  | field _ _ hjudge _ ih =>
    obtain ⟨-, -, d, hd, rfl⟩ := judge_eq_ok_iff.mp hjudge
    rw [Schema.typeAt_field hd]
    exact ih
  | inline _ _ ih =>
    rw [Schema.typeAt_inline]
    exact ih

end Reaches

end Authority

namespace Redaction

variable {a : Authority} {policy : EmptySelections} {parent : String}

theorem redactSelections_eq_filterMap (a : Authority) (policy : EmptySelections) (parent : String)
    (items : List Selection) :
    redactSelections a policy parent items =
      items.filterMap (redactSelection a policy parent) := by
  induction items with
  | nil => simp [redactSelections]
  | cons x rest ih =>
    rw [redactSelections, List.filterMap_cons, ih]
    cases redactSelection a policy parent x <;> rfl

theorem denialsInAll_eq_flatMap (a : Authority) (root : RedactionRoot) (parent : String)
    (path : List String) (items : List Selection) :
    denialsInAll a root parent path items = items.flatMap (denialsIn a root parent path) := by
  induction items with
  | nil => rfl
  | cons x rest ih => rw [denialsInAll, ih, List.flatMap_cons]

theorem mem_redactSelections {items : List Selection} {y : Selection} :
    y ∈ redactSelections a policy parent items ↔
      ∃ x ∈ items, redactSelection a policy parent x = some y := by
  rw [redactSelections_eq_filterMap, List.mem_filterMap]

theorem of_redactSelection_field {x : Selection} {head : Field} {left : List Selection}
    (h : redactSelection a policy parent x = some (.field head left)) :
    ∃ inner, x = .field head inner ∧
      ((isMeta head.name = true ∧ left = Introspection.withEntryNames head inner) ∨
        (isMeta head.name = false ∧ ∃ type, a.judge parent head inner = .ok type ∧
          left = redactSelections a policy type inner)) := by
  cases x with
  | field head' inner =>
    rw [redactSelection] at h
    split at h
    · rename_i hmeta
      simp only [Option.some.injEq, Selection.field.injEq] at h
      obtain ⟨rfl, rfl⟩ := h
      exact ⟨inner, rfl, .inl ⟨hmeta, rfl⟩⟩
    · rename_i hmeta
      cases hjudge : a.judge parent head' inner with
      | error reason => simp [hjudge] at h
      | ok type =>
        simp only [hjudge] at h
        split at h
        · simp at h
        · simp only [Option.some.injEq, Selection.field.injEq] at h
          obtain ⟨rfl, rfl⟩ := h
          exact ⟨inner, rfl, .inr ⟨by simpa using hmeta, type, hjudge, rfl⟩⟩
  | spread head' => simp [redactSelection] at h
  | inline head' inner => simp [redactSelection] at h

theorem of_redactSelection_spread {x : Selection} {head : Spread}
    (h : redactSelection a policy parent x = some (.spread head)) : x = .spread head := by
  cases x with
  | field head' inner =>
    rw [redactSelection] at h
    split at h
    · simp at h
    · cases hjudge : a.judge parent head' inner <;> simp [hjudge] at h
  | spread head' => exact (Option.some.inj h)
  | inline head' inner => simp [redactSelection] at h

theorem of_redactSelection_inline {x : Selection} {head : InlineFragment} {left : List Selection}
    (h : redactSelection a policy parent x = some (.inline head left)) :
    ∃ inner, x = .inline head inner ∧
      left = redactSelections a policy (head.condition.getD parent) inner := by
  cases x with
  | field head' inner =>
    rw [redactSelection] at h
    split at h
    · simp at h
    · cases hjudge : a.judge parent head' inner <;> simp [hjudge] at h
  | spread head' => simp [redactSelection] at h
  | inline head' inner =>
    simp only [redactSelection] at h
    split at h
    · simp at h
    · simp only [Option.some.injEq, Selection.inline.injEq] at h
      obtain ⟨rfl, rfl⟩ := h
      exact ⟨inner, rfl, rfl⟩

/-- What redaction leaves at a place outside introspection it made from a selection that it reached
at that place. -/
theorem reaches_of_occurs {items : List Selection} {trail : List Enclosure} {y : Selection}
    (h : Occurs (redactSelections a policy parent items) trail y) (hexposed : Exposed trail) :
    ∃ inside x, a.Reaches parent items trail inside x ∧
      redactSelection a policy inside x = some y := by
  generalize hleft : redactSelections a policy parent items = left at h
  induction h generalizing parent items with
  | here hy =>
    subst hleft
    obtain ⟨x, hx, hxy⟩ := mem_redactSelections.mp hy
    exact ⟨parent, x, .here hx, hxy⟩
  | @field _ inner head trail y hm _ ih =>
    subst hleft
    obtain ⟨hmeta, htrail⟩ := exposed_field.mp hexposed
    obtain ⟨x, hx, hxy⟩ := mem_redactSelections.mp hm
    obtain ⟨inner, rfl, ⟨hmeta', -⟩ | ⟨-, type, hjudge, hinner⟩⟩ := of_redactSelection_field hxy
    · simp [hmeta] at hmeta'
    · obtain ⟨inside, z, hz, hzy⟩ := ih htrail hinner.symm
      exact ⟨inside, z, .field hx hmeta hjudge hz, hzy⟩
  | @inline _ inner head trail y hm _ ih =>
    subst hleft
    obtain ⟨x, hx, hxy⟩ := mem_redactSelections.mp hm
    obtain ⟨inner, rfl, hinner⟩ := of_redactSelection_inline hxy
    obtain ⟨inside, z, hz, hzy⟩ := ih (exposed_inline.mp hexposed) hinner.symm
    exact ⟨inside, z, .inline hx hz, hzy⟩

end Redaction

end FieldAuthorization
