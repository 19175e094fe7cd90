import FieldAuthorization.Proofs.Introspection.AddedNames
import FieldAuthorization.Proofs.Redaction.Pruning
import FieldAuthorization.Proofs.Redaction.Soundness

/-!
The entries into introspection that redaction leaves.

An entry stays where the fields around it are authorized, or where it is below another field of
introspection. In the first case names are added to what is selected below it, in the second it is
left alone. Pruning may then take away some of what is selected below it.
-/

set_option autoImplicit false
set_option relaxedAutoImplicit false

namespace FieldAuthorization

instance (trail : List Enclosure) : Decidable (Exposed trail) :=
  inferInstanceAs (Decidable (∀ e ∈ trail, e.isMeta = false))

/-- Redaction of selections on a type keeps the place inside the enclosures of a trail: each field
among them is authorized, or it is below a field of introspection, where everything stays. -/
inductive Authority.Keeps (a : Authority) :
    String → List Selection → List Enclosure → Selection → Prop
  | here {parent : String} {items : List Selection} {x : Selection} :
      x ∈ items → Keeps a parent items [] x
  | field {parent type : String} {items inner : List Selection} {head : Field}
      {trail : List Enclosure} {x : Selection} :
      .field head inner ∈ items → isMeta head.name = false →
      a.judge parent head inner = .ok type → Keeps a type inner trail x →
      Keeps a parent items (.field head :: trail) x
  | introspection {parent : String} {items inner : List Selection} {head : Field}
      {trail : List Enclosure} {x : Selection} :
      .field head inner ∈ items → isMeta head.name = true → Occurs inner trail x →
      Keeps a parent items (.field head :: trail) x
  | inline {parent : String} {items inner : List Selection} {head : InlineFragment}
      {trail : List Enclosure} {x : Selection} :
      .inline head inner ∈ items → Keeps a (head.condition.getD parent) inner trail x →
      Keeps a parent items (.inline head :: trail) x

/-- Redaction keeps the place in a definition. In a fragment on a type of introspection everything
stays. -/
def Authority.KeepsIn (a : Authority) (x : Definition) (trail : List Enclosure)
    (y : Selection) : Prop :=
  if x.onIntrospection then Occurs x.items trail y
  else a.Keeps (x.rootType a.schema) x.items trail y

private theorem Authority.Keeps.occurs {a : Authority} {parent : String} {items : List Selection}
    {trail : List Enclosure} {x : Selection} (h : a.Keeps parent items trail x) :
    Occurs items trail x := by
  induction h with
  | here hx => exact .here hx
  | field hm _ _ _ ih => exact .field hm ih
  | introspection hm _ hoccurs => exact .field hm hoccurs
  | inline hm _ ih => exact .inline hm ih

theorem Authority.KeepsIn.occurs {a : Authority} {x : Definition} {trail : List Enclosure}
    {y : Selection} (h : a.KeepsIn x trail y) : Occurs x.items trail y := by
  unfold KeepsIn at h
  split at h
  · exact h
  · exact h.occurs

def Definition.Examines (x : Definition) (trail : List Enclosure) : Prop :=
  x.onIntrospection = false ∧ Exposed trail

instance (x : Definition) (trail : List Enclosure) : Decidable (x.Examines trail) :=
  inferInstanceAs (Decidable (x.onIntrospection = false ∧ Exposed trail))

namespace Redaction

variable {a : Authority} {policy : EmptySelections} {parent : String} {items : List Selection}
  {trail : List Enclosure} {head : Field}

theorem redactSelection_of_isMeta (hmeta : isMeta head.name = true) :
    redactSelection a policy parent (.field head items) =
      some (.field head (Introspection.withEntryNames head items)) := by
  rw [redactSelection, if_pos hmeta]

theorem redactSelection_of_judge {type : String} (hmeta : isMeta head.name = false)
    (hjudge : a.judge parent head items = .ok type)
    (hleft : redactSelections a policy type items ≠ []) :
    redactSelection a policy parent (.field head items) =
      some (.field head (redactSelections a policy type items)) := by
  simp [redactSelection, hmeta, hjudge, hleft]

theorem redactSelection_inline {head : InlineFragment}
    (hleft : redactSelections a policy (head.condition.getD parent) items ≠ []) :
    redactSelection a policy parent (.inline head items) =
      some (.inline head (redactSelections a policy (head.condition.getD parent) items)) := by
  simp [redactSelection, hleft]

private theorem occurs_entry_redactSelections {entry : String} {left : List Selection}
    (hentry : Introspection.entryType? head.name = some entry) :
    Occurs (redactSelections a policy parent items) trail (.field head left) ↔
      ∃ inner, a.Keeps parent items trail (.field head inner) ∧
        left = if Exposed trail then Introspection.withEntryNames head inner else inner := by
  have hmeta := Introspection.isMeta_of_entryType? hentry
  constructor
  · intro h
    induction trail generalizing parent items with
    | nil =>
      obtain ⟨x, hx, hxy⟩ := mem_redactSelections.mp (occurs_nil_iff.mp h)
      obtain ⟨inner, rfl, ⟨-, hleft⟩ | ⟨hmeta', -⟩⟩ := of_redactSelection_field hxy
      · exact ⟨inner, .here hx, by simpa using hleft⟩
      · simp [hmeta] at hmeta'
    | cons e trail ih =>
      cases e with
      | field outer =>
        obtain ⟨middle, hm, hoccurs⟩ := occurs_field_iff.mp h
        obtain ⟨x, hx, hxy⟩ := mem_redactSelections.mp hm
        obtain ⟨inner, rfl, ⟨houter, rfl⟩ | ⟨houter, type, hjudge, rfl⟩⟩ :=
          of_redactSelection_field hxy
        · rw [Introspection.occurs_entry_withEntryNames hentry] at hoccurs
          exact ⟨left, .introspection hx houter hoccurs, by simp [houter]⟩
        · obtain ⟨inner', hkeeps, hleft⟩ := ih hoccurs
          exact ⟨inner', .field hx houter hjudge hkeeps, by simpa [houter] using hleft⟩
      | inline outer =>
        obtain ⟨middle, hm, hoccurs⟩ := occurs_inline_iff.mp h
        obtain ⟨x, hx, hxy⟩ := mem_redactSelections.mp hm
        obtain ⟨inner, rfl, rfl⟩ := of_redactSelection_inline hxy
        obtain ⟨inner', hkeeps, hleft⟩ := ih hoccurs
        exact ⟨inner', .inline hx hkeeps, by simpa using hleft⟩
  · rintro ⟨inner, hkeeps, rfl⟩
    generalize hfield : Selection.field head inner = x at hkeeps
    induction hkeeps with
    | here hx =>
      subst hfield
      refine .here (mem_redactSelections.mpr ⟨_, hx, ?_⟩)
      simpa using redactSelection_of_isMeta hmeta
    | field hm houter hjudge _ ih =>
      have hoccurs := ih hfield
      have hleft := redactSelection_of_judge houter hjudge hoccurs.ne_nil
      simpa [houter] using
        Occurs.field (mem_redactSelections.mpr ⟨_, hm, hleft⟩) hoccurs
    | introspection hm houter hoccurs =>
      subst hfield
      simpa [houter] using
        Occurs.field (mem_redactSelections.mpr ⟨_, hm, redactSelection_of_isMeta houter⟩)
          ((Introspection.occurs_entry_withEntryNames hentry).mpr hoccurs)
    | inline hm _ ih =>
      have hoccurs := ih hfield
      have hleft := redactSelection_inline hoccurs.ne_nil
      simpa using Occurs.inline (mem_redactSelections.mpr ⟨_, hm, hleft⟩) hoccurs

theorem occurs_entry_redactDefinition {x : Definition} {entry : String} {left : List Selection}
    (hentry : Introspection.entryType? head.name = some entry) :
    Occurs (redactDefinition a policy x).items trail (.field head left) ↔
      ∃ inner, a.KeepsIn x trail (.field head inner) ∧
        left = if x.Examines trail then Introspection.withEntryNames head inner else inner := by
  cases hx : x.onIntrospection with
  | false =>
    rw [redactDefinition_of_not_onIntrospection hx, Definition.items_withItems,
      occurs_entry_redactSelections hentry]
    simp [Authority.KeepsIn, Definition.Examines, hx]
  | true =>
    cases x with
    | operation o => simp [Definition.onIntrospection] at hx
    | fragment f =>
      have hf : isMeta f.condition = true := hx
      rw [redactDefinition, if_pos hf]
      simp [Definition.items, Introspection.occurs_entry_withNestedNamesAll hentry,
        Authority.KeepsIn, Definition.Examines, hx]

theorem redactDefinition_eq_withItems (x : Definition) :
    redactDefinition a policy x = x.withItems (redactDefinition a policy x).items := by
  cases x with
  | operation o => rfl
  | fragment f =>
    rw [redactDefinition]
    split <;> rfl

def remaining (policy : EmptySelections) (emptied : Prune.Emptied) (items : List Selection) :
    List Selection :=
  match policy with
  | .prune => Prune.pruneSelections emptied items
  | .keep => items

/-- The policy leaves the definition where the given fragments select nothing. -/
def Remains (policy : EmptySelections) (emptied : Prune.Emptied) (x : Definition) : Prop :=
  policy = .prune → ∀ f, x = .fragment f → emptied.contains f.name = false

def emptiedBy (a : Authority) (policy : EmptySelections) (d : Document) : Prune.Emptied :=
  Prune.emptiedFragments ⟨d.definitions.map (redactDefinition a policy)⟩

variable {emptied : Prune.Emptied}

theorem remains_fragment {f : Fragment} (h : emptied.contains f.name = false) :
    Remains policy emptied (.fragment f) := by
  intro _ g hg
  obtain rfl := Definition.fragment.inj hg
  exact h

theorem remaining_append (items more : List Selection) :
    remaining policy emptied (items ++ more) =
      remaining policy emptied items ++ remaining policy emptied more := by
  cases policy with
  | prune => simp [remaining, Prune.pruneSelections_eq_filterMap]
  | keep => rfl

@[simp] theorem remaining_nil : remaining policy emptied [] = [] := by
  cases policy with
  | prune => simp [remaining]
  | keep => rfl

theorem of_occurs_remaining {left : List Selection}
    (h : Occurs (remaining policy emptied items) trail (.field head left)) :
    ∃ inner, Occurs items trail (.field head inner) ∧ left = remaining policy emptied inner := by
  cases policy with
  | prune =>
    obtain ⟨x, hx, hleft⟩ := Prune.occurs_of_pruned h
    obtain ⟨inner, rfl, hinner⟩ := Prune.of_pruneSelection_field hleft
    exact ⟨inner, hx, hinner⟩
  | keep => exact ⟨left, h, rfl⟩

theorem occurs_remaining {inner : List Selection} (h : Occurs items trail (.field head inner))
    (hleft : remaining policy emptied inner ≠ []) :
    Occurs (remaining policy emptied items) trail
      (.field head (remaining policy emptied inner)) := by
  cases policy with
  | prune => exact Prune.occurs_pruneSelections h (Prune.pruneSelection_field hleft)
  | keep => exact h

private theorem remains_redactDefinition (x : Definition) :
    (∀ f, redactDefinition a policy x = .fragment f → emptied.contains f.name = false) ↔
      ∀ f, x = .fragment f → emptied.contains f.name = false := by
  rw [redactDefinition_eq_withItems]
  exact @Definition.forall_fragment_withItems x _ fun name => emptied.contains name = false

/-- The definitions of a redacted document are those of the query that the policy leaves. -/
theorem mem_redactDocument {d : Document} {y : Definition} :
    y ∈ (redactDocument a policy d).definitions ↔
      ∃ x ∈ d.definitions, Remains policy (emptiedBy a policy d) x ∧
        y = x.withItems
          (remaining policy (emptiedBy a policy d) (redactDefinition a policy x).items) := by
  cases policy with
  | keep =>
    simp only [redactDocument, remaining, List.mem_map, ← redactDefinition_eq_withItems]
    constructor
    · rintro ⟨x, hx, rfl⟩
      exact ⟨x, hx, fun hprune => absurd hprune (by decide), rfl⟩
    · rintro ⟨x, hx, -, rfl⟩
      exact ⟨x, hx, rfl⟩
  | prune =>
    simp only [redactDocument, Prune.mem_pruneDocument, List.mem_map]
    constructor
    · rintro ⟨_, ⟨x, hx, rfl⟩, hremains, rfl⟩
      refine ⟨x, hx, fun _ => (remains_redactDefinition x).mp hremains, ?_⟩
      rw [redactDefinition_eq_withItems x]
      simp [remaining, emptiedBy]
    · rintro ⟨x, hx, hremains, rfl⟩
      refine ⟨_, ⟨x, hx, rfl⟩, (remains_redactDefinition x).mpr (hremains rfl), ?_⟩
      rw [redactDefinition_eq_withItems x]
      simp [remaining, emptiedBy]

end Redaction

end FieldAuthorization
