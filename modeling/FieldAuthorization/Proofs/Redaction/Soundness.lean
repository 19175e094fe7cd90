import Mathlib
import FieldAuthorization.Enforcement.Request
import FieldAuthorization.Proofs.Document.Restriction
import FieldAuthorization.Proofs.Redaction.Pruning
import FieldAuthorization.Proofs.Redaction.Reach

/-!
Default deny: a field that redaction leaves outside introspection is authorized.

Each definition of a redacted document comes from one of the query with the same heading, and each
field in it from a field at the same place, which was judged against the type of that place.

Mathlib is imported whole for the modules on top of this one that evaluate texts with `cbv`: it is
to find the equations of library functions there, and not to make its own.
-/

set_option autoImplicit false
set_option relaxedAutoImplicit false

namespace FieldAuthorization

namespace Document

theorem definitions_of_restrict {d chosen : Document} {name : Option String}
    (h : d.restrict name = .ok chosen) {x : Definition} (hx : x ∈ chosen.definitions) :
    x ∈ d.definitions := by
  obtain ⟨index, -, rfl⟩ := restrict_eq_ok h
  obtain ⟨⟨y, i⟩, hy, rfl⟩ := List.mem_map.mp hx
  exact (List.mem_zipIdx' (List.mem_filter.mp hy).1).2 ▸ List.getElem_mem _

end Document

namespace Redaction

variable {a : Authority} {policy : EmptySelections}

theorem redact_eq_ok {d : Document} {name : Option String} {r : Redaction}
    (h : redact a policy d name = .ok r) :
    ∃ chosen, d.restrict name = .ok chosen ∧ r.document = redactDocument a policy chosen ∧
      r.denials = chosen.definitions.flatMap (denialsInDefinition a) := by
  unfold redact at h
  cases hc : d.restrict name with
  | error e => simp [hc] at h
  | ok chosen =>
    simp only [hc, Except.ok.injEq] at h
    subst h
    exact ⟨chosen, rfl, rfl, rfl⟩

theorem redact_of_chosenIndex {d : Document} {name : Option String} {index : Nat}
    (h : d.chosenIndex name = .ok index) :
    redact a policy d name = .ok ⟨redactDocument a policy (d.withoutOthers index),
      (d.withoutOthers index).definitions.flatMap (denialsInDefinition a)⟩ := by
  rw [redact, Document.restrict, h]
  rfl

theorem redactDefinition_of_not_onIntrospection {x : Definition}
    (hx : x.onIntrospection = false) :
    redactDefinition a policy x =
      x.withItems (redactSelections a policy (x.rootType a.schema) x.items) := by
  cases x with
  | operation o => rfl
  | fragment f =>
    have hf : isMeta f.condition = false := hx
    simp [redactDefinition, hf, Definition.withItems, Definition.rootType, Definition.items]

theorem denialsInDefinition_of_not_onIntrospection {x : Definition}
    (hx : x.onIntrospection = false) :
    denialsInDefinition a x = denialsInAll a x.root (x.rootType a.schema) [] x.items := by
  cases x with
  | operation o => rfl
  | fragment f =>
    have hf : isMeta f.condition = false := hx
    simp [denialsInDefinition, hf, Definition.root, Definition.rootType, Definition.items]

theorem onIntrospection_redactDefinition (x : Definition) :
    (redactDefinition a policy x).onIntrospection = x.onIntrospection := by
  cases x with
  | operation o => rfl
  | fragment f =>
    rw [redactDefinition]
    split <;> rfl

theorem isOperation_redactDefinition (x : Definition) :
    (redactDefinition a policy x).isOperation = x.isOperation := by
  cases x with
  | operation o => rfl
  | fragment f =>
    rw [redactDefinition]
    split <;> rfl

private theorem definition_of_redactDocument {d : Document} {y : Definition}
    (hy : y ∈ (redactDocument a policy d).definitions) (hplain : y.onIntrospection = false) :
    ∃ x ∈ d.definitions, x.onIntrospection = false ∧ y = x.withItems y.items ∧
      ∀ trail head left, Occurs y.items trail (.field head left) → ∃ inner,
        Occurs (redactSelections a policy (x.rootType a.schema) x.items) trail
          (.field head inner) := by
  cases policy with
  | keep =>
    obtain ⟨x, hx, rfl⟩ := List.mem_map.mp hy
    rw [onIntrospection_redactDefinition] at hplain
    rw [redactDefinition_of_not_onIntrospection hplain]
    refine ⟨x, hx, hplain, by simp, fun trail head left h => ⟨left, ?_⟩⟩
    simpa using h
  | prune =>
    obtain ⟨z, hz, -, rfl⟩ := Prune.mem_pruneDocument.mp hy
    obtain ⟨x, hx, rfl⟩ := List.mem_map.mp hz
    rw [Definition.onIntrospection_withItems, onIntrospection_redactDefinition] at hplain
    rw [redactDefinition_of_not_onIntrospection hplain]
    refine ⟨x, hx, hplain, by simp, fun trail head left h => ?_⟩
    rw [Definition.items_withItems] at h
    obtain ⟨w, hw, hleft⟩ := Prune.occurs_of_pruned h
    obtain ⟨inner, rfl, -⟩ := Prune.of_pruneSelection_field hleft
    exact ⟨inner, by simpa using hw⟩

/-- A field that a redacted document selects outside introspection has a static parent type whose
field of that name the schema defines and the verifier allows; and it stood at the same place of
the query, where the extension, if there is one, authorized it. -/
theorem redacted_field_authorized {d : Document} {name : Option String} {r : Redaction}
    (h : redact a policy d name = .ok r) {y : Definition} (hy : y ∈ r.document.definitions)
    (hplain : y.onIntrospection = false) {trail : List Enclosure} {head : Field}
    {left : List Selection} (hoccurs : Occurs y.items trail (.field head left))
    (hexposed : Exposed trail) (hmeta : isMeta head.name = false) :
    ∃ parent, a.schema.typeAt (y.rootType a.schema) trail = some parent ∧
      a.verifier.allows parent head.name = true ∧
      (a.schema.field? parent head.name).isSome = true ∧
      ∃ x ∈ d.definitions, y = x.withItems y.items ∧ ∃ inner,
        Occurs x.items trail (.field head inner) ∧
        ∀ authorizes, a.extension = some authorizes → authorizes parent head inner = true := by
  obtain ⟨chosen, hchosen, hdocument, -⟩ := redact_eq_ok h
  rw [hdocument] at hy
  obtain ⟨x, hx, -, hyx, hleft⟩ := definition_of_redactDocument hy hplain
  obtain ⟨inner, hinner⟩ := hleft trail head left hoccurs
  obtain ⟨parent, z, hreach, hz⟩ := reaches_of_occurs hinner hexposed
  obtain ⟨original, rfl, ⟨hmeta', -⟩ | ⟨-, type, hjudge, -⟩⟩ := of_redactSelection_field hz
  · simp [hmeta] at hmeta'
  · obtain ⟨hallows, hextension, field, hfield, -⟩ := Authority.judge_eq_ok_iff.mp hjudge
    refine ⟨parent, ?_, hallows, by simp [hfield], x,
      Document.definitions_of_restrict hchosen hx, hyx, original, hreach.occurs, hextension⟩
    rw [hyx, Definition.rootType_withItems]
    exact hreach.typeAt

section Witness

def plainField (name : String) : Field :=
  ⟨⟨1, 1⟩, ⟨1, 1⟩, ⟨1, 1⟩, none, name, [], []⟩

def peopleSchema : Schema :=
  ⟨.ofList [("Query", ⟨"Query", .object, [⟨"me", "Person", []⟩], [], [], []⟩),
      ("Person", ⟨"Person", .object, [⟨"id", "ID", []⟩, ⟨"mail", "String", []⟩], [], [], []⟩)]
      compare,
    "Query", none, none⟩

/-- The caller may select all of a person, of which the extension then rejects the mail. -/
private def peopleAuthority : Authority :=
  ⟨peopleSchema,
    ⟨["staff"], ⟨.ofList [⟨"Query", "me"⟩, ⟨"Person", "id"⟩, ⟨"Person", "mail"⟩] compare, ∅⟩⟩,
    some (.rejecting ["Person.mail"] [])⟩

private def untyped : InlineFragment :=
  ⟨⟨1, 1⟩, ⟨1, 1⟩, ⟨1, 1⟩, none, []⟩

private def personQuery (items : List Selection) : Definition :=
  .operation ⟨none, ⟨1, 1⟩, ⟨1, 1⟩, [.field (plainField "me") [.inline untyped items]]⟩

theorem redacted_field_authorized_of_person :
    redact peopleAuthority .prune
        ⟨[personQuery [.field (plainField "id") [], .field (plainField "mail") []]]⟩ none =
      .ok ⟨⟨[personQuery [.field (plainField "id") []]]⟩,
        [⟨.operation none, ["me", "mail"], "Person", "mail", ⟨1, 1⟩, .extension⟩]⟩ ∧
    ∃ parent, peopleSchema.typeAt "Query" [.field (plainField "me"), .inline untyped] =
        some parent ∧
      peopleAuthority.verifier.allows parent "id" = true ∧
      (peopleSchema.field? parent "id").isSome = true := by
  have h : redact peopleAuthority .prune
        ⟨[personQuery [.field (plainField "id") [], .field (plainField "mail") []]]⟩ none =
      .ok ⟨⟨[personQuery [.field (plainField "id") []]]⟩,
        [⟨.operation none, ["me", "mail"], "Person", "mail", ⟨1, 1⟩, .extension⟩]⟩ := by rfl
  obtain ⟨parent, htype, hallows, hfield, -⟩ :=
    redacted_field_authorized h (List.mem_singleton.mpr rfl) rfl
      (.field (List.mem_singleton.mpr rfl) (.inline (List.mem_singleton.mpr rfl)
        (.here (List.mem_singleton.mpr rfl))))
      (by simp [Exposed, Enclosure.isMeta, untyped]; decide) (by decide)
  exact ⟨h, parent, htype, hallows, hfield⟩

end Witness

end Redaction

end FieldAuthorization
