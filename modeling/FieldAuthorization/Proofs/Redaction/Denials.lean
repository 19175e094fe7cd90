import Mathlib.Data.List.Basic
import FieldAuthorization.Proofs.Document.Place
import FieldAuthorization.Proofs.Introspection.AddedNames
import FieldAuthorization.Proofs.Redaction.Soundness

/-!
Exactly the denied fields are taken out, and exactly they are reported.

Whether a field is denied is read off the document as it stands: no field around it is denied, and
the authority refuses it at its static parent type. Redaction, which carries the type and the path
along, finds the denied fields in document order.
-/

set_option autoImplicit false
set_option relaxedAutoImplicit false

namespace FieldAuthorization

namespace Authority

/-- Whether the verifier does not allow the field of a type, the extension rejects it or the schema
lacks it. -/
def refuses (a : Authority) (parent : String) (head : Field) (items : List Selection) : Bool :=
  !a.verifier.allows parent head.name ||
    a.extension.any (fun authorizes => !authorizes parent head items) ||
    (a.schema.field? parent head.name).isNone

/-- Why the field is refused: by the extension, if the verifier allows it and the extension does
not. -/
def refusal (a : Authority) (parent : String) (head : Field) (items : List Selection) :
    DenialReason :=
  if a.verifier.allows parent head.name &&
      a.extension.any (fun authorizes => !authorizes parent head items) then .extension
  else .notPermitted

/-- Whether a field at a place is outside introspection, as its own name is, and refused at the type
of the place. -/
def offends (a : Authority) (outer : Place) (head : Field) (items : List Selection) : Bool :=
  outer.isExposed && !isMeta head.name && (outer.type? a.schema).any (a.refuses · head items)

def covers (a : Authority) : Place → Bool
  | .root _ => false
  | .field outer head items => a.covers outer || a.offends outer head items
  | .inline outer _ => a.covers outer

def denies (a : Authority) (outer : Place) : Selection → Bool
  | .field head items => !a.covers outer && a.offends outer head items
  | .spread _ => false
  | .inline _ _ => false

def denial? (a : Authority) : Place × Selection → Option Denial
  | (outer, .field head items) =>
    if a.denies outer (.field head items) then
      (outer.type? a.schema).map fun parent =>
        ⟨outer.origin.root, outer.path ++ [head.responseKey], parent, head.name, head.position,
          a.refusal parent head items⟩
    else none
  | (_, .spread _) => none
  | (_, .inline _ _) => none

variable {a : Authority} {parent : String} {head : Field} {items : List Selection} {outer : Place}

theorem judge_of_refuses (h : a.refuses parent head items = true) :
    a.judge parent head items = .error (a.refusal parent head items) := by
  unfold refuses at h
  unfold judge refusal
  cases hallows : a.verifier.allows parent head.name with
  | false => simp
  | true =>
    cases hrejects : a.extension.any (fun authorizes => !authorizes parent head items) with
    | true => simp
    | false =>
      have hfield : a.schema.field? parent head.name = none := by
        simpa [hallows, hrejects] using h
      simp [hfield]

private theorem judge_of_not_refuses (h : a.refuses parent head items = false) :
    ∃ type, a.schema.returns? parent head.name = some type ∧
      a.judge parent head items = .ok type := by
  simp only [refuses, Bool.or_eq_false_iff, Bool.not_eq_false', Option.isNone_eq_false_iff] at h
  obtain ⟨⟨hallows, hrejects⟩, hfield⟩ := h
  obtain ⟨d, hd⟩ := Option.isSome_iff_exists.mp hfield
  refine ⟨d.type, by simp [Schema.returns?, hd], ?_⟩
  simp [judge, hallows, hrejects, hd]

private theorem covers_field : a.covers (.field outer head items) =
    (a.covers outer || a.denies outer (.field head items)) := by
  rw [covers, denies]
  cases a.covers outer <;> rfl

/-- Nothing is denied at the place, since a field around it is denied or it is in introspection. -/
def Passes (a : Authority) (outer : Place) : Prop :=
  a.covers outer = true ∨ outer.isExposed = false

private theorem Passes.field (h : a.Passes outer) (head : Field) (items : List Selection) :
    a.Passes (.field outer head items) := by
  refine h.imp (fun hcovers => ?_) fun hexposed => ?_
  · simp [covers, hcovers]
  · simp [Place.isExposed, hexposed]

private theorem Passes.inline (h : a.Passes outer) (head : InlineFragment) :
    a.Passes (.inline outer head) :=
  h

private theorem Passes.denies_eq_false (h : a.Passes outer) (x : Selection) :
    a.denies outer x = false := by
  cases x with
  | field head items =>
    rcases h with hcovers | hexposed
    · simp [denies, hcovers]
    · simp [denies, offends, hexposed]
  | spread head => rfl
  | inline head items => rfl

private theorem denies_eq_false_of_isMeta (hmeta : isMeta head.name = true) :
    a.denies outer (.field head items) = false := by
  simp [denies, offends, hmeta]

private theorem denial?_of_not_denies {x : Selection} (h : a.denies outer x = false) :
    a.denial? (outer, x) = none := by
  cases x with
  | field head items => rw [denial?, h, if_neg Bool.false_ne_true]
  | spread head => rfl
  | inline head items => rfl

private theorem Passes.filterMap_denial? (h : a.Passes outer) (items : List Selection) :
    (occurrencesInAll outer items).filterMap a.denial? = [] := by
  rw [List.filterMap_eq_nil_iff]
  intro p hp
  have hpasses : a.Passes p.1 := inside_of_mem_occurrencesInAll a.Passes
    (fun _ head items h => h.field head items) (fun _ head h => h.inline head) h p hp
  exact denial?_of_not_denies (hpasses.denies_eq_false p.2)

/-- What redaction knows where it comes to: the place is outside introspection, no field around it
is denied, and this is its type. -/
structure Visits (a : Authority) (outer : Place) (parent : String) : Prop where
  uncovered : a.covers outer = false
  exposed : outer.isExposed = true
  typed : outer.type? a.schema = some parent

namespace Visits

private theorem denies_eq (h : a.Visits outer parent) (hmeta : isMeta head.name = false) :
    a.denies outer (.field head items) = a.refuses parent head items := by
  simp [denies, h.uncovered, offends, h.exposed, hmeta, h.typed]

theorem denial?_eq (h : a.Visits outer parent) (hmeta : isMeta head.name = false)
    (hrefuses : a.refuses parent head items = true) :
    a.denial? (outer, .field head items) =
      some ⟨outer.origin.root, outer.path ++ [head.responseKey], parent, head.name, head.position,
        a.refusal parent head items⟩ := by
  rw [denial?, h.denies_eq hmeta, if_pos hrefuses, h.typed]
  rfl

theorem root {x : Definition} (h : x.onIntrospection = false) :
    a.Visits (.root x) (x.rootType a.schema) :=
  ⟨rfl, by simp [Place.isExposed, h], rfl⟩

private theorem field {type : String} (h : a.Visits outer parent) (hmeta : isMeta head.name = false)
    (hrefuses : a.refuses parent head items = false)
    (htype : a.schema.returns? parent head.name = some type) :
    a.Visits (.field outer head items) type where
  uncovered := by rw [covers_field, h.uncovered, h.denies_eq hmeta, hrefuses, Bool.or_false]
  exposed := by simp [Place.isExposed, h.exposed, hmeta]
  typed := by rw [Place.type?, h.typed, Option.bind_some, htype]

theorem inline (h : a.Visits outer parent) (head : InlineFragment) :
    a.Visits (.inline outer head) (head.condition.getD parent) where
  uncovered := h.uncovered
  exposed := h.exposed
  typed := by rw [Place.type?, h.typed, Option.map_some]

end Visits

end Authority

namespace Introspection

mutual

/-- A selection with names added below the fields of it that enter introspection. -/
def nameBelowEntries : Selection → Selection
  | .field head items =>
    if isMeta head.name then .field head (withEntryNames head items)
    else .field head (nameBelowEntriesAll items)
  | .spread head => .spread head
  | .inline head items => .inline head (nameBelowEntriesAll items)

def nameBelowEntriesAll : List Selection → List Selection
  | [] => []
  | item :: rest => nameBelowEntries item :: nameBelowEntriesAll rest

end

theorem nameBelowEntriesAll_eq_map (items : List Selection) :
    nameBelowEntriesAll items = items.map nameBelowEntries := by
  induction items with
  | nil => rfl
  | cons x rest ih => rw [nameBelowEntriesAll, ih, List.map_cons]

private theorem gainsNames_nameBelowEntries (x : Selection) :
    GainsNames x (nameBelowEntries x) := by
  induction x with
  | field head items ih =>
    rw [nameBelowEntries]
    split
    · rw [withEntryNames_eq]
      exact .withNamesOf head _ fun x _ type => gainsNames_withNestedNames type x
    · rw [nameBelowEntriesAll_eq_map]
      exact .field (GainsNames.forall₂_map ih) (.inl rfl)
  | spread head => exact .spread head
  | inline head items ih =>
    rw [nameBelowEntries, nameBelowEntriesAll_eq_map]
    exact .inline (GainsNames.forall₂_map ih)

end Introspection

def Definition.withNames : Definition → Definition
  | .operation o =>
    .operation { o with items := Introspection.nameBelowEntriesAll o.items }
  | .fragment f =>
    if isMeta f.condition then
      .fragment { f with items := Introspection.withNestedNamesAll f.condition f.items }
    else .fragment { f with items := Introspection.nameBelowEntriesAll f.items }

/-- The document with names added inside introspection, whatever anyone may select. -/
def Document.withNames (d : Document) : Document :=
  ⟨d.definitions.map Definition.withNames⟩

def Definition.GainsNames (x y : Definition) : Prop :=
  y = x.withItems y.items ∧ List.Forall₂ Introspection.GainsNames x.items y.items

open Introspection in
theorem Definition.gainsNames_withNames (x : Definition) : x.GainsNames x.withNames := by
  have hentries : List.Forall₂ Introspection.GainsNames x.items
      (nameBelowEntriesAll x.items) := by
    rw [nameBelowEntriesAll_eq_map]
    exact GainsNames.forall₂_map fun y _ => gainsNames_nameBelowEntries y
  cases x with
  | operation o => exact ⟨rfl, hentries⟩
  | fragment f =>
    rw [withNames]
    split
    · refine ⟨rfl, ?_⟩
      rw [items, items, withNestedNamesAll_eq_map]
      exact GainsNames.forall₂_map fun y _ => gainsNames_withNestedNames f.condition y
    · exact ⟨rfl, hentries⟩

/-- Whatever is selected, the document with names differs from the document in names alone. -/
theorem Document.gainsNames_withNames (d : Document) :
    List.Forall₂ Definition.GainsNames d.definitions d.withNames.definitions :=
  List.forall₂_map_right_iff.mpr
    (List.forall₂_same.mpr fun x _ => Definition.gainsNames_withNames x)

namespace Redaction

open Introspection

variable {a : Authority} {outer : Place} {parent : String}

private theorem denialsInAll_of_forall {items : List Selection}
    (h : ∀ y ∈ items, denialsIn a outer.origin.root parent outer.path y =
      (occurrencesIn outer y).filterMap a.denial?) :
    denialsInAll a outer.origin.root parent outer.path items =
      (occurrencesInAll outer items).filterMap a.denial? := by
  rw [denialsInAll_eq_flatMap, occurrencesInAll_eq_flatMap, List.filterMap_flatMap]
  exact List.flatMap_congr h

private theorem denialsIn_eq_filterMap (h : a.Visits outer parent) (x : Selection) :
    denialsIn a outer.origin.root parent outer.path x =
      (occurrencesIn outer x).filterMap a.denial? := by
  induction x generalizing outer parent with
  | field head items ih =>
    rw [denialsIn, occurrencesIn]
    cases hmeta : isMeta head.name with
    | true =>
      have hkept : a.denies outer (.field head items) = false :=
        Authority.denies_eq_false_of_isMeta hmeta
      have hpasses : a.Passes (.field outer head items) := .inr (by simp [Place.isExposed, hmeta])
      rw [if_pos rfl, List.filterMap_cons_none (Authority.denial?_of_not_denies hkept),
        hpasses.filterMap_denial?]
    | false =>
      simp only [Bool.false_eq_true, if_false]
      cases hrefuses : a.refuses parent head items with
      | true =>
        have hpasses : a.Passes (.field outer head items) :=
          .inl (by rw [Authority.covers_field, h.denies_eq hmeta, hrefuses, Bool.or_true])
        rw [Authority.judge_of_refuses hrefuses,
          List.filterMap_cons_some (h.denial?_eq hmeta hrefuses), hpasses.filterMap_denial?]
      | false =>
        obtain ⟨type, htype, hjudge⟩ := Authority.judge_of_not_refuses hrefuses
        have hkept : a.denies outer (.field head items) = false :=
          (h.denies_eq hmeta).trans hrefuses
        have hinside := h.field hmeta hrefuses htype
        rw [hjudge, List.filterMap_cons_none (Authority.denial?_of_not_denies hkept)]
        exact denialsInAll_of_forall fun y hy => ih y hy hinside
  | spread head => rfl
  | inline head items ih =>
    rw [denialsIn, occurrencesIn, List.filterMap_cons_none rfl]
    exact denialsInAll_of_forall fun y hy => ih y hy (h.inline head)

theorem denialsInDefinition_eq_filterMap (x : Definition) :
    denialsInDefinition a x = (occurrencesInAll (.root x) x.items).filterMap a.denial? := by
  cases hx : x.onIntrospection with
  | true =>
    have hpasses : a.Passes (.root x) := .inr (by simp [Place.isExposed, hx])
    rw [hpasses.filterMap_denial?]
    cases x with
    | operation o => cases hx
    | fragment f => exact if_pos hx
  | false =>
    rw [denialsInDefinition_of_not_onIntrospection hx]
    exact denialsInAll_of_forall fun y _ => denialsIn_eq_filterMap (.root hx) y

section Witness

end Witness

end Redaction

end FieldAuthorization
