import FieldAuthorization.Proofs.Document.Restriction
import FieldAuthorization.Proofs.Introspection.Labelled
import FieldAuthorization.Proofs.Redaction.Emptied
import FieldAuthorization.Proofs.Redaction.Soundness

/-!
Redaction is idempotent.

What redaction leaves is settled: fields outside introspection are authorized where they stand, and
selections inside it lack no name. Pruning keeps it settled, and what is settled passes redaction
unchanged and without a denial.
-/

set_option autoImplicit false
set_option relaxedAutoImplicit false

namespace FieldAuthorization

open Introspection

/-- The extension does not look at what is selected below a field. -/
def Extension.Shallow (authorizes : Extension) : Prop :=
  ∀ parent head items more, authorizes parent head items = authorizes parent head more

def Authority.Shallow (a : Authority) : Prop :=
  ∀ authorizes, a.extension = some authorizes → authorizes.Shallow

/-- No field of the document has the key of added names as its alias. -/
def Document.NameKeyFree (d : Document) : Prop :=
  ∀ x ∈ d.definitions, FieldAuthorization.NameKeyFree x.items

private theorem Authority.judge_congr {a : Authority} (ha : a.Shallow) {parent : String}
    {head : Field} (items more : List Selection) :
    a.judge parent head items = a.judge parent head more := by
  cases hextension : a.extension with
  | none => simp [judge, hextension]
  | some authorizes => simp [judge, hextension, ha authorizes hextension parent head items more]

namespace Redaction

variable {a : Authority} {policy : EmptySelections} {parent : String} {emptied : Prune.Emptied}

/-- Redaction has nothing to do for a selection on a type. -/
inductive Settled (a : Authority) (policy : EmptySelections) : String → Selection → Prop
  | introspection {parent : String} {head : Field} {items : List Selection} :
      isMeta head.name = true →
      (∀ entry, entryType? head.name = some entry →
        Labelled entry items ∧ ∀ x ∈ items, LabelledBelow entry x) →
      Settled a policy parent (.field head items)
  | field {parent type : String} {head : Field} {items : List Selection} :
      isMeta head.name = false → a.judge parent head items = .ok type →
      (∀ x ∈ items, Settled a policy type x) → Settled a policy parent (.field head items)
  | spread {parent : String} (head : Spread) : Settled a policy parent (.spread head)
  | inline {parent : String} {head : InlineFragment} {items : List Selection} :
      (policy = .prune → items ≠ []) →
      (∀ x ∈ items, Settled a policy (head.condition.getD parent) x) →
      Settled a policy parent (.inline head items)

private theorem settled_of_redactSelection (ha : a.Shallow) {x y : Selection}
    (hfree : NameKeyFree [x]) (h : redactSelection a policy parent x = some y) :
    Settled a policy parent y := by
  have hinner {type : String} {items : List Selection} (hitems : NameKeyFree items)
      (ih : ∀ z ∈ items, ∀ {parent y}, NameKeyFree [z] →
        redactSelection a policy parent z = some y → Settled a policy parent y) :
      ∀ y ∈ redactSelections a policy type items, Settled a policy type y := by
    intro y hy
    obtain ⟨z, hz, hzy⟩ := mem_redactSelections.mp hy
    exact ih z hz (hitems.of_mem hz) hzy
  induction x generalizing parent y with
  | field head items ih =>
    have hitems : NameKeyFree items := (nameKeyFree_field.mp hfree).1.2
    rw [redactSelection] at h
    split at h
    · rename_i hmeta
      simp only [Option.some.injEq] at h
      subst h
      refine .introspection hmeta fun entry hentry => ?_
      rw [withEntryNames_eq, hentry]
      exact ⟨labelled_withNames _ hitems, labelledBelow_withNames _ hitems⟩
    · rename_i hmeta
      cases hjudge : a.judge parent head items with
      | error reason => simp [hjudge] at h
      | ok type =>
        simp only [hjudge] at h
        split at h
        · simp at h
        · simp only [Option.some.injEq] at h
          subst h
          refine .field (by simpa using hmeta) ?_ (hinner hitems ih)
          rw [a.judge_congr ha _ items, hjudge]
  | spread head =>
    rw [redactSelection, Option.some.injEq] at h
    exact h ▸ .spread head
  | inline head items ih =>
    have hitems : NameKeyFree items := (nameKeyFree_inline.mp hfree).1
    simp only [redactSelection] at h
    split at h
    · simp at h
    · rename_i hkept
      simp only [Option.some.injEq] at h
      subst h
      refine .inline (fun hpolicy hempty => hkept ?_) (hinner hitems ih)
      rw [hempty]
      simp [hpolicy]

private theorem Settled.pruneSelection (ha : a.Shallow) {x y : Selection}
    (h : Settled a policy parent x) (hleft : Prune.pruneSelection emptied x = some y) :
    Settled a policy parent y := by
  induction h generalizing y with
  | introspection hmeta hentries =>
    obtain rfl := Prune.eq_of_pruneSelection_field hleft
    refine .introspection hmeta fun entry hentry => ?_
    obtain ⟨hlabelled, hbelow⟩ := hentries entry hentry
    exact ⟨hlabelled.pruneSelections, labelledBelow_pruneSelections hbelow⟩
  | @field _ _ _ items hmeta hjudge _ ih =>
    obtain rfl := Prune.eq_of_pruneSelection_field hleft
    refine .field hmeta (by rw [a.judge_congr ha _ items, hjudge]) fun z hz => ?_
    obtain ⟨w, hw, hwz⟩ := Prune.mem_pruneSelections.mp hz
    exact ih w hw hwz
  | spread head =>
    obtain rfl := Prune.eq_of_pruneSelection_spread hleft
    exact .spread head
  | inline _ _ ih =>
    obtain rfl := Prune.eq_of_pruneSelection_inline hleft
    refine .inline (fun _ => Prune.pruneSelections_ne_nil_of_inline hleft) fun z hz => ?_
    obtain ⟨w, hw, hwz⟩ := Prune.mem_pruneSelections.mp hz
    exact ih w hw hwz

private theorem Settled.redactSelection_eq {x : Selection} (h : Settled a policy parent x) :
    redactSelection a policy parent x = some x := by
  induction h with
  | @introspection _ head items hmeta hentries =>
    have hnames : withEntryNames head items = items := by
      rw [withEntryNames_eq]
      cases hentry : entryType? head.name with
      | none => rfl
      | some entry =>
        obtain ⟨hlabelled, hbelow⟩ := hentries entry hentry
        rw [withNamesOf, withNames, hlabelled.missingName_eq, List.append_nil,
          withNestedNamesAll_of_labelledBelow hbelow]
    rw [redactSelection, if_pos hmeta, hnames]
  | @field _ type head items hmeta hjudge _ ih =>
    have hkept : redactSelections a policy type items = items := by
      rw [redactSelections_eq_filterMap, filterMap_eq_self ih]
    have hnonempty : (!items.isEmpty && items.isEmpty) = false := by cases items <;> rfl
    simp [redactSelection, hmeta, hjudge, hkept, hnonempty]
  | spread head => rfl
  | @inline parent head items hne _ ih =>
    have hkept : redactSelections a policy (head.condition.getD parent) items = items := by
      rw [redactSelections_eq_filterMap, filterMap_eq_self ih]
    have hstays : (items.isEmpty && decide (policy = .prune)) = false := by
      rw [Bool.and_eq_false_iff, decide_eq_false_iff_not, List.isEmpty_eq_false_iff]
      exact (Classical.em (policy = .prune)).imp hne id
    simp only [redactSelection, hkept]
    rw [if_neg (by simpa using hstays)]

private theorem Settled.denialsIn_eq {x : Selection} (h : Settled a policy parent x)
    (root : RedactionRoot) (path : List String) : denialsIn a root parent path x = [] := by
  induction h generalizing path with
  | introspection hmeta _ => rw [denialsIn, if_pos hmeta]
  | field hmeta hjudge _ ih =>
    rw [denialsIn]
    simp only [hmeta, Bool.false_eq_true, if_false, hjudge, denialsInAll_eq_flatMap]
    exact List.flatMap_eq_nil_iff.mpr fun y hy => ih y hy _
  | spread head => rfl
  | inline _ _ ih =>
    rw [denialsIn, denialsInAll_eq_flatMap]
    exact List.flatMap_eq_nil_iff.mpr fun y hy => ih y hy path

def SettledDefinition (a : Authority) (policy : EmptySelections) (x : Definition) : Prop :=
  ∀ y ∈ x.items, if x.onIntrospection then LabelledBelow (x.rootType a.schema) y
    else Settled a policy (x.rootType a.schema) y

private theorem settledDefinition_redactDefinition (ha : a.Shallow) {x : Definition}
    (hfree : NameKeyFree x.items) : SettledDefinition a policy (redactDefinition a policy x) := by
  cases hx : x.onIntrospection with
  | false =>
    rw [redactDefinition_of_not_onIntrospection hx]
    simp only [SettledDefinition, Definition.onIntrospection_withItems, hx, Bool.false_eq_true,
      if_false, Definition.items_withItems, Definition.rootType_withItems]
    intro y hy
    obtain ⟨z, hz, hzy⟩ := mem_redactSelections.mp hy
    exact settled_of_redactSelection ha (hfree.of_mem hz) hzy
  | true =>
    cases x with
    | operation o => cases hx
    | fragment f =>
      have hf : isMeta f.condition = true := hx
      rw [SettledDefinition, onIntrospection_redactDefinition, redactDefinition, if_pos hf]
      simp only [hx, if_true]
      exact labelledBelow_withNestedNamesAll hfree

private theorem SettledDefinition.pruneSelections (ha : a.Shallow) {x : Definition}
    (h : SettledDefinition a policy x) :
    SettledDefinition a policy (x.withItems (Prune.pruneSelections emptied x.items)) := by
  intro y hy
  rw [Definition.items_withItems] at hy
  obtain ⟨z, hz, hzy⟩ := Prune.mem_pruneSelections.mp hy
  have hbefore := h z hz
  rw [Definition.onIntrospection_withItems, Definition.rootType_withItems]
  split at hbefore <;> rename_i hx
  · exact (if_pos hx).mpr (hbefore.pruneSelection hzy)
  · exact (if_neg hx).mpr (hbefore.pruneSelection ha hzy)

private theorem SettledDefinition.redactDefinition_eq {x : Definition}
    (h : SettledDefinition a policy x) : redactDefinition a policy x = x := by
  cases hx : x.onIntrospection with
  | false =>
    simp only [SettledDefinition, hx, Bool.false_eq_true, if_false] at h
    rw [redactDefinition_of_not_onIntrospection hx, redactSelections_eq_filterMap,
      filterMap_eq_self fun y hy => (h y hy).redactSelection_eq]
    cases x <;> rfl
  | true =>
    simp only [SettledDefinition, hx, if_true] at h
    cases x with
    | operation o => cases hx
    | fragment f =>
      have hf : isMeta f.condition = true := hx
      have hitems : withNestedNamesAll f.condition f.items = f.items :=
        withNestedNamesAll_of_labelledBelow h
      rw [redactDefinition, if_pos hf, hitems]

private theorem SettledDefinition.denialsInDefinition_eq {x : Definition}
    (h : SettledDefinition a policy x) : denialsInDefinition a x = [] := by
  cases hx : x.onIntrospection with
  | false =>
    simp only [SettledDefinition, hx, Bool.false_eq_true, if_false] at h
    rw [denialsInDefinition_of_not_onIntrospection hx, denialsInAll_eq_flatMap]
    exact List.flatMap_eq_nil_iff.mpr fun y hy => (h y hy).denialsIn_eq _ _
  | true =>
    cases x with
    | operation o => cases hx
    | fragment f => exact if_pos hx

private theorem settledDefinition_of_redactDocument (ha : a.Shallow) {d : Document}
    (hd : d.NameKeyFree) {y : Definition} (hy : y ∈ (redactDocument a policy d).definitions) :
    SettledDefinition a policy y := by
  cases policy with
  | keep =>
    obtain ⟨x, hx, rfl⟩ := List.mem_map.mp hy
    exact settledDefinition_redactDefinition ha (hd x hx)
  | prune =>
    obtain ⟨z, hz, -, rfl⟩ := Prune.mem_pruneDocument.mp hy
    obtain ⟨x, hx, rfl⟩ := List.mem_map.mp hz
    exact (settledDefinition_redactDefinition ha (hd x hx)).pruneSelections ha

private theorem redactDocument_redactDocument (ha : a.Shallow) {d : Document} (hd : d.NameKeyFree) :
    redactDocument a policy (redactDocument a policy d) = redactDocument a policy d := by
  have hmap : (redactDocument a policy d).definitions.map (redactDefinition a policy) =
      (redactDocument a policy d).definitions :=
    (List.map_congr_left fun y hy =>
      (settledDefinition_of_redactDocument ha hd hy).redactDefinition_eq).trans (List.map_id' _)
  cases policy with
  | keep => exact congrArg Document.mk hmap
  | prune =>
    rw [redactDocument.eq_def]
    simp only [hmap]
    exact Prune.pruneDocument_pruneDocument _

private theorem executes_redactDocument (a : Authority) (policy : EmptySelections) {d : Document}
    {name : Option String} {o : Operation} (h : d.Executes name o) : ∃ items,
      (redactDocument a policy d).Executes name { o with items := items } := by
  have hredacted := h.filterMap (f := some ∘ redactDefinition a policy) rfl fun g y hy => by
    cases hy
    exact isOperation_redactDefinition (.fragment g)
  rw [List.filterMap_eq_map] at hredacted
  cases policy with
  | keep => exact ⟨_, hredacted⟩
  | prune =>
    refine ⟨_, hredacted.filterMap rfl fun g y hy => ?_⟩
    obtain ⟨-, rfl⟩ := Prune.pruneDefinition_eq_some.mp hy
    rfl

/-- Redacting the document that redaction returns changes nothing and denies nothing. -/
theorem redact_idempotent {d : Document} {name : Option String} {r : Redaction}
    (hextension : a.Shallow) (hfree : d.NameKeyFree) (h : redact a policy d name = .ok r) :
    redact a policy r.document name = .ok ⟨r.document, []⟩ := by
  obtain ⟨chosen, hchosen, hdocument, -⟩ := redact_eq_ok h
  have hchosenFree : chosen.NameKeyFree := fun x hx =>
    hfree x (Document.definitions_of_restrict hchosen hx)
  obtain ⟨o, hexecutes⟩ := Document.executes_of_restrict hchosen
  obtain ⟨items, hexecutes⟩ := executes_redactDocument a policy hexecutes
  rw [hdocument, redact, hexecutes.restrict_eq]
  have hdenials : (redactDocument a policy chosen).definitions.flatMap (denialsInDefinition a) =
      [] :=
    List.flatMap_eq_nil_iff.mpr fun y hy =>
      (settledDefinition_of_redactDocument hextension hchosenFree hy).denialsInDefinition_eq
  simp only [redactDocument_redactDocument hextension hchosenFree, hdenials]

section Witness

/-- The fragment is emptied, and with it goes what the client selects of the types. -/
private def emptyingText : String :=
  "{ me { id ...F } __schema { types { ...F } } } fragment F on Person { mail }"

private def emptyingDocument : Document :=
  ⟨[.operation ⟨none, ⟨1, 1⟩, ⟨1, 46⟩,
      [.field ⟨⟨1, 3⟩, ⟨1, 6⟩, ⟨1, 16⟩, none, "me", [], []⟩
        [.field ⟨⟨1, 8⟩, ⟨1, 8⟩, ⟨1, 8⟩, none, "id", [], []⟩ [], .spread ⟨⟨1, 14⟩, "F", []⟩],
      .field ⟨⟨1, 18⟩, ⟨1, 27⟩, ⟨1, 44⟩, none, "__schema", [], []⟩
        [.field ⟨⟨1, 29⟩, ⟨1, 35⟩, ⟨1, 42⟩, none, "types", [], []⟩ [.spread ⟨⟨1, 40⟩, "F", []⟩]]]⟩,
    .fragment ⟨⟨1, 48⟩, ⟨1, 69⟩, ⟨1, 76⟩, "F", "Person", [],
      [.field ⟨⟨1, 71⟩, ⟨1, 71⟩, ⟨1, 71⟩, none, "mail", [], []⟩ []]⟩]⟩

private def mailless : Authority :=
  ⟨peopleSchema,
    ⟨["staff"], ⟨.ofList [⟨"Query", "me"⟩, ⟨"Person", "id"⟩, ⟨"Person", "mail"⟩] compare, ∅⟩⟩,
    some (.rejecting ["Person.mail"] [])⟩

private def emptiedDocument : Document :=
  ⟨[.operation ⟨none, ⟨1, 1⟩, ⟨1, 46⟩,
      [.field ⟨⟨1, 3⟩, ⟨1, 6⟩, ⟨1, 16⟩, none, "me", [], []⟩
        [.field ⟨⟨1, 8⟩, ⟨1, 8⟩, ⟨1, 8⟩, none, "id", [], []⟩ []],
      .field ⟨⟨1, 18⟩, ⟨1, 27⟩, ⟨1, 44⟩, none, "__schema", [], []⟩
        [.field ⟨⟨1, 29⟩, ⟨1, 35⟩, ⟨1, 42⟩, none, "types", [], []⟩ [nameSelection ⟨1, 42⟩]]]⟩]⟩

theorem redact_idempotent_of_emptied :
    Document.parse emptyingText = .ok emptyingDocument ∧
    mailless.Shallow ∧ emptyingDocument.NameKeyFree ∧
    redact mailless .prune emptyingDocument none = .ok ⟨emptiedDocument,
      [⟨.fragment "F", ["mail"], "Person", "mail", ⟨1, 71⟩, .extension⟩]⟩ ∧
    redact mailless .prune emptiedDocument none = .ok ⟨emptiedDocument, []⟩ := by
  have hparse : Document.parse emptyingText = .ok emptyingDocument := by cbv
  have hshallow : mailless.Shallow := by
    rintro _ ⟨⟩ parent head items more
    rfl
  have hfree : emptyingDocument.NameKeyFree := by
    simp [Document.NameKeyFree, emptyingDocument, Definition.items]
  have hredact : redact mailless .prune emptyingDocument none = .ok ⟨emptiedDocument,
      [⟨.fragment "F", ["mail"], "Person", "mail", ⟨1, 71⟩, .extension⟩]⟩ := by rfl
  exact ⟨hparse, hshallow, hfree, hredact, redact_idempotent hshallow hfree hredact⟩

end Witness

end Redaction

end FieldAuthorization
