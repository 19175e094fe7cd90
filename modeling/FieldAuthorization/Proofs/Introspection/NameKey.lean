import FieldAuthorization.Proofs.Redaction.Entries

/-!
When the key of added names can be trusted.

A set of selections on a type or a field is read by the value under the key of added names.
Redaction adds the name to every such set whose own selections do not use the key as an alias, so
the key is trusted just where no client gives it to another field.
-/

set_option autoImplicit false
set_option relaxedAutoImplicit false

namespace FieldAuthorization

namespace Introspection

/-- Selections on a type of introspection lead to the selections below one of their fields, on the
type that the field returns, through fields and inline fragments; and to themselves. -/
inductive Leads (type : String) (items : List Selection) : String → List Selection → Prop
  | here : Leads type items type items
  | below {trail : List Enclosure} {head : Field} {inner : List Selection}
      {parent child : String} :
      Occurs items trail (.field head inner) → typeAt type trail = some parent →
      childType? parent head.name = some child → Leads type items child inner

def SelectsKey (items : List Selection) : Prop :=
  ∃ head inner, .field head inner ∈ items ∧ head.responseKey = nameKey

def OnlyName (items : List Selection) : Prop :=
  ∀ head inner, .field head inner ∈ items → head.responseKey = nameKey → head.name = "name"

private theorem leads_withNames {type child : String} {items inner : List Selection}
    (h : Leads type items child inner) (closing : Position) :
    ∃ place, Leads type (withNames type closing items) child (withNames child place inner) := by
  cases h with
  | here => exact ⟨closing, .here⟩
  | @below trail head _ parent _ hoccurs htype hchild =>
    have hname : head.name ≠ "name" := by
      intro hname
      simp [hname, childType?_name] at hchild
    refine ⟨head.closing, .below ?_ htype hchild⟩
    rw [occurs_withNames hname, occurs_withNestedNamesAll hname]
    exact ⟨inner, hoccurs, by simp [htype, hchild, withNamesOf]⟩

private theorem of_leads_withNames {type child : String} {closing : Position}
    {items left : List Selection} (h : Leads type (withNames type closing items) child left) :
    ∃ inner place, Leads type items child inner ∧ left = withNames child place inner := by
  cases h with
  | here => exact ⟨items, closing, .here, rfl⟩
  | @below trail head _ parent _ hoccurs htype hchild =>
    have hname : head.name ≠ "name" := by
      intro hname
      simp [hname, childType?_name] at hchild
    rw [occurs_withNames hname, occurs_withNestedNamesAll hname] at hoccurs
    obtain ⟨inner, hinner, hleft⟩ := hoccurs
    refine ⟨inner, head.closing, .below hinner htype hchild, ?_⟩
    simpa [htype, hchild, withNamesOf] using hleft

private theorem leads_remaining {policy : EmptySelections} {emptied : Prune.Emptied}
    {type child : String} {items inner : List Selection} (h : Leads type items child inner)
    (hleft : Redaction.remaining policy emptied inner ≠ []) :
    Leads type (Redaction.remaining policy emptied items) child
      (Redaction.remaining policy emptied inner) := by
  cases h with
  | here => exact .here
  | below hoccurs htype hchild =>
    exact .below (Redaction.occurs_remaining hoccurs hleft) htype hchild

private theorem of_leads_remaining {policy : EmptySelections} {emptied : Prune.Emptied}
    {type child : String} {items left : List Selection}
    (h : Leads type (Redaction.remaining policy emptied items) child left) :
    ∃ inner, Leads type items child inner ∧ left = Redaction.remaining policy emptied inner := by
  cases h with
  | here => exact ⟨items, .here, rfl⟩
  | below hoccurs htype hchild =>
    obtain ⟨inner, hinner, hleft⟩ := Redaction.of_occurs_remaining hoccurs
    exact ⟨inner, .below hinner htype hchild, hleft⟩

private theorem Leads.ne_nil {type child : String} {items inner : List Selection}
    (h : Leads type items child inner) (hinner : inner ≠ []) : items ≠ [] := by
  cases h with
  | here => exact hinner
  | below hoccurs _ _ => exact hoccurs.ne_nil

end Introspection

open Introspection

/-- In every set of selections on a type or a field below an entry into introspection the key of
added names is selected, and it is the key of nothing but the name. -/
def Document.NameKeyTrusted (d : Document) : Prop :=
  ∀ x ∈ d.definitions, ∀ trail head items entry, Occurs x.items trail (.field head items) →
    entryType? head.name = some entry →
    ∀ type inner, Leads entry items type inner → isNamed type = true → inner ≠ [] →
      SelectsKey inner ∧ OnlyName inner

namespace Redaction

/-- What a redacted document has of the client's own selections in a set on a type of
introspection, below an entry at a place of a definition. -/
def clientSelections (a : Authority) (policy : EmptySelections) (d : Document) (x : Definition)
    (trail : List Enclosure) (type : String) (items : List Selection) : List Selection :=
  remaining policy (emptiedBy a policy d)
    (if x.Examines trail then withNestedNamesAll type items else items)

/-- The client claims the key of added names in no set of selections on a type or a field: it gives
the key to nothing but the name; and where it uses the key as an alias, or where redaction adds no
names, one of its own selections that are left has the key. -/
def NameKeyUnclaimed (a : Authority) (policy : EmptySelections) (d : Document) : Prop :=
  ∀ x ∈ d.definitions, Remains policy (emptiedBy a policy d) x →
    ∀ trail head items entry, a.KeepsIn x trail (.field head items) →
    entryType? head.name = some entry →
    ∀ type inner, Leads entry items type inner → isNamed type = true →
      let own := clientSelections a policy d x trail type inner
      OnlyName own ∧
        (own ≠ [] → SelectsKey own ∨ x.Examines trail ∧ selectsNameKey inner = false)

variable {a : Authority} {policy : EmptySelections} {emptied : Prune.Emptied} {type : String}

private theorem onlyName_nil : OnlyName [] := by
  simp [OnlyName]

private theorem onlyName_append {items more : List Selection} :
    OnlyName (items ++ more) ↔ OnlyName items ∧ OnlyName more := by
  simp only [OnlyName, List.mem_append]
  constructor
  · intro h
    exact ⟨fun head inner hm => h head inner (.inl hm), fun head inner hm => h head inner (.inr hm)⟩
  · rintro ⟨hitems, hmore⟩ head inner (hm | hm)
    · exact hitems head inner hm
    · exact hmore head inner hm

private theorem onlyName_nameSelection (place : Position) : OnlyName [nameSelection place] := by
  intro head inner hm _
  obtain ⟨rfl, -⟩ := Selection.field.inj (List.mem_singleton.mp hm)
  rfl

private theorem selectsKey_nameSelection (items : List Selection) (place : Position) :
    SelectsKey (items ++ [nameSelection place]) :=
  ⟨_, [], List.mem_append_right _ (List.mem_singleton.mpr rfl), rfl⟩

private theorem remaining_missingName (closing : Position) (items : List Selection) :
    remaining policy emptied (missingName type closing items) = missingName type closing items := by
  cases policy with
  | keep => rfl
  | prune =>
    unfold missingName
    split
    · simp [remaining, Prune.pruneSelections_eq_filterMap, nameSelection, Prune.pruneSelection_leaf]
    · simp

private theorem remaining_withNames_trusted (closing : Position) {items own : List Selection}
    (htype : isNamed type = true)
    (hown : own = remaining policy emptied (withNestedNamesAll type items)) :
    (remaining policy emptied (withNames type closing items) ≠ [] →
        SelectsKey (remaining policy emptied (withNames type closing items)) ∧
          OnlyName (remaining policy emptied (withNames type closing items))) ↔
      OnlyName own ∧ (own ≠ [] → SelectsKey own ∨ selectsNameKey items = false) := by
  rw [withNames, remaining_append, remaining_missingName, ← hown]
  cases hkey : selectsNameKey items with
  | true =>
    have hmissing : missingName type closing items = [] := by simp [missingName, hkey]
    rw [hmissing, List.append_nil]
    constructor
    · intro h
      cases own with
      | nil => exact ⟨onlyName_nil, fun hne => absurd rfl hne⟩
      | cons x rest =>
        obtain ⟨hselects, honly⟩ := h (List.cons_ne_nil x rest)
        exact ⟨honly, fun _ => .inl hselects⟩
    · rintro ⟨honly, hselects⟩ hne
      exact ⟨(hselects hne).resolve_right (by decide), honly⟩
  | false =>
    cases items with
    | nil =>
      have hempty : own = [] := by simpa [withNestedNamesAll] using hown
      simp [hempty, missingName, onlyName_nil]
    | cons x rest =>
      have hmissing : missingName type closing (x :: rest) = [nameSelection closing] := by
        simp [missingName, htype, hkey]
      rw [hmissing, onlyName_append]
      constructor
      · intro h
        exact ⟨(h (by simp)).2.1, fun _ => .inr rfl⟩
      · rintro ⟨honly, -⟩ -
        exact ⟨selectsKey_nameSelection own closing, honly, onlyName_nameSelection closing⟩

private theorem trusted_of_keepsIn {d : Document} {x : Definition} {trail : List Enclosure}
    {head : Field} {items set : List Selection} {entry : String}
    (htrusted : (redactDocument a policy d).NameKeyTrusted) (hx : x ∈ d.definitions)
    (hremains : Remains policy (emptiedBy a policy d) x)
    (hkeeps : a.KeepsIn x trail (.field head items)) (hentry : entryType? head.name = some entry)
    (hleads : Leads entry (if x.Examines trail then withEntryNames head items else items) type set)
    (htype : isNamed type = true) (hne : remaining policy (emptiedBy a policy d) set ≠ []) :
    SelectsKey (remaining policy (emptiedBy a policy d) set) ∧
      OnlyName (remaining policy (emptiedBy a policy d) set) := by
  have hleft := leads_remaining hleads hne
  have hoccurs : Occurs (redactDefinition a policy x).items trail (.field head
      (if x.Examines trail then withEntryNames head items else items)) :=
    (occurs_entry_redactDefinition hentry).mpr ⟨items, hkeeps, rfl⟩
  refine htrusted _ (mem_redactDocument.mpr ⟨x, hx, hremains, rfl⟩) trail head _ entry ?_ hentry
    type _ hleft htype hne
  rw [Definition.items_withItems]
  exact occurs_remaining hoccurs (hleft.ne_nil hne)

/-- The key of added names can be trusted in a redacted document exactly if the client does not
claim it in the part of the query that is redacted. -/
theorem nameKeyTrusted_iff {d chosen : Document} {name : Option String} {r : Redaction}
    (hchosen : d.restrict name = .ok chosen) (h : redact a policy d name = .ok r) :
    r.document.NameKeyTrusted ↔ NameKeyUnclaimed a policy chosen := by
  have hdocument : r.document = redactDocument a policy chosen := by
    obtain ⟨chosen', hchosen', hdocument, -⟩ := redact_eq_ok h
    rw [hchosen] at hchosen'
    cases hchosen'
    exact hdocument
  rw [hdocument]
  constructor
  · intro htrusted x hx hremains trail head items entry hkeeps hentry type inner hleads htype own
    by_cases hexamines : x.Examines trail
    · obtain ⟨place, hset⟩ := leads_withNames hleads head.closing
      have hown := (remaining_withNames_trusted place htype rfl).mp fun hne =>
        trusted_of_keepsIn htrusted hx hremains hkeeps hentry
          (by rw [if_pos hexamines, withEntryNames_eq, hentry]; exact hset) htype hne
      simpa only [own, clientSelections, hexamines, if_true, true_and] using hown
    · have hown : own = remaining policy (emptiedBy a policy chosen) inner := by
        simp only [own, clientSelections, hexamines, if_false]
      have htrusts := fun hne => trusted_of_keepsIn htrusted hx hremains hkeeps hentry
          (by rw [if_neg hexamines]; exact hleads) htype hne
      rw [← hown] at htrusts
      refine ⟨?_, fun hne => .inl (htrusts hne).1⟩
      cases hempty : own with
      | nil => exact onlyName_nil
      | cons y rest => exact hempty ▸ (htrusts (hempty ▸ List.cons_ne_nil y rest)).2
  · intro hunclaimed y hy trail head left entry hoccurs hentry type set hleads htype hne
    obtain ⟨x, hx, hremains, rfl⟩ := mem_redactDocument.mp hy
    rw [Definition.items_withItems] at hoccurs
    obtain ⟨mid, hmid, rfl⟩ := of_occurs_remaining hoccurs
    obtain ⟨items, hkeeps, hitems⟩ := (occurs_entry_redactDefinition hentry).mp hmid
    obtain ⟨inner, hinner, rfl⟩ := of_leads_remaining hleads
    by_cases hexamines : x.Examines trail
    · rw [if_pos hexamines, withEntryNames_eq, hentry] at hitems
      subst hitems
      obtain ⟨set, place, hset, rfl⟩ := of_leads_withNames hinner
      have hown := hunclaimed x hx hremains trail head items entry hkeeps hentry type set hset htype
      simp only [clientSelections, hexamines, if_true, true_and] at hown
      exact (remaining_withNames_trusted place htype rfl).mpr hown hne
    · rw [if_neg hexamines] at hitems
      subst hitems
      have hown := hunclaimed x hx hremains trail head _ entry hkeeps hentry type inner hinner htype
      simp only [clientSelections, hexamines, if_false, false_and, or_false] at hown
      exact ⟨hown.2 hne, hown.1⟩

section Witness

/-- The client lets the key stand for the name of the introspection type, which is never hidden. -/
private def claimingText : String :=
  "{ __schema { types { _authzName: __typename } } }"

private def claimingItems : List Selection :=
  [.field ⟨⟨1, 22⟩, ⟨1, 22⟩, ⟨1, 22⟩, some "_authzName", "__typename", [], []⟩ []]

private def typesField : Field :=
  ⟨⟨1, 14⟩, ⟨1, 20⟩, ⟨1, 45⟩, none, "types", [], []⟩

private def schemaField : Field :=
  ⟨⟨1, 3⟩, ⟨1, 12⟩, ⟨1, 47⟩, none, "__schema", [], []⟩

private def claimingDocument : Document :=
  ⟨[.operation ⟨none, ⟨1, 1⟩, ⟨1, 49⟩, [.field schemaField [.field typesField claimingItems]]⟩]⟩

private def nobody : Authority :=
  ⟨peopleSchema, .denyAll, none⟩

private theorem claimingDocument_not_trusted : ¬ claimingDocument.NameKeyTrusted := by
  intro h
  have hoccurs : Occurs [.field schemaField [.field typesField claimingItems]] []
      (.field schemaField [.field typesField claimingItems]) := .here (List.mem_singleton.mpr rfl)
  have hleads : Leads "__Schema" [.field typesField claimingItems] "__Type" claimingItems :=
    .below (.here (List.mem_singleton.mpr rfl)) rfl rfl
  have htrusts := h _ (List.mem_singleton.mpr rfl) [] schemaField _ "__Schema" hoccurs rfl "__Type"
    claimingItems hleads rfl (List.cons_ne_nil _ _)
  exact absurd (htrusts.2 _ [] (List.mem_singleton.mpr rfl) rfl) (by decide)

/-- A query that redaction leaves as it is although its key cannot be trusted. -/
theorem exists_not_nameKeyTrusted :
    ∃ r, Document.parse claimingText = .ok claimingDocument ∧
      redact nobody .prune claimingDocument none = .ok r ∧ ¬ r.document.NameKeyTrusted := by
  have hparse : Document.parse claimingText = .ok claimingDocument := by cbv
  exact ⟨⟨claimingDocument, []⟩, hparse, rfl, claimingDocument_not_trusted⟩

theorem not_nameKeyUnclaimed_of_typename :
    claimingDocument.restrict none = .ok claimingDocument ∧
      redact nobody .prune claimingDocument none = .ok ⟨claimingDocument, []⟩ ∧
      ¬ NameKeyUnclaimed nobody .prune claimingDocument := by
  have hchosen : claimingDocument.restrict none = .ok claimingDocument := by rfl
  have hredact : redact nobody .prune claimingDocument none = .ok ⟨claimingDocument, []⟩ := by rfl
  refine ⟨hchosen, hredact, ?_⟩
  rw [← nameKeyTrusted_iff hchosen hredact]
  exact claimingDocument_not_trusted

end Witness

end Redaction

end FieldAuthorization
