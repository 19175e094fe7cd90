import FieldAuthorization.Proofs.Redaction.Entries

/-!
The keys under which a client selects introspection.

A client may give any key to a field. A keying says which keys it gives to the fields that return
objects of introspection. Redaction keeps the keys and adds names, and so makes selections ready:
each set of them on a type or a field selects the name under its key.
-/

set_option autoImplicit false
set_option relaxedAutoImplicit false

namespace FieldAuthorization

namespace Introspection

/-- Which response keys a field of a type may have. -/
abbrev Keying := (type field key : String) → Prop

/-- A client's selection on a type of introspection keeps to a keying and leaves the key of added
names alone. -/
inductive Follows (keying : Keying) : String → Selection → Prop
  | field {type : String} {head : Field} {items : List Selection} :
      head.responseKey ≠ nameKey →
      (∀ child, childType? type head.name = some child → keying type head.name head.responseKey) →
      (∀ child, childType? type head.name = some child →
        ∀ x ∈ items, Follows keying child x) →
      Follows keying type (.field head items)
  | spread {type : String} (head : Spread) : Follows keying type (.spread head)
  | inline {type : String} {head : InlineFragment} {items : List Selection} :
      (∀ x ∈ items, Follows keying (head.condition.getD type) x) →
      Follows keying type (.inline head items)

/-- Selections on a type or a field select the name under its key, if they select anything. -/
def Named (type : String) (items : List Selection) : Prop :=
  isNamed type = true → items ≠ [] →
    ∃ head, .field head [] ∈ items ∧ head.responseKey = nameKey

/-- A selection on a type of introspection keeps to a keying, only names have the key of added
names, and each set of selections below it is named. -/
inductive Ready (keying : Keying) : String → Selection → Prop
  | field {type : String} {head : Field} {items : List Selection} :
      (head.responseKey = nameKey → head.name = "name") →
      (∀ child, childType? type head.name = some child →
        keying type head.name head.responseKey ∧ Named child items) →
      (∀ child, childType? type head.name = some child →
        ∀ x ∈ items, Ready keying child x) →
      Ready keying type (.field head items)
  | spread {type : String} (head : Spread) : Ready keying type (.spread head)
  | inline {type : String} {head : InlineFragment} {items : List Selection} :
      (∀ x ∈ items, Ready keying (head.condition.getD type) x) →
      Ready keying type (.inline head items)

variable {keying : Keying} {type : String} {items : List Selection}

private theorem ready_nameSelection (place : Position) :
    Ready keying type (nameSelection place) := by
  refine .field (fun _ => rfl) (fun child hchild => ?_) (fun child hchild => ?_) <;>
    simp [childType?_name] at hchild

private theorem Follows.selectsNameKey_eq_false (h : ∀ x ∈ items, Follows keying type x) :
    selectsNameKey items = false := by
  rw [selectsNameKey, List.any_eq_false]
  intro x hx halias
  cases h x hx with
  | field hkey _ _ => exact hkey (by simp_all [Field.responseKey])
  | spread _ => simp at halias
  | inline _ => simp at halias

theorem named_withNames {closing : Position} (h : ∀ x ∈ items, Follows keying type x) :
    Named type (withNames type closing items) := by
  intro htype hne
  have hitems : items ≠ [] := by
    rintro rfl
    simp [withNames, withNestedNamesAll, missingName] at hne
  have hmissing : missingName type closing items = [nameSelection closing] := by
    simp [missingName, htype, hitems, Follows.selectsNameKey_eq_false h]
  rw [withNames, hmissing]
  exact ⟨_, List.mem_append_right _ (List.mem_singleton.mpr rfl), rfl⟩

private theorem Follows.ready {x : Selection} (h : Follows keying type x) :
    Ready keying type (withNestedNames type x) := by
  induction h with
  | @field type head items hkey hkeying hitems ih =>
    rw [withNestedNames_field]
    refine .field (fun hname => absurd hname hkey) (fun child hchild => ?_) fun child hchild => ?_
    · rw [hchild]
      exact ⟨hkeying child hchild, named_withNames (hitems child hchild)⟩
    · rw [hchild]
      intro y hy
      rcases List.mem_append.mp hy with hy | hy
      · rw [withNestedNamesAll_eq_map] at hy
        obtain ⟨x, hx, rfl⟩ := List.mem_map.mp hy
        exact ih child hchild x hx
      · exact mem_missingName hy ▸ ready_nameSelection _
  | spread head =>
    rw [withNestedNames]
    exact .spread head
  | inline _ ih =>
    rw [withNestedNames, withNestedNamesAll_eq_map]
    refine .inline fun y hy => ?_
    obtain ⟨x, hx, rfl⟩ := List.mem_map.mp hy
    exact ih x hx

private theorem ready_withNestedNamesAll (h : ∀ x ∈ items, Follows keying type x) :
    ∀ y ∈ withNestedNamesAll type items, Ready keying type y := by
  intro y hy
  rw [withNestedNamesAll_eq_map] at hy
  obtain ⟨x, hx, rfl⟩ := List.mem_map.mp hy
  exact (h x hx).ready

theorem ready_withNames {closing : Position} (h : ∀ x ∈ items, Follows keying type x) :
    ∀ y ∈ withNames type closing items, Ready keying type y := by
  intro y hy
  rcases List.mem_append.mp hy with hy | hy
  · exact ready_withNestedNamesAll h y hy
  · exact mem_missingName hy ▸ ready_nameSelection _

private theorem Named.pruneSelections {emptied : Prune.Emptied} (h : Named type items) :
    Named type (Prune.pruneSelections emptied items) := by
  intro htype hne
  have hitems : items ≠ [] := by
    rintro rfl
    simp at hne
  obtain ⟨head, hm, hkey⟩ := h htype hitems
  exact ⟨head, Prune.mem_pruneSelections.mpr ⟨_, hm, Prune.pruneSelection_leaf head⟩, hkey⟩

private theorem Ready.pruneSelection {emptied : Prune.Emptied} {x y : Selection}
    (h : Ready keying type x) (hleft : Prune.pruneSelection emptied x = some y) :
    Ready keying type y := by
  induction h generalizing y with
  | field hname hkeying _ ih =>
    obtain rfl := Prune.eq_of_pruneSelection_field hleft
    refine .field hname (fun child hchild => ?_) fun child hchild z hz => ?_
    · exact ⟨(hkeying child hchild).1, (hkeying child hchild).2.pruneSelections⟩
    · obtain ⟨w, hw, hwz⟩ := Prune.mem_pruneSelections.mp hz
      exact ih child hchild w hw hwz
  | spread head =>
    obtain rfl := Prune.eq_of_pruneSelection_spread hleft
    exact .spread head
  | inline _ ih =>
    obtain rfl := Prune.eq_of_pruneSelection_inline hleft
    refine .inline fun z hz => ?_
    obtain ⟨w, hw, hwz⟩ := Prune.mem_pruneSelections.mp hz
    exact ih w hw hwz

variable {policy : EmptySelections} {emptied : Prune.Emptied}

private theorem Named.remaining (h : Named type items) :
    Named type (Redaction.remaining policy emptied items) := by
  cases policy with
  | keep => exact h
  | prune => exact h.pruneSelections

private theorem ready_remaining (h : ∀ x ∈ items, Ready keying type x) :
    ∀ y ∈ Redaction.remaining policy emptied items, Ready keying type y := by
  cases policy with
  | keep => exact h
  | prune =>
    intro y hy
    obtain ⟨x, hx, hxy⟩ := Prune.mem_pruneSelections.mp hy
    exact (h x hx).pruneSelection hxy

end Introspection

open Introspection

namespace Document

variable {d : Document}

/-- The selections stand below a field of the name that enters introspection. -/
def Enters (d : Document) (name : String) (items : List Selection) : Prop :=
  ∃ x ∈ d.definitions, x.onIntrospection = false ∧ ∃ trail head, Exposed trail ∧
    Occurs x.items trail (.field head items) ∧ head.name = name

/-- What a document selects of introspection keeps to a keying. -/
structure Follows (d : Document) (keying : Keying) : Prop where
  entries : ∀ name type items, entryType? name = some type → d.Enters name items →
    ∀ y ∈ items, Introspection.Follows keying type y
  fragments : ∀ f ∈ d.fragments, isMeta f.condition = true →
    ∀ y ∈ f.items, Introspection.Follows keying f.condition y

end Document

namespace Redaction

variable {a : Authority} {policy : EmptySelections} {keying : Keying} {d : Document}
  {name : Option String} {r : Redaction}

theorem ready_entry (h : redact a policy d name = .ok r) (hd : d.Follows keying)
    {field type : String} {left : List Selection} (hentry : entryType? field = some type)
    (hleft : r.document.Enters field left) :
    Named type left ∧ ∀ y ∈ left, Ready keying type y := by
  obtain ⟨x, hx, hplain, trail, head, hexposed, hoccurs, rfl⟩ := hleft
  obtain ⟨chosen, hchosen, hdocument, -⟩ := redact_eq_ok h
  rw [hdocument] at hx
  obtain ⟨z, hz, -, rfl⟩ := mem_redactDocument.mp hx
  rw [Definition.onIntrospection_withItems] at hplain
  rw [Definition.items_withItems] at hoccurs
  obtain ⟨mid, hmid, rfl⟩ := of_occurs_remaining hoccurs
  obtain ⟨items, hkeeps, rfl⟩ := (occurs_entry_redactDefinition hentry).mp hmid
  have hfollows := hd.entries head.name type items hentry
    ⟨z, Document.definitions_of_restrict hchosen hz, hplain, trail, head, hexposed, hkeeps.occurs,
      rfl⟩
  have hexamines : z.Examines trail := ⟨hplain, hexposed⟩
  rw [if_pos hexamines, withEntryNames_eq, hentry]
  exact ⟨(named_withNames hfollows).remaining, ready_remaining (ready_withNames hfollows)⟩

theorem ready_fragment (h : redact a policy d name = .ok r) (hd : d.Follows keying)
    {f : Fragment} (hf : f ∈ r.document.fragments) (hmeta : isMeta f.condition = true) :
    ∀ y ∈ f.items, Ready keying f.condition y := by
  obtain ⟨chosen, hchosen, hdocument, -⟩ := redact_eq_ok h
  rw [hdocument, Document.mem_fragments] at hf
  obtain ⟨z, hz, -, hfz⟩ := mem_redactDocument.mp hf
  cases z with
  | operation o => simp [Definition.withItems] at hfz
  | fragment g =>
    have hg : g ∈ d.fragments :=
      Document.mem_fragments.mpr (Document.definitions_of_restrict hchosen hz)
    obtain rfl := Definition.fragment.inj hfz
    have hcondition : isMeta g.condition = true := hmeta
    rw [redactDefinition, if_pos hcondition]
    exact ready_remaining (ready_withNestedNamesAll (hd.fragments g hg hcondition))

end Redaction

end FieldAuthorization
