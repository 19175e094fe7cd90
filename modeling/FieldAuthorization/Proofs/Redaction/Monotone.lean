import FieldAuthorization.Proofs.Access.Union
import FieldAuthorization.Proofs.Document.Thinning
import FieldAuthorization.Proofs.Redaction.Emptied
import FieldAuthorization.Proofs.Redaction.Soundness

/-!
Redaction is monotone in the caller's rights.

A caller who may do less is left with less: what redaction leaves for such a caller comes from what
it leaves for the other by taking out selections and fragments. Denials are no measure of this,
since a field that is allowed uncovers denied fields below it; the argument goes along the
selections, and then along the rounds of pruning, which find for the first caller all the emptied
fragments that they find for the second.
-/

set_option autoImplicit false
set_option relaxedAutoImplicit false

namespace FieldAuthorization

namespace Authority

variable {a b : Authority}

/-- The verifier allows the field of a type, and the extension, if there is one, authorizes it. -/
def Authorizes (a : Authority) (parent : String) (head : Field) (items : List Selection) : Prop :=
  a.verifier.allows parent head.name = true ∧
    ∀ authorizes, a.extension = some authorizes → authorizes parent head items = true

/-- Both read the same schema, and whatever the first authorizes the second authorizes too. -/
structure Within (a b : Authority) : Prop where
  schema : a.schema = b.schema
  authorizes : ∀ parent head items, a.Authorizes parent head items → b.Authorizes parent head items

private theorem Within.judge_eq_ok (h : a.Within b) {parent type : String} {head : Field}
    {items : List Selection} (hjudge : a.judge parent head items = .ok type) :
    b.judge parent head items = .ok type := by
  obtain ⟨hallows, hextension, hfield⟩ := judge_eq_ok_iff.mp hjudge
  obtain ⟨hallows, hextension⟩ := h.authorizes parent head items ⟨hallows, hextension⟩
  exact judge_eq_ok_iff.mpr ⟨hallows, hextension, h.schema ▸ hfield⟩

private theorem Within.rootType_eq (h : a.Within b) (kind : OperationKind) :
    a.rootType kind = b.rootType kind := by
  rw [rootType, rootType, h.schema]

end Authority

namespace Prune

variable {emptied more : Emptied}

private theorem pruneSelection_mono (h : ∀ name ∈ more, name ∈ emptied) {x y left : Selection}
    (hxy : x.ThinnedFrom .prune y) (hleft : pruneSelection emptied x = some left) :
    ∃ kept, pruneSelection more y = some kept ∧ left.ThinnedFrom .prune kept := by
  have hinner {inner items : List Selection} (hthin : ThinnedSelections .prune inner items)
      (ih : ∀ w ∈ items, ∀ {z left}, z.ThinnedFrom .prune w →
        pruneSelection emptied z = some left →
        ∃ kept, pruneSelection more w = some kept ∧ left.ThinnedFrom .prune kept) :
      ThinnedSelections .prune (pruneSelections emptied inner) (pruneSelections more items) := by
    rw [pruneSelections_eq_filterMap, pruneSelections_eq_filterMap]
    refine hthin.filterMap ?_ (fun _ _ _ _ _ _ => trivial) fun _ _ _ _ => trivial
    intro z w hw hzw left hleft
    exact ih w hw hzw hleft
  induction y generalizing x left with
  | field head items ih =>
    cases hxy with
    | @field _ inner _ hleaf hthin =>
      obtain rfl := eq_of_pruneSelection_field hleft
      by_cases hitems : items = []
      · -- a field without selections below it has nothing to lose
        subst hitems
        obtain rfl := hthin.eq_nil
        exact ⟨_, pruneSelection_leaf head, .refl _⟩
      · have hne : pruneSelections emptied inner ≠ [] := fun hempty =>
          hitems (hleaf rfl (items_eq_nil_of_pruneSelection hleft hempty))
        have hthin := hinner hthin ih
        have hkept : pruneSelections more items ≠ [] := fun hempty => hne (hempty ▸ hthin).eq_nil
        exact ⟨_, pruneSelection_field hkept, .field (fun _ hnil => absurd hnil hne) hthin⟩
  | spread head =>
    cases hxy
    obtain rfl := eq_of_pruneSelection_spread hleft
    have hstays : head.name ∉ more := by
      intro hmem
      have hgone := h head.name hmem
      simp [pruneSelection, Std.ExtTreeSet.contains_iff_mem, hgone] at hleft
    exact ⟨_, by simp [pruneSelection, hstays], .spread head⟩
  | inline head items ih =>
    cases hxy with
    | @inline _ inner _ hthin =>
      obtain rfl := eq_of_pruneSelection_inline hleft
      have hne : pruneSelections emptied inner ≠ [] := pruneSelections_ne_nil_of_inline hleft
      have hthin := hinner hthin ih
      have hkept : pruneSelections more items ≠ [] := fun hempty => hne (hempty ▸ hthin).eq_nil
      exact ⟨_, pruneSelection_inline hkept, .inline hthin⟩

private theorem pruneSelections_mono (h : ∀ name ∈ more, name ∈ emptied)
    {left items : List Selection} (hthin : ThinnedSelections .prune left items) :
    ThinnedSelections .prune (pruneSelections emptied left) (pruneSelections more items) := by
  rw [pruneSelections_eq_filterMap, pruneSelections_eq_filterMap]
  refine hthin.filterMap ?_ (fun _ _ _ _ _ _ => trivial) fun _ _ _ _ => trivial
  intro x y _ hxy left hleft
  exact pruneSelection_mono h hxy hleft

private theorem emptiedFragments_mono {d more : Document}
    (h : ∀ g ∈ more.fragments, ∃ f ∈ d.fragments, f.name = g.name ∧
      ThinnedSelections .prune f.items g.items) :
    ∀ name ∈ emptiedFragments more, name ∈ emptiedFragments d := by
  apply emptiedFragments_induction
  intro emptied g hg hemptied hempty
  obtain ⟨f, hf, hname, hthin⟩ := h g hg
  have hless := pruneSelections_mono hemptied hthin
  rw [hempty] at hless
  exact hname ▸ mem_emptiedFragments hf hless.eq_nil

private theorem pruneDocument_mono {d more : Document}
    (h : Thinned (fun _ => False) (Definition.ThinnedFrom .prune) d.definitions
      more.definitions) :
    (pruneDocument d).ThinnedFrom .prune (pruneDocument more) := by
  have hemptied : ∀ name ∈ emptiedFragments more, name ∈ emptiedFragments d := by
    apply emptiedFragments_mono
    intro g hg
    obtain hfalse | ⟨x, hx, items, rfl, hthin⟩ := h.exists_of_mem (Document.mem_fragments.mp hg)
    · exact hfalse.elim
    · exact ⟨_, Document.mem_fragments.mpr hx, rfl, hthin⟩
  refine h.filterMap ?_ ?_ fun _ _ hfalse => hfalse.elim
  · rintro _ y - ⟨items, rfl, hthin⟩ z hz
    obtain ⟨hstays, rfl⟩ := pruneDefinition_eq_some.mp hz
    have hstaysToo : ∀ f, y = .fragment f → (emptiedFragments more).contains f.name = false := by
      rintro f rfl
      have hf : (emptiedFragments d).contains f.name = false :=
        hstays { f with items := items } rfl
      rw [← Bool.not_eq_true, Std.ExtTreeSet.contains_iff_mem] at hf ⊢
      exact fun hmem => hf (hemptied f.name hmem)
    refine ⟨_, pruneDefinition_eq_some.mpr ⟨hstaysToo, rfl⟩,
      pruneSelections (emptiedFragments d) items, by simp, ?_⟩
    simpa using pruneSelections_mono hemptied hthin
  · rintro _ y w ⟨items, rfl, -⟩ hgone hw
    cases y with
    | operation o => cases hgone
    | fragment g =>
      obtain ⟨-, rfl⟩ := pruneDefinition_eq_some.mp hw
      rfl

end Prune

namespace Redaction

variable {a b : Authority} {policy : EmptySelections} {parent : String}

theorem redactSelection_field_eq_some {head : Field} {items : List Selection} {type : String}
    {y : Selection} (hmeta : isMeta head.name = false)
    (hjudge : a.judge parent head items = .ok type) :
    redactSelection a policy parent (.field head items) = some y ↔
      (policy = .prune → redactSelections a policy type items = [] → items = []) ∧
        y = .field head (redactSelections a policy type items) := by
  simp only [redactSelection, hmeta, hjudge, Bool.false_eq_true, if_false]
  split
  · rename_i hpruned
    simp only [Bool.and_eq_true, Bool.not_eq_true', List.isEmpty_eq_false_iff, List.isEmpty_iff,
      decide_eq_true_eq] at hpruned
    obtain ⟨⟨hitems, hkept⟩, rfl⟩ := hpruned
    simp [hitems, hkept]
  · rename_i hstays
    rw [Option.some.injEq, eq_comm, iff_and_self]
    rintro - rfl hkept
    by_contra hitems
    simp [hitems, hkept] at hstays

theorem redactSelection_inline_eq_some {head : InlineFragment} {items : List Selection}
    {y : Selection} :
    redactSelection a policy parent (.inline head items) = some y ↔
      (policy = .prune → redactSelections a policy (head.condition.getD parent) items ≠ []) ∧
        y = .inline head (redactSelections a policy (head.condition.getD parent) items) := by
  simp only [redactSelection]
  split
  · rename_i hpruned
    simp only [Bool.and_eq_true, List.isEmpty_iff, decide_eq_true_eq] at hpruned
    obtain ⟨hkept, rfl⟩ := hpruned
    simp [hkept]
  · rename_i hstays
    rw [Option.some.injEq, eq_comm, iff_and_self]
    rintro - rfl hkept
    simp [hkept] at hstays

private theorem thinned_of_forall {items : List Selection} {type : String}
    (h : ∀ x ∈ items, ∀ y, redactSelection a policy type x = some y →
      ∃ z, redactSelection b policy type x = some z ∧ y.ThinnedFrom policy z) :
    ThinnedSelections policy (redactSelections a policy type items)
      (redactSelections b policy type items) := by
  rw [redactSelections_eq_filterMap, redactSelections_eq_filterMap]
  exact .filterMap_of_forall h

/-- Whatever redaction leaves of a selection for a caller it leaves for one who may do more, and
no less of it. -/
private theorem redactSelection_mono (h : a.Within b) {x y : Selection}
    (hy : redactSelection a policy parent x = some y) :
    ∃ z, redactSelection b policy parent x = some z ∧ y.ThinnedFrom policy z := by
  induction x generalizing parent y with
  | field head items ih =>
    cases hmeta : isMeta head.name with
    | true =>
      have hsame : redactSelection b policy parent (.field head items) = some y := by
        rwa [redactSelection, if_pos hmeta] at hy ⊢
      exact ⟨y, hsame, .refl y⟩
    | false =>
      cases hjudge : a.judge parent head items with
      | error reason => simp [redactSelection, hmeta, hjudge] at hy
      | ok type =>
        have hthin : ThinnedSelections policy (redactSelections a policy type items)
            (redactSelections b policy type items) :=
          thinned_of_forall fun z hz w hw => ih z hz hw
        obtain ⟨hleaf, rfl⟩ := (redactSelection_field_eq_some hmeta hjudge).mp hy
        have hnone (hpolicy : policy = .prune)
            (hkept : redactSelections b policy type items = []) : items = [] :=
          hleaf hpolicy (hkept ▸ hthin).eq_nil
        refine ⟨_, (redactSelection_field_eq_some hmeta (h.judge_eq_ok hjudge)).mpr
          ⟨hnone, rfl⟩, .field (fun hpolicy hleft => ?_) hthin⟩
        rw [hleaf hpolicy hleft]
        rfl
  | spread head => exact ⟨y, hy, .refl y⟩
  | inline head items ih =>
    have hthin : ThinnedSelections policy
        (redactSelections a policy (head.condition.getD parent) items)
        (redactSelections b policy (head.condition.getD parent) items) :=
      thinned_of_forall fun z hz w hw => ih z hz hw
    obtain ⟨hne, rfl⟩ := redactSelection_inline_eq_some.mp hy
    refine ⟨_, redactSelection_inline_eq_some.mpr ⟨fun hpolicy hkept => ?_, rfl⟩, .inline hthin⟩
    exact hne hpolicy (hkept ▸ hthin).eq_nil

private theorem redactSelections_mono (h : a.Within b) (items : List Selection) :
    ThinnedSelections policy (redactSelections a policy parent items)
      (redactSelections b policy parent items) :=
  thinned_of_forall fun _ _ _ hy => redactSelection_mono h hy

private theorem redactDefinition_mono (h : a.Within b) (x : Definition) :
    (redactDefinition a policy x).ThinnedFrom policy (redactDefinition b policy x) := by
  cases x with
  | operation o =>
    refine ⟨redactSelections a policy (a.rootType o.kind) o.items, rfl, ?_⟩
    rw [h.rootType_eq]
    exact redactSelections_mono h o.items
  | fragment f =>
    cases hmeta : isMeta f.condition with
    | true =>
      -- names are added to a fragment on a type of introspection whoever the caller is
      simp only [redactDefinition, hmeta, if_true]
      exact ⟨_, rfl, .refl fun x _ => .refl x⟩
    | false =>
      simp only [redactDefinition, hmeta, Bool.false_eq_true, if_false]
      exact ⟨redactSelections a policy f.condition f.items, rfl, redactSelections_mono h f.items⟩

private theorem redactDocument_mono (h : a.Within b) (d : Document) :
    (redactDocument a policy d).ThinnedFrom policy (redactDocument b policy d) := by
  have hmap {drops : Definition → Prop} : Thinned drops (Definition.ThinnedFrom policy)
      (d.definitions.map (redactDefinition a policy))
      (d.definitions.map (redactDefinition b policy)) :=
    .map fun x _ => redactDefinition_mono h x
  cases policy with
  | keep => exact hmap
  | prune => exact Prune.pruneDocument_mono hmap

/-- Redaction gives both callers the same error, or it gives both a document, and the document of
the first is that of the second with selections and fragments taken out. -/
def Narrows (policy : EmptySelections) (d : Document) (name : Option String) (a b : Authority) :
    Prop :=
  (∃ e, redact a policy d name = .error e ∧ redact b policy d name = .error e) ∨
    ∃ r more, redact a policy d name = .ok r ∧ redact b policy d name = .ok more ∧
      r.document.ThinnedFrom policy more.document

private theorem narrows_of_within (h : a.Within b) (d : Document) (name : Option String) :
    Narrows policy d name a b := by
  unfold Narrows redact
  cases d.restrict name with
  | error e => exact .inl ⟨e, rfl, rfl⟩
  | ok chosen => exact .inr ⟨_, _, rfl, rfl, redactDocument_mono h chosen⟩

/-- Redaction takes nothing more from a caller who may do more. So it takes nothing more from one
who has more scopes, and leaves nothing more to one whose fields an extension judges too. -/
theorem redact_mono (policy : EmptySelections) (d : Document) (name : Option String) :
    (∀ a b : Authority, a.Within b → Narrows policy d name a b) ∧
    (∀ (s : Schema) (x : ClientIndex) (scopes more : ScopeSet) (extension : Option Extension),
      Narrows policy d name ⟨s, x.verifier scopes, extension⟩
        ⟨s, x.verifier (scopes ∪ more), extension⟩) ∧
    (∀ (s : Schema) (v : Verifier) (authorizes : Extension),
      Narrows policy d name ⟨s, v, some authorizes⟩ ⟨s, v, none⟩) := by
  refine ⟨?within, ?scopes, ?extension⟩
  case within =>
    intro a b h
    exact narrows_of_within h d name
  case scopes =>
    intro s x scopes more extension
    apply narrows_of_within
    refine ⟨rfl, ?_⟩
    rintro parent head items ⟨hallows, hextension⟩
    have hbefore : (x.verifier scopes).allows parent head.name = true := hallows
    have hafter : (x.verifier (scopes ∪ more)).allows parent head.name = true := by
      rw [ClientIndex.allows_verifier_union, hbefore, Bool.true_or]
    exact ⟨hafter, hextension⟩
  case extension =>
    intro s v authorizes
    apply narrows_of_within
    refine ⟨rfl, ?_⟩
    rintro parent head items ⟨hallows, -⟩
    exact ⟨hallows, nofun⟩

section Witness

private def reader (rules : List FieldRule) : Authority :=
  ⟨peopleSchema, ⟨["staff"], ⟨.ofList rules compare, ∅⟩⟩, none⟩

private def contactDocument : Document :=
  ⟨[.operation ⟨none, ⟨1, 1⟩, ⟨1, 1⟩, [.field (plainField "me")
      [.field (plainField "id") [], .spread ⟨⟨1, 1⟩, "Contact", []⟩]]⟩,
    .fragment ⟨⟨1, 1⟩, ⟨1, 1⟩, ⟨1, 1⟩, "Contact", "Person", [], [.field (plainField "mail") []]⟩]⟩

private def identityDocument : Document :=
  ⟨[.operation ⟨none, ⟨1, 1⟩, ⟨1, 1⟩, [.field (plainField "me") [.field (plainField "id") []]]⟩]⟩

/-- Without the mail the fragment is emptied, and its spread goes too. -/
theorem redact_mono_of_contact :
    (reader [⟨"Query", "me"⟩, ⟨"Person", "id"⟩]).Within
      (reader [⟨"Query", "me"⟩, ⟨"Person", "id"⟩, ⟨"Person", "mail"⟩]) ∧
    redact (reader [⟨"Query", "me"⟩, ⟨"Person", "id"⟩]) .prune contactDocument none =
      .ok ⟨identityDocument,
        [⟨.fragment "Contact", ["mail"], "Person", "mail", ⟨1, 1⟩, .notPermitted⟩]⟩ ∧
    redact (reader [⟨"Query", "me"⟩, ⟨"Person", "id"⟩, ⟨"Person", "mail"⟩]) .prune
      contactDocument none = .ok ⟨contactDocument, []⟩ ∧
    identityDocument.ThinnedFrom .prune contactDocument := by
  have hwithin : (reader [⟨"Query", "me"⟩, ⟨"Person", "id"⟩]).Within
      (reader [⟨"Query", "me"⟩, ⟨"Person", "id"⟩, ⟨"Person", "mail"⟩]) := by
    refine ⟨rfl, fun parent head items hauthorizes => ?_⟩
    obtain ⟨hallows, hextension⟩ := hauthorizes
    refine ⟨?_, hextension⟩
    simp only [reader, Verifier.allows, PermissionSet.permits, Std.ExtTreeSet.contains_ofList,
      List.contains_cons, List.contains_nil, Bool.or_eq_true, Bool.false_eq_true,
      or_false] at hallows ⊢
    rcases hallows with hme | hid
    · exact .inl hme
    · exact .inr (.inl hid)
  have hless : redact (reader [⟨"Query", "me"⟩, ⟨"Person", "id"⟩]) .prune contactDocument none =
      .ok ⟨identityDocument,
        [⟨.fragment "Contact", ["mail"], "Person", "mail", ⟨1, 1⟩, .notPermitted⟩]⟩ := by rfl
  have hmore : redact (reader [⟨"Query", "me"⟩, ⟨"Person", "id"⟩, ⟨"Person", "mail"⟩]) .prune
      contactDocument none = .ok ⟨contactDocument, []⟩ := by rfl
  obtain ⟨e, herror, -⟩ | ⟨r, more, hr, hr', hthin⟩ :=
    (redact_mono .prune contactDocument none).1 _ _ hwithin
  · rw [hless] at herror
    cases herror
  · rw [hless] at hr
    rw [hmore] at hr'
    cases hr
    cases hr'
    exact ⟨hwithin, hless, hmore, hthin⟩

end Witness

end Redaction

end FieldAuthorization
