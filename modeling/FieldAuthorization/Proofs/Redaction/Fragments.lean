import FieldAuthorization.Proofs.Redaction.Denials
import FieldAuthorization.Proofs.Redaction.Entries

/-!
Fragments are redacted by themselves.

What is left of the fragments of a query, and what is reported of them, is what redaction leaves and
reports of the fragments alone: neither the operation that is chosen nor the spreads that lead to a
fragment bear on it.
-/

set_option autoImplicit false
set_option relaxedAutoImplicit false

namespace FieldAuthorization

def RedactionRoot.isFragment : RedactionRoot → Bool
  | .operation _ => false
  | .fragment _ => true

def Selection.isSpreadOf (name : String) : Selection → Bool
  | .field _ _ => false
  | .spread head => head.name == name
  | .inline _ _ => false

private theorem Definition.isFragment_root (x : Definition) :
    x.root.isFragment = !x.isOperation := by
  cases x <;> rfl

@[simp] theorem Definition.root_withItems (x : Definition) (items : List Selection) :
    (x.withItems items).root = x.root := by
  cases x <;> rfl

namespace Document

variable {d : Document} {name : String}

def fragmentsAlone (d : Document) : Document :=
  ⟨d.definitions.filter (·.root.isFragment)⟩

/-- The document without the spreads of a fragment, but for those in the fragment itself. -/
def withoutSpreads (d : Document) (name : String) : Document :=
  d.sift fun outer x => outer.origin.root = .fragment name || !x.isSpreadOf name

@[simp] theorem fragments_fragmentsAlone (d : Document) :
    d.fragmentsAlone.fragments = d.fragments := by
  rw [fragments, fragments, fragmentsAlone, List.filterMap_filter]
  refine List.filterMap_congr fun x _ => ?_
  cases x <;> rfl

private theorem filter_fragments_eq (d : Document) (name : String) :
    d.fragments.filter (·.name = name) =
      fragments ⟨d.definitions.filter (·.root = .fragment name)⟩ := by
  rw [fragments, fragments, List.filter_filterMap, List.filterMap_filter]
  refine List.filterMap_congr fun x _ => ?_
  cases x with
  | operation o => rfl
  | fragment f => by_cases hname : f.name = name <;> simp [Definition.root, hname]

private theorem filter_withoutOthers {p : RedactionRoot → Bool}
    (hp : ∀ root, p root = true → root.isFragment = true) (d : Document) (index : Nat) :
    (d.withoutOthers index).definitions.filter (p ·.root) = d.definitions.filter (p ·.root) := by
  have hkept : ∀ x : Definition × Nat,
      (p x.1.root && (!x.1.isOperation || x.2 == index)) = p x.1.root := by
    rintro ⟨x, i⟩
    cases hx : p x.root with
    | false => rfl
    | true => simp [← x.isFragment_root, hp _ hx]
  calc (d.withoutOthers index).definitions.filter (p ·.root)
      = (d.definitions.zipIdx.filter (p ·.1.root)).map Prod.fst := by
        simp only [withoutOthers, List.filter_map, List.filter_filter, Function.comp_def, hkept]
    _ = (d.definitions.zipIdx.map Prod.fst).filter (p ·.root) := by rw [List.filter_map]; rfl
    _ = d.definitions.filter (p ·.root) := by rw [List.zipIdx_map_fst]

private theorem fragmentsAlone_withoutOthers (d : Document) (index : Nat) :
    (d.withoutOthers index).fragmentsAlone = d.fragmentsAlone :=
  congrArg Document.mk (filter_withoutOthers (fun _ => id) d index)

private theorem length_operations (d : Document) :
    d.operations.length = d.definitions.countP (·.isOperation) := by
  rw [operations, List.length_filterMap_eq_countP]
  refine List.countP_congr fun x _ => ?_
  cases x <;> simp [Definition.isOperation]

private theorem chosenIndex_sift (d : Document) (keep : Place → Selection → Bool)
    (name : Option String) :
    (d.sift keep).chosenIndex name = d.chosenIndex name := by
  cases name with
  | some n =>
    have hnamed : ∀ x : Definition, ∀ items, (x.withItems items).isOperationNamed n =
        x.isOperationNamed n := by
      intro x items
      cases x <;> rfl
    simp [chosenIndex, sift, List.findIdx?_map, Function.comp_def, hnamed]
  | none =>
    have hlength : (d.sift keep).operations.length = d.operations.length := by
      rw [length_operations, length_operations, sift, List.countP_map]
      simp [Function.comp_def]
    have hindex : (d.sift keep).definitions.findIdx (·.isOperation) =
        d.definitions.findIdx (·.isOperation) := by
      simp [sift, List.findIdx_map, Function.comp_def]
    rw [chosenIndex, chosenIndex, hindex]
    -- only the number of operations matters
    generalize (d.sift keep).operations = left at hlength
    generalize d.operations = operations at hlength
    rcases left with _ | ⟨o, _ | ⟨p, rest⟩⟩ <;> rcases operations with _ | ⟨o', _ | ⟨p', rest'⟩⟩ <;>
      simp_all

private theorem filter_withoutSpreads (d : Document) (name : String) :
    (d.withoutSpreads name).definitions.filter (·.root = .fragment name) =
      d.definitions.filter (·.root = .fragment name) := by
  have hself : ∀ x : Definition, x.root = .fragment name →
      siftSelections (fun outer y => outer.origin.root = .fragment name || !y.isSpreadOf name)
        (.root x) x.items = x.items := by
    intro x hx
    rw [siftSelections_eq_filterMap]
    refine filterMap_eq_self fun y _ => ?_
    refine siftSelection_eq_self (fun outer => outer.origin.root = .fragment name)
      (fun _ _ _ => id) (fun _ _ => id) (fun outer x houter => ?_) hx
    simp [houter]
  rw [withoutSpreads, sift, List.filter_map]
  refine (List.map_congr_left fun x hx => ?_).trans (List.map_id _ |>.trans ?_)
  · have hroot : x.root = .fragment name := by simpa using (List.mem_filter.mp hx).2
    rw [hself x hroot, Definition.withItems_items, id]
  · simp [Function.comp_def]

end Document

private theorem Prune.fragmentsAlone_pruneDocument (d : Document) :
    (pruneDocument d).fragmentsAlone = pruneDocument d.fragmentsAlone := by
  have hemptied : emptiedFragments d.fragmentsAlone = emptiedFragments d := by
    rw [emptiedFragments, emptiedFragments, Document.fragments_fragmentsAlone]
  rw [pruneDocument, pruneDocument, hemptied, Document.fragmentsAlone, Document.fragmentsAlone,
    Document.mk.injEq, List.filter_filterMap, List.filterMap_filter]
  refine List.filterMap_congr fun x _ => ?_
  cases hleft : pruneDefinition (emptiedFragments d) x with
  | none => simp
  | some y =>
    obtain ⟨-, rfl⟩ := pruneDefinition_eq_some.mp hleft
    cases hfragment : x.root.isFragment <;> simp [Option.filter, hfragment]

namespace Redaction

variable {a : Authority} {policy : EmptySelections} {d : Document}

private theorem root_redactDefinition (x : Definition) :
    (redactDefinition a policy x).root = x.root := by
  rw [redactDefinition_eq_withItems, Definition.root_withItems]

private theorem root_of_mem_denialsInDefinition {x : Definition} {denial : Denial}
    (h : denial ∈ denialsInDefinition a x) : denial.root = x.root := by
  rw [denialsInDefinition_eq_filterMap, List.mem_filterMap] at h
  obtain ⟨⟨outer, y⟩, hy, hdenial⟩ := h
  have horigin : outer.origin = x := Place.origin_of_mem hy
  subst horigin
  cases y with
  | field head items =>
    rw [Authority.denial?] at hdenial
    split at hdenial
    · obtain ⟨parent, -, rfl⟩ := Option.map_eq_some_iff.mp hdenial
      rfl
    · cases hdenial
  | spread head => cases hdenial
  | inline head items => cases hdenial

private theorem filter_denials (p : RedactionRoot → Bool) (a : Authority)
    (definitions : List Definition) :
    (definitions.flatMap (denialsInDefinition a)).filter (p ·.root) =
      (definitions.filter (p ·.root)).flatMap (denialsInDefinition a) := by
  induction definitions with
  | nil => rfl
  | cons x rest ih =>
    have hx : (denialsInDefinition a x).filter (p ·.root) =
        if p x.root then denialsInDefinition a x else [] := by
      split
      · rename_i hp
        rw [List.filter_eq_self]
        intro denial hdenial
        rw [root_of_mem_denialsInDefinition hdenial]
        exact hp
      · rename_i hp
        rw [List.filter_eq_nil_iff]
        intro denial hdenial
        rw [root_of_mem_denialsInDefinition hdenial]
        exact hp
    rw [List.flatMap_cons, List.filter_append, ih, hx, List.filter_cons]
    split <;> simp_all

private theorem fragmentsAlone_redactDocument (a : Authority) (policy : EmptySelections)
    (d : Document) :
    (redactDocument a policy d).fragmentsAlone = redactDocument a policy d.fragmentsAlone := by
  have hredacted : (Document.mk (d.definitions.map (redactDefinition a policy))).fragmentsAlone =
      ⟨d.fragmentsAlone.definitions.map (redactDefinition a policy)⟩ := by
    simp only [Document.fragmentsAlone, List.filter_map, Function.comp_def, root_redactDefinition]
  cases policy with
  | keep => exact hredacted
  | prune =>
    rw [redactDocument, redactDocument, Prune.fragmentsAlone_pruneDocument, hredacted]

private theorem filter_denials_withoutOthers {p : RedactionRoot → Bool}
    (hp : ∀ root, p root = true → root.isFragment = true) (d : Document) (index : Nat) :
    ((d.withoutOthers index).definitions.flatMap (denialsInDefinition a)).filter (p ·.root) =
      (d.definitions.filter (p ·.root)).flatMap (denialsInDefinition a) := by
  rw [filter_denials, Document.filter_withoutOthers hp]

private theorem filter_redactDocument_keep {p : RedactionRoot → Bool}
    (hp : ∀ root, p root = true → root.isFragment = true) (d : Document) (index : Nat) :
    (redactDocument a .keep (d.withoutOthers index)).definitions.filter (p ·.root) =
      (d.definitions.filter (p ·.root)).map (redactDefinition a .keep) := by
  rw [redactDocument, List.filter_map, ← Document.filter_withoutOthers hp d index]
  simp only [Function.comp_def, root_redactDefinition]

/-- Whichever operation is chosen, redaction leaves the same of the fragments and reports the same
of them. What it reports of one fragment, and what it leaves of it if nothing is pruned, stays the
same when spreads of the fragment are added, taken out or moved elsewhere in the query. -/
theorem redact_fragments_apart {name other : Option String} {index place : Nat}
    (hname : d.chosenIndex name = .ok index) (hother : d.chosenIndex other = .ok place) :
    ∃ r s, redact a policy d name = .ok r ∧ redact a policy d other = .ok s ∧
      s.document.fragments = r.document.fragments ∧
      s.denials.filter (·.root.isFragment) = r.denials.filter (·.root.isFragment) ∧
      ∀ (fragment : String) (e : Document),
        e.withoutSpreads fragment = d.withoutSpreads fragment →
        ∃ t, redact a policy e other = .ok t ∧
          t.denials.filter (·.root = .fragment fragment) =
            r.denials.filter (·.root = .fragment fragment) ∧
          (policy = .keep → t.document.fragments.filter (·.name = fragment) =
            r.document.fragments.filter (·.name = fragment)) := by
  refine ⟨_, _, redact_of_chosenIndex hname, redact_of_chosenIndex hother, ?fragments, ?denials, ?_⟩
  case fragments =>
    rw [← Document.fragments_fragmentsAlone, fragmentsAlone_redactDocument,
      Document.fragmentsAlone_withoutOthers, ← Document.fragmentsAlone_withoutOthers d index,
      ← fragmentsAlone_redactDocument, Document.fragments_fragmentsAlone]
  case denials =>
    have hkind : ∀ root : RedactionRoot, root.isFragment = true → root.isFragment = true :=
      fun _ => id
    rw [filter_denials_withoutOthers hkind, filter_denials_withoutOthers hkind]
  intro fragment e hspreads
  have hchosen : e.chosenIndex other = .ok place := by
    rw [← hother, ← Document.chosenIndex_sift e, ← Document.chosenIndex_sift d]
    exact congrArg (·.chosenIndex other) hspreads
  have hsame : e.definitions.filter (·.root = .fragment fragment) =
      d.definitions.filter (·.root = .fragment fragment) := by
    rw [← Document.filter_withoutSpreads, hspreads, Document.filter_withoutSpreads]
  have hkind : ∀ root : RedactionRoot, decide (root = .fragment fragment) = true →
      root.isFragment = true := by
    intro root hroot
    rw [of_decide_eq_true hroot]
    rfl
  refine ⟨_, redact_of_chosenIndex hchosen, ?_, ?_⟩
  · rw [filter_denials_withoutOthers hkind, filter_denials_withoutOthers hkind, hsame]
  · rintro rfl
    rw [Document.filter_fragments_eq, Document.filter_fragments_eq,
      filter_redactDocument_keep hkind, filter_redactDocument_keep hkind, hsame]

section Witness

private def cardReader : Authority :=
  ⟨peopleSchema, ⟨["staff"], ⟨.ofList [⟨"Query", "me"⟩, ⟨"Person", "id"⟩] compare, ∅⟩⟩, none⟩

private def cardSpread : Selection :=
  .spread ⟨⟨1, 1⟩, "Card", []⟩

private def cardQuery (name : String) (items : List Selection) : Definition :=
  .operation ⟨some ⟨⟨1, 1⟩, .query, some name, [], []⟩, ⟨1, 1⟩, ⟨1, 1⟩,
    [.field (plainField "me") items]⟩

private def cardFragment (items : List Selection) : Definition :=
  .fragment ⟨⟨1, 1⟩, ⟨1, 1⟩, ⟨1, 1⟩, "Card", "Person", [], items⟩

private def cardDocument : Document :=
  ⟨[cardQuery "First" [cardSpread], cardFragment [.field (plainField "id") [],
      .field (plainField "mail") []],
    cardQuery "Second" [.field (plainField "mail") []]]⟩

private def movedDocument : Document :=
  ⟨[cardQuery "First" [], cardFragment [.field (plainField "id") [],
      .field (plainField "mail") []],
    cardQuery "Second" [cardSpread, .field (plainField "mail") [], cardSpread]]⟩

/-- The mail is reported of the fragment whichever operation is chosen and spreads it. -/
theorem redact_fragments_apart_of_card :
    cardDocument.chosenIndex (some "First") = .ok 0 ∧
    cardDocument.chosenIndex (some "Second") = .ok 2 ∧
    movedDocument.withoutSpreads "Card" = cardDocument.withoutSpreads "Card" ∧
    ∃ r s t, redact cardReader .keep cardDocument (some "First") = .ok r ∧
      redact cardReader .keep cardDocument (some "Second") = .ok s ∧
      redact cardReader .keep movedDocument (some "Second") = .ok t ∧
      r.denials = [⟨.fragment "Card", ["mail"], "Person", "mail", ⟨1, 1⟩, .notPermitted⟩] ∧
      s.document.fragments = r.document.fragments ∧
      t.denials.filter (·.root = .fragment "Card") = r.denials ∧
      t.document.fragments.filter (·.name = "Card") =
        r.document.fragments.filter (·.name = "Card") := by
  have hfirst : cardDocument.chosenIndex (some "First") = .ok 0 := by rfl
  have hsecond : cardDocument.chosenIndex (some "Second") = .ok 2 := by rfl
  have hmoved : movedDocument.withoutSpreads "Card" = cardDocument.withoutSpreads "Card" := by rfl
  obtain ⟨left, hleft⟩ : ∃ left, redact cardReader .keep cardDocument (some "First") = .ok ⟨left,
      [⟨.fragment "Card", ["mail"], "Person", "mail", ⟨1, 1⟩, .notPermitted⟩]⟩ := ⟨_, rfl⟩
  obtain ⟨r, s, hr, hs, hfragments, -, hspreads⟩ :=
    @redact_fragments_apart cardReader .keep _ _ _ _ _ hfirst hsecond
  obtain ⟨t, ht, hdenials, hkept⟩ := hspreads "Card" movedDocument hmoved
  obtain rfl := Except.ok.inj (hleft.symm.trans hr)
  exact ⟨hfirst, hsecond, hmoved, _, s, t, hleft, hs, ht, rfl, hfragments, hdenials, hkept rfl⟩

end Witness

end Redaction

end FieldAuthorization
