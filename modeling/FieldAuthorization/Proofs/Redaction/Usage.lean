import FieldAuthorization.Proofs.Document.Usage
import FieldAuthorization.Proofs.Redaction.Entries
import FieldAuthorization.Proofs.Redaction.Monotone

/-!
What redaction leaves of the uses of fragments and variables.

Redaction takes out what is denied or emptied, and does not look at what is no longer used then. A
fragment that is left, or a variable, is still used just if the query uses it where redaction spares
it. What is spared is seen at the ends, which are spreads and fields without selections below them,
since pruning leaves nothing that does not lead to one.
-/

set_option autoImplicit false
set_option relaxedAutoImplicit false

namespace FieldAuthorization

open Introspection

/-- Something that pruning never takes out by itself: a field without selections below it, or a
spread of a fragment that is not emptied. -/
inductive Selection.IsEnd (emptied : Prune.Emptied) : Selection → Prop
  | leaf (head : Field) : IsEnd emptied (.field head [])
  | spread {head : Spread} : emptied.contains head.name = false → IsEnd emptied (.spread head)

/-- Redaction of selections on a type leaves the spread, or the field without selections below it,
inside the enclosures of the trail: each field around it and it itself is authorized, or it is in
introspection, where names are added. -/
inductive Authority.Spares (a : Authority) :
    String → List Selection → List Enclosure → Selection → Prop
  | spread {parent : String} {items : List Selection} {head : Spread} :
      .spread head ∈ items → Spares a parent items [] (.spread head)
  | leaf {parent type : String} {items : List Selection} {head : Field} :
      .field head [] ∈ items → isMeta head.name = false → a.judge parent head [] = .ok type →
      Spares a parent items [] (.field head [])
  | introspection {parent : String} {items inner : List Selection} {head : Field}
      {trail : List Enclosure} {x : Selection} :
      .field head inner ∈ items → isMeta head.name = true →
      Occurs [.field head (withEntryNames head inner)] trail x → Spares a parent items trail x
  | field {parent type : String} {items inner : List Selection} {head : Field}
      {trail : List Enclosure} {x : Selection} :
      .field head inner ∈ items → isMeta head.name = false →
      a.judge parent head inner = .ok type → Spares a type inner trail x →
      Spares a parent items (.field head :: trail) x
  | inline {parent : String} {items inner : List Selection} {head : InlineFragment}
      {trail : List Enclosure} {x : Selection} :
      .inline head inner ∈ items → Spares a (head.condition.getD parent) inner trail x →
      Spares a parent items (.inline head :: trail) x

/-- The ends that redaction leaves of definitions, where the given fragments are emptied. -/
def Authority.spared (a : Authority) (emptied : Prune.Emptied) : Part :=
  fun x trail y => y.IsEnd emptied ∧
    if x.onIntrospection then Occurs (withNestedNamesAll (x.rootType a.schema) x.items) trail y
    else a.Spares (x.rootType a.schema) x.items trail y

namespace Prune

variable {emptied : Emptied} {items : List Selection} {trail : List Enclosure} {x y : Selection}

private theorem pruneSelection_of_isEnd (h : x.IsEnd emptied) :
    pruneSelection emptied x = some x := by
  cases h with
  | leaf head => exact pruneSelection_leaf head
  | spread hstays => simp [pruneSelection, hstays]

private theorem eq_of_pruneSelection_isEnd (h : pruneSelection emptied x = some y)
    (hend : y.IsEnd emptied) : y = x := by
  cases x with
  | field head items =>
    obtain rfl := eq_of_pruneSelection_field h
    by_cases hleft : pruneSelections emptied items = []
    · rw [hleft, items_eq_nil_of_pruneSelection h hleft]
    · generalize pruneSelections emptied items = left at hend hleft
      cases hend
      exact absurd rfl hleft
  | spread head => exact eq_of_pruneSelection_spread h
  | inline head items =>
    obtain rfl := eq_of_pruneSelection_inline h
    cases hend

private theorem occurs_pruneSelections_of_isEnd (hend : y.IsEnd emptied) :
    Occurs (pruneSelections emptied items) trail y ↔ Occurs items trail y := by
  constructor
  · intro h
    obtain ⟨x, hx, hxy⟩ := occurs_of_pruned h
    exact eq_of_pruneSelection_isEnd hxy hend ▸ hx
  · intro h
    exact occurs_pruneSelections h (pruneSelection_of_isEnd hend)

private theorem exists_end_of_pruneSelection (h : pruneSelection emptied x = some y) :
    ∃ trail z, Occurs [y] trail z ∧ z.IsEnd emptied := by
  have hinner {items : List Selection} (hleft : pruneSelections emptied items ≠ [])
      (ih : ∀ w ∈ items, ∀ {y}, pruneSelection emptied w = some y →
        ∃ trail z, Occurs [y] trail z ∧ z.IsEnd emptied) :
      ∃ trail z, Occurs (pruneSelections emptied items) trail z ∧ z.IsEnd emptied := by
    obtain ⟨y, hy⟩ := List.exists_mem_of_ne_nil _ hleft
    obtain ⟨w, hw, hwy⟩ := mem_pruneSelections.mp hy
    obtain ⟨trail, z, hz, hend⟩ := ih w hw hwy
    exact ⟨trail, z, hz.of_mem hy, hend⟩
  induction x generalizing y with
  | field head items ih =>
    obtain rfl := eq_of_pruneSelection_field h
    by_cases hleft : pruneSelections emptied items = []
    · rw [hleft]
      exact ⟨[], _, .here (List.mem_singleton.mpr rfl), .leaf head⟩
    · obtain ⟨trail, z, hz, hend⟩ := hinner hleft ih
      exact ⟨_, z, .field (List.mem_singleton.mpr rfl) hz, hend⟩
  | spread head =>
    obtain rfl := eq_of_pruneSelection_spread h
    obtain ⟨-, hstays⟩ := of_pruneSelection_spread h
    exact ⟨[], _, .here (List.mem_singleton.mpr rfl), .spread hstays⟩
  | inline head items ih =>
    obtain rfl := eq_of_pruneSelection_inline h
    obtain ⟨trail, z, hz, hend⟩ := hinner (pruneSelections_ne_nil_of_inline h) ih
    exact ⟨_, z, .inline (List.mem_singleton.mpr rfl) hz, hend⟩

end Prune

namespace Redaction

variable {a : Authority} {emptied : Prune.Emptied} {parent : String} {items : List Selection}
  {trail : List Enclosure} {y : Selection}

private theorem spares_of_mem_redactSelection {x : Selection} (hx : x ∈ items)
    (h : redactSelection a .prune parent x = some y) (hend : y.IsEnd emptied) :
    a.Spares parent items [] y := by
  cases hend with
  | leaf head =>
    obtain ⟨inner, rfl, ⟨hmeta, hleft⟩ | ⟨hmeta, type, hjudge, hleft⟩⟩ := of_redactSelection_field h
    · refine .introspection hx hmeta ?_
      rw [← hleft]
      exact .here (List.mem_singleton.mpr rfl)
    · obtain rfl := ((redactSelection_field_eq_some hmeta hjudge).mp h).1 rfl hleft.symm
      exact .leaf hx hmeta hjudge
  | spread _ =>
    obtain rfl := of_redactSelection_spread h
    exact .spread hx

private theorem occurs_redactSelections_of_isEnd (hend : y.IsEnd emptied) :
    Occurs (redactSelections a .prune parent items) trail y ↔ a.Spares parent items trail y := by
  constructor
  · intro h
    induction trail generalizing parent items with
    | nil =>
      obtain ⟨x, hx, hxy⟩ := mem_redactSelections.mp (occurs_nil_iff.mp h)
      exact spares_of_mem_redactSelection hx hxy hend
    | cons e trail ih =>
      cases e with
      | field head =>
        obtain ⟨left, hm, hoccurs⟩ := occurs_field_iff.mp h
        obtain ⟨x, hx, hxy⟩ := mem_redactSelections.mp hm
        obtain ⟨inner, rfl, ⟨hmeta, rfl⟩ | ⟨hmeta, type, hjudge, rfl⟩⟩ :=
          of_redactSelection_field hxy
        · exact .introspection hx hmeta (.field (List.mem_singleton.mpr rfl) hoccurs)
        · exact .field hx hmeta hjudge (ih hoccurs)
      | inline head =>
        obtain ⟨left, hm, hoccurs⟩ := occurs_inline_iff.mp h
        obtain ⟨x, hx, hxy⟩ := mem_redactSelections.mp hm
        obtain ⟨inner, rfl, rfl⟩ := of_redactSelection_inline hxy
        exact .inline hx (ih hoccurs)
  · intro h
    induction h with
    | spread hx => exact .here (mem_redactSelections.mpr ⟨_, hx, rfl⟩)
    | leaf hx hmeta hjudge =>
      refine .here (mem_redactSelections.mpr ⟨_, hx, ?_⟩)
      rw [redactSelection_field_eq_some hmeta hjudge]
      exact ⟨fun _ _ => rfl, rfl⟩
    | introspection hx hmeta hoccurs =>
      exact hoccurs.of_mem (mem_redactSelections.mpr ⟨_, hx, redactSelection_of_isMeta hmeta⟩)
    | field hx hmeta hjudge _ ih =>
      have hoccurs := ih hend
      have hleft := redactSelection_of_judge hmeta hjudge hoccurs.ne_nil
      exact .field (mem_redactSelections.mpr ⟨_, hx, hleft⟩) hoccurs
    | inline hx _ ih =>
      have hoccurs := ih hend
      have hleft := redactSelection_inline hoccurs.ne_nil
      exact .inline (mem_redactSelections.mpr ⟨_, hx, hleft⟩) hoccurs

private theorem occurs_remaining_iff_spared {x : Definition} (hend : y.IsEnd emptied) :
    Occurs (remaining .prune emptied (redactDefinition a .prune x).items) trail y ↔
      a.spared emptied x trail y := by
  rw [remaining, Prune.occurs_pruneSelections_of_isEnd hend, Authority.spared, and_iff_right hend]
  cases hx : x.onIntrospection with
  | false =>
    rw [redactDefinition_of_not_onIntrospection hx, Definition.items_withItems,
      occurs_redactSelections_of_isEnd hend, if_neg Bool.false_ne_true]
  | true =>
    cases x with
    | operation o => cases hx
    | fragment f =>
      have hf : isMeta f.condition = true := hx
      rw [redactDefinition, if_pos hf, if_pos rfl]
      rfl

/-- What redaction leaves of a definition mentions a variable just if the definition does where it
is spared. -/
private theorem mentions_remaining_iff {x : Definition} {name : String} :
    (x.withItems (remaining .prune emptied (redactDefinition a .prune x).items)).Mentions
        Definition.whole name ↔ x.Mentions (a.spared emptied) name := by
  rw [Definition.mentions_whole_iff, Definition.directives_withItems, Definition.items_withItems]
  refine or_congr_right ⟨?_, ?_⟩
  · rintro ⟨trail, y, hoccurs, hmention⟩
    obtain ⟨w, -, hw⟩ := Prune.occurs_of_pruned hoccurs
    obtain ⟨below, z, hz, hend⟩ := Prune.exists_end_of_pruneSelection hw
    refine ⟨trail ++ below, z, (occurs_remaining_iff_spared hend).mp (hoccurs.append hz), ?_⟩
    obtain ⟨-, rfl⟩ | ⟨e, rest, rfl, he⟩ := hz.eq_or_enclosure
    · exact .inl hmention
    · refine .inr ⟨e, List.mem_append_right trail List.mem_cons_self, ?_⟩
      exact (Selection.mentions_of_enclosure? he).mp hmention
  · rintro ⟨trail, y, hspared, hmention | ⟨e, he, hmention⟩⟩
    · exact ⟨trail, y, (occurs_remaining_iff_spared hspared.1).mpr hspared, hmention⟩
    · have hoccurs := (occurs_remaining_iff_spared hspared.1).mpr hspared
      obtain ⟨before, z, hz, hze⟩ := hoccurs.exists_enclosing he
      exact ⟨before, z, hz, (Selection.mentions_of_enclosure? hze).mpr hmention⟩

variable {d : Document}

private theorem not_emptied_of_reaches {name : String}
    (h : (redactDocument a .prune d).Reaches Definition.whole name) :
    (emptiedBy a .prune d).contains name = false := by
  cases h with
  | spread hx _ hoccurs =>
    obtain ⟨x, -, -, rfl⟩ := mem_redactDocument.mp hx
    rw [Definition.whole, Definition.items_withItems] at hoccurs
    exact Prune.not_emptied_of_occurs_pruned hoccurs

private theorem reaches_redactDocument_iff {name : String} :
    (redactDocument a .prune d).Reaches Definition.whole name ↔
      d.Reaches (a.spared (emptiedBy a .prune d)) name := by
  constructor
  · intro h
    induction h with
    | @spread y trail head hy _ hoccurs ih =>
      obtain ⟨x, hx, -, rfl⟩ := mem_redactDocument.mp hy
      rw [Definition.whole, Definition.items_withItems] at hoccurs
      have hend := Selection.IsEnd.spread (Prune.not_emptied_of_occurs_pruned hoccurs)
      exact .spread hx (Definition.forall_fragment_withItems.mp ih)
        ((occurs_remaining_iff_spared hend).mp hoccurs)
  · intro h
    induction h with
    | @spread x trail head hx _ hspared ih =>
      have hremains : Remains .prune (emptiedBy a .prune d) x := fun _ f hf =>
        not_emptied_of_reaches (ih f hf)
      have hoccurs : Definition.whole (x.withItems (remaining .prune (emptiedBy a .prune d)
          (redactDefinition a .prune x).items)) trail (.spread head) := by
        rw [Definition.whole, Definition.items_withItems]
        exact (occurs_remaining_iff_spared hspared.1).mpr hspared
      exact .spread (mem_redactDocument.mpr ⟨x, hx, hremains, rfl⟩)
        (Definition.forall_fragment_withItems.mpr ih) hoccurs

private theorem uses_redactDocument_iff {name : String} :
    (redactDocument a .prune d).Uses Definition.whole name ↔
      d.Uses (a.spared (emptiedBy a .prune d)) name := by
  constructor
  · rintro ⟨y, hy, hreached, hmentions⟩
    obtain ⟨x, hx, -, rfl⟩ := mem_redactDocument.mp hy
    have hbefore := Definition.forall_fragment_withItems.mp hreached
    exact ⟨x, hx, fun f hf => reaches_redactDocument_iff.mp (hbefore f hf),
      mentions_remaining_iff.mp hmentions⟩
  · rintro ⟨x, hx, hreached, hmentions⟩
    have hafter : ∀ f, x = .fragment f →
        (redactDocument a .prune d).Reaches Definition.whole f.name := fun f hf =>
      reaches_redactDocument_iff.mpr (hreached f hf)
    have hremains : Remains .prune (emptiedBy a .prune d) x := fun _ f hf =>
      not_emptied_of_reaches (hafter f hf)
    exact ⟨_, mem_redactDocument.mpr ⟨x, hx, hremains, rfl⟩,
      Definition.forall_fragment_withItems.mpr hafter, mentions_remaining_iff.mpr hmentions⟩

private theorem fragmentsUsed_redactDocument_iff :
    (redactDocument a .prune d).FragmentsUsed ↔
      ∀ f ∈ d.fragments, (emptiedBy a .prune d).contains f.name = false →
        d.Reaches (a.spared (emptiedBy a .prune d)) f.name := by
  constructor
  · intro hused f hf hstays
    have hleft := mem_redactDocument.mpr
      ⟨_, Document.mem_fragments.mp hf, remains_fragment hstays, rfl⟩
    have hreached := hused _ (Document.mem_fragments.mpr hleft)
    exact reaches_redactDocument_iff.mp hreached
  · intro hreached g hg
    obtain ⟨x, hx, hremains, hgx⟩ := mem_redactDocument.mp (Document.mem_fragments.mp hg)
    cases x with
    | operation o => cases hgx
    | fragment f =>
      obtain rfl := Definition.fragment.inj hgx
      have hf := hreached f (Document.mem_fragments.mpr hx) (hremains rfl f rfl)
      exact reaches_redactDocument_iff.mpr hf

private theorem variablesUsed_redactDocument_iff :
    (redactDocument a .prune d).VariablesUsed ↔
      ∀ o ∈ d.operations, ∀ v ∈ o.variables,
        d.Uses (a.spared (emptiedBy a .prune d)) v.name := by
  constructor
  · intro hused o ho v hv
    have hremains : Remains .prune (emptiedBy a .prune d) (.operation o) := nofun
    have hleft := mem_redactDocument.mpr ⟨_, Document.mem_operations.mp ho, hremains, rfl⟩
    exact uses_redactDocument_iff.mp (hused _ (Document.mem_operations.mpr hleft) v hv)
  · intro hused o ho v hv
    obtain ⟨x, hx, -, hox⟩ := mem_redactDocument.mp (Document.mem_operations.mp ho)
    cases x with
    | fragment f => cases hox
    | operation o' =>
      obtain rfl := Definition.operation.inj hox
      exact uses_redactDocument_iff.mpr (hused o' (Document.mem_operations.mpr hx) v hv)

/-- In what redaction returns under pruning every fragment is used just if the chosen operation
reaches each fragment that is not emptied by spreads that are spared, and every variable is used
just if the operation, or a fragment so reached, mentions it in front of its braces, at an end that
is spared or around one. -/
theorem redact_used_iff {name : Option String} {r : Redaction}
    (h : redact a .prune d name = .ok r) :
    ∃ chosen, d.restrict name = .ok chosen ∧
      (r.document.FragmentsUsed ↔
        ∀ f ∈ chosen.fragments, (emptiedBy a .prune chosen).contains f.name = false →
          chosen.Reaches (a.spared (emptiedBy a .prune chosen)) f.name) ∧
      (r.document.VariablesUsed ↔
        ∀ o ∈ chosen.operations, ∀ v ∈ o.variables,
          chosen.Uses (a.spared (emptiedBy a .prune chosen)) v.name) := by
  obtain ⟨chosen, hchosen, hdocument, -⟩ := redact_eq_ok h
  rw [hdocument]
  exact ⟨chosen, hchosen, fragmentsUsed_redactDocument_iff, variablesUsed_redactDocument_iff⟩

section Witness

private def usageText : String :=
  "query($n:Int){me{id}find(n:$n){...F}}fragment F on Person{id}"

private def usageSchema : Schema :=
  ⟨.ofList [("Query", ⟨"Query", .object,
        [⟨"me", "Person", []⟩, ⟨"find", "Person", [⟨"n", "Int"⟩]⟩], [], [], []⟩),
      ("Person", ⟨"Person", .object, [⟨"id", "ID", []⟩], [], [], []⟩)] compare,
    "Query", none, none⟩

private def usageReader (rules : List FieldRule) : Authority :=
  ⟨usageSchema, ⟨["staff"], ⟨.ofList rules compare, ∅⟩⟩, none⟩

private def idAt (place : Position) : Selection :=
  .field ⟨place, place, place, none, "id", [], []⟩ []

private def meField : Selection :=
  .field ⟨⟨1, 15⟩, ⟨1, 17⟩, ⟨1, 20⟩, none, "me", [], []⟩ [idAt ⟨1, 18⟩]

private def findHead : Field :=
  ⟨⟨1, 21⟩, ⟨1, 31⟩, ⟨1, 36⟩, none, "find", [("n", .var "n")], []⟩

private def findField : Selection :=
  .field findHead [.spread ⟨⟨1, 35⟩, "F", []⟩]

private def usageQuery (items : List Selection) : Definition :=
  .operation ⟨some ⟨⟨1, 1⟩, .query, none, [⟨⟨1, 7⟩, "n", .named "Int", none⟩], []⟩,
    ⟨1, 14⟩, ⟨1, 37⟩, items⟩

private def usageFragment : Definition :=
  .fragment ⟨⟨1, 38⟩, ⟨1, 58⟩, ⟨1, 61⟩, "F", "Person", [], [idAt ⟨1, 59⟩]⟩

private def usageDocument : Document :=
  ⟨[usageQuery [meField, findField], usageFragment]⟩

private theorem reaches_usageDocument {part : Part}
    (h : part (usageQuery [meField, findField]) [.field findHead] (.spread ⟨⟨1, 35⟩, "F", []⟩)) :
    usageDocument.Reaches part "F" :=
  .spread List.mem_cons_self (fun _ hf => Definition.noConfusion hf) h

private theorem uses_usageDocument {part : Part}
    (h : part (usageQuery [meField, findField]) [.field findHead] (.spread ⟨⟨1, 35⟩, "F", []⟩)) :
    usageDocument.Uses part "n" := by
  have hmentions : (Enclosure.field findHead).Mentions "n" :=
    .inl ⟨"n", .var "n", List.mem_singleton.mpr rfl, .var⟩
  exact ⟨_, List.mem_cons_self, fun _ hf => Definition.noConfusion hf,
    .inr ⟨_, _, h, .inr ⟨_, List.mem_singleton.mpr rfl, hmentions⟩⟩⟩

private theorem parse_usageText : Document.parse usageText = .ok usageDocument := by
  cbv

/-- The caller may not select oneself, which takes no use with it. -/
theorem redact_used_iff_of_finding :
    Document.parse usageText = .ok usageDocument ∧
    ∃ left denials,
      redact (usageReader [⟨"Query", "find"⟩, ⟨"Person", "id"⟩]) .prune usageDocument none =
        .ok ⟨left, denials⟩ ∧ denials.map Denial.path = [["me"]] ∧
      left.FragmentsUsed ∧ left.VariablesUsed := by
  have h : ∃ left denials,
      redact (usageReader [⟨"Query", "find"⟩, ⟨"Person", "id"⟩]) .prune usageDocument none =
        .ok ⟨left, denials⟩ ∧ denials.map Denial.path = [["me"]] := ⟨_, _, rfl, rfl⟩
  obtain ⟨left, denials, hredact, hdenials⟩ := h
  obtain ⟨chosen, hchosen, hfragments, hvariables⟩ := redact_used_iff hredact
  have hself : usageDocument.restrict none = .ok usageDocument := by rfl
  obtain rfl := Except.ok.inj (hself.symm.trans hchosen)
  have hspared : (usageReader [⟨"Query", "find"⟩, ⟨"Person", "id"⟩]).spared
      (emptiedBy (usageReader [⟨"Query", "find"⟩, ⟨"Person", "id"⟩]) .prune usageDocument)
      (usageQuery [meField, findField]) [.field findHead] (.spread ⟨⟨1, 35⟩, "F", []⟩) := by
    refine ⟨.spread (by rfl), ?_⟩
    exact .field (List.mem_cons_of_mem _ List.mem_cons_self) (by decide) rfl
      (.spread List.mem_cons_self)
  refine ⟨parse_usageText, left, denials, hredact, hdenials, hfragments.mpr ?_, hvariables.mpr ?_⟩
  · intro f hf _
    obtain rfl := List.mem_singleton.mp hf
    exact reaches_usageDocument hspared
  · intro o ho v hv
    obtain rfl := List.mem_singleton.mp ho
    obtain rfl := List.mem_singleton.mp hv
    exact uses_usageDocument hspared

private def unusingDocument : Document :=
  ⟨[usageQuery [meField], usageFragment]⟩

private theorem mem_of_whole {x : Definition} (hx : x ∈ unusingDocument.definitions)
    {trail : List Enclosure} {y : Selection} (h : Definition.whole x trail y) :
    y ∈ [meField, idAt ⟨1, 18⟩, idAt ⟨1, 59⟩] := by
  have hleaf {place : Position} {trail : List Enclosure} (h : Occurs [idAt place] trail y) :
      y = idAt place := by
    rcases h with hm | ⟨hm, hinner⟩ | ⟨hm, -⟩
    · exact List.mem_singleton.mp hm
    · obtain ⟨-, rfl⟩ := Selection.field.inj (List.mem_singleton.mp hm)
      exact absurd hinner not_occurs_nil
    · exact Selection.noConfusion (List.mem_singleton.mp hm)
  simp only [unusingDocument, List.mem_cons, List.not_mem_nil, or_false] at hx
  rcases hx with rfl | rfl
  · rcases h with hm | ⟨hm, hinner⟩ | ⟨hm, -⟩
    · simp [List.mem_singleton.mp hm]
    · obtain ⟨-, rfl⟩ := Selection.field.inj (List.mem_singleton.mp hm)
      simp [hleaf hinner]
    · exact Selection.noConfusion (List.mem_singleton.mp hm)
  · simp [hleaf h]

/-- The caller may only select oneself, and the fragment and the variable stay without a use. -/
theorem redact_leaves_unused :
    Document.parse usageText = .ok usageDocument ∧
    usageDocument.FragmentsUsed ∧ usageDocument.VariablesUsed ∧
    ∃ left denials,
      redact (usageReader [⟨"Query", "me"⟩, ⟨"Person", "id"⟩]) .prune usageDocument none =
        .ok ⟨left, denials⟩ ∧ ¬ left.FragmentsUsed ∧ ¬ left.VariablesUsed := by
  have hwhole : Definition.whole (usageQuery [meField, findField]) [.field findHead]
      (.spread ⟨⟨1, 35⟩, "F", []⟩) :=
    .field (List.mem_cons_of_mem _ List.mem_cons_self) (.here List.mem_cons_self)
  have hfragments : usageDocument.FragmentsUsed := by
    intro f hf
    obtain rfl := List.mem_singleton.mp hf
    exact reaches_usageDocument hwhole
  have hvariables : usageDocument.VariablesUsed := by
    intro o ho v hv
    obtain rfl := List.mem_singleton.mp ho
    obtain rfl := List.mem_singleton.mp hv
    exact uses_usageDocument hwhole
  have hredact : ∃ denials,
      redact (usageReader [⟨"Query", "me"⟩, ⟨"Person", "id"⟩]) .prune usageDocument none =
        .ok ⟨unusingDocument, denials⟩ := ⟨_, rfl⟩
  obtain ⟨denials, hredact⟩ := hredact
  refine ⟨parse_usageText, hfragments, hvariables, unusingDocument, denials, hredact, ?_, ?_⟩
  · intro hused
    have hreached := hused _ (List.mem_singleton.mpr rfl)
    generalize Fragment.name _ = name at hreached
    cases hreached with
    | spread hx _ hwhole => simpa [meField, idAt] using mem_of_whole hx hwhole
  · intro hused
    obtain ⟨x, hx, -, hmentions⟩ :=
      hused _ (List.mem_singleton.mpr rfl) _ (List.mem_singleton.mpr rfl)
    rcases Definition.mentions_whole_iff.mp hmentions with hfront | ⟨trail, y, hy, hmention⟩
    · simp only [unusingDocument, List.mem_cons, List.not_mem_nil, or_false] at hx
      rcases hx with rfl | rfl <;>
        simp [DirectivesMention, Definition.directives, usageQuery, usageFragment] at hfront
    · have hm := mem_of_whole hx hy
      simp only [List.mem_cons, List.not_mem_nil, or_false] at hm
      rcases hm with rfl | rfl | rfl <;>
        simp [meField, idAt, Selection.Mentions, Enclosure.Mentions, ArgumentsMention,
          DirectivesMention] at hmention

end Witness

end Redaction

end FieldAuthorization
