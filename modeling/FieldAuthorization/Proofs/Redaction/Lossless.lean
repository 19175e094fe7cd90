import Mathlib.Data.List.Forall2
import FieldAuthorization.Proofs.Document.Leaves
import FieldAuthorization.Proofs.Document.Place
import FieldAuthorization.Proofs.Redaction.Emptied

/-!
Pruning keeps just what leads to leaves.

A fragment is found emptied just if no leaf is reached from it, so what pruning takes away reaches
none and what it leaves reaches one. Inlining the spreads of a pruned document therefore gives the
leaves that it gave before.
-/

set_option autoImplicit false
set_option relaxedAutoImplicit false

namespace FieldAuthorization

open Classical in
/-- The operations of a document and the fragments that lead to a leaf, without the selections that
lead to none. -/
noncomputable def Document.live (d : Document) : Document :=
  (Document.mk (d.definitions.filter fun x =>
    decide (x.isOperation = true ∨ ∃ y ∈ x.items, d.HasLeaf y))).sift fun _ y =>
      decide (d.HasLeaf y)

namespace Prune

variable {d : Document} {emptied more : Emptied} {items : List Selection}

theorem pruneSelections_eq_nil_iff :
    pruneSelections emptied items = [] ↔ ∀ x ∈ items, pruneSelection emptied x = none := by
  rw [pruneSelections_eq_filterMap, List.filterMap_eq_nil_iff]

theorem pruneSelection_field_eq_none_iff {head : Field} :
    pruneSelection emptied (.field head items) = none ↔
      items ≠ [] ∧ ∀ x ∈ items, pruneSelection emptied x = none := by
  rw [← pruneSelections_eq_nil_iff]
  cases items with
  | nil => simp [pruneSelection_leaf]
  | cons x rest => simp [pruneSelection]

theorem pruneSelection_spread_eq_none_iff {head : Spread} :
    pruneSelection emptied (.spread head) = none ↔ head.name ∈ emptied := by
  simp [pruneSelection]

theorem pruneSelection_inline_eq_none_iff {head : InlineFragment} :
    pruneSelection emptied (.inline head items) = none ↔
      ∀ x ∈ items, pruneSelection emptied x = none := by
  rw [← pruneSelections_eq_nil_iff]
  simp [pruneSelection]

private theorem pruneSelection_eq_none_mono (h : ∀ name ∈ emptied, name ∈ more) {x : Selection}
    (hx : pruneSelection emptied x = none) : pruneSelection more x = none := by
  induction x with
  | field head items ih =>
    obtain ⟨hne, hitems⟩ := pruneSelection_field_eq_none_iff.mp hx
    exact pruneSelection_field_eq_none_iff.mpr ⟨hne, fun y hy => ih y hy (hitems y hy)⟩
  | spread head =>
    exact pruneSelection_spread_eq_none_iff.mpr (h _ (pruneSelection_spread_eq_none_iff.mp hx))
  | inline head items ih =>
    have hitems := pruneSelection_inline_eq_none_iff.mp hx
    exact pruneSelection_inline_eq_none_iff.mpr fun y hy => ih y hy (hitems y hy)

private theorem mem_emptiedFragments_iff (hdistinct : (d.fragments.map Fragment.name).Nodup)
    {name : String} {f : Fragment} (hf : d.fragment? name = some f) :
    name ∈ emptiedFragments d ↔ ∀ x ∈ f.items, pruneSelection (emptiedFragments d) x = none := by
  constructor
  · have hgood : ∀ name ∈ emptiedFragments d, name ∈ emptiedFragments d ∧ ∀ f,
        d.fragment? name = some f → ∀ x ∈ f.items, pruneSelection (emptiedFragments d) x = none :=
      emptiedFragments_induction fun emptied g hg hemptied hempty => by
        have hitems : ∀ x ∈ g.items, pruneSelection (emptiedFragments d) x = none := fun x hx =>
          pruneSelection_eq_none_mono (fun other hother => (hemptied other hother).1)
            (pruneSelections_eq_nil_iff.mp hempty x hx)
        refine ⟨mem_emptiedFragments hg (pruneSelections_eq_nil_iff.mpr hitems), fun f hf => ?_⟩
        obtain rfl := Option.some.inj (hf.symm.trans (Document.fragment?_eq_some hdistinct hg))
        exact hitems
    exact fun hname => (hgood name hname).2 f hf
  · intro hitems
    obtain ⟨hmem, rfl⟩ := Document.mem_of_fragment?_eq_some hf
    exact mem_emptiedFragments hmem (pruneSelections_eq_nil_iff.mpr hitems)

private theorem pruneSelection_eq_none_iff (h : d.WellSpread) {x : Selection} (hx : d.Resolves x) :
    pruneSelection (emptiedFragments d) x = none ↔ ¬ d.HasLeaf x := by
  constructor
  · intro hnone hleaf
    induction hleaf with
    | leaf head => simp [pruneSelection_leaf] at hnone
    | field hy _ ih =>
      exact ih (hx.of_field _ hy) ((pruneSelection_field_eq_none_iff.mp hnone).2 _ hy)
    | spread hf hy _ ih =>
      have hmem := Document.mem_fragments.mp (Document.mem_of_fragment?_eq_some hf).1
      have hname := pruneSelection_spread_eq_none_iff.mp hnone
      exact ih (h.resolves hmem hy) ((mem_emptiedFragments_iff h.distinct hf).mp hname _ hy)
    | inline hy _ ih =>
      exact ih (hx.of_inline _ hy) (pruneSelection_inline_eq_none_iff.mp hnone _ hy)
  · refine h.induct (motive := fun x => ¬ d.HasLeaf x →
      pruneSelection (emptiedFragments d) x = none) ?field ?spread ?inline hx
    case field =>
      intro head items ih hno
      refine pruneSelection_field_eq_none_iff.mpr ⟨?_, fun y hy => ih y hy fun hleaf => ?_⟩
      · rintro rfl
        exact hno (.leaf head)
      · exact hno (.field hy hleaf)
    case spread =>
      intro head f hf ih hno
      rw [pruneSelection_spread_eq_none_iff, mem_emptiedFragments_iff h.distinct hf]
      exact fun y hy => ih y hy fun hleaf => hno (.spread hf hy hleaf)
    case inline =>
      intro head items ih hno
      rw [pruneSelection_inline_eq_none_iff]
      exact fun y hy => ih y hy fun hleaf => hno (.inline hy hleaf)

section Sifting

open Classical

private theorem pruneSelections_eq_sift_of_forall {outer : Place}
    (h : ∀ y ∈ items, pruneSelection emptied y =
      siftSelection (fun _ y => decide (d.HasLeaf y)) outer y) :
    pruneSelections emptied items =
      siftSelections (fun _ y => decide (d.HasLeaf y)) outer items := by
  rw [pruneSelections_eq_filterMap, siftSelections_eq_filterMap]
  exact List.filterMap_congr h

private theorem ite_hasLeaf (h : d.WellSpread) {x : Selection} (hx : d.Resolves x) {y : Selection}
    (hleft : ∀ z, pruneSelection (emptiedFragments d) x = some z → z = y) :
    pruneSelection (emptiedFragments d) x =
      if decide (d.HasLeaf x) = true then some y else none := by
  have hnone := pruneSelection_eq_none_iff h hx
  cases hx : pruneSelection (emptiedFragments d) x with
  | none => rw [if_neg (by simpa using hnone.mp hx)]
  | some z =>
    rw [hx] at hnone
    rw [hleft z hx, if_pos (by simpa using hnone)]

private theorem pruneSelection_eq_sift (h : d.WellSpread) {x : Selection} (hx : d.Resolves x)
    (outer : Place) : pruneSelection (emptiedFragments d) x =
      siftSelection (fun _ y => decide (d.HasLeaf y)) outer x := by
  induction x generalizing outer with
  | field head items ih =>
    have hitems := pruneSelections_eq_sift_of_forall fun y hy =>
      ih y hy (hx.of_field y hy) (.field outer head items)
    rw [siftSelection, ← hitems]
    exact ite_hasLeaf h hx fun _ => eq_of_pruneSelection_field
  | spread head =>
    rw [siftSelection]
    exact ite_hasLeaf h hx fun _ => eq_of_pruneSelection_spread
  | inline head items ih =>
    have hitems := pruneSelections_eq_sift_of_forall fun y hy =>
      ih y hy (hx.of_inline y hy) (.inline outer head)
    rw [siftSelection, ← hitems]
    exact ite_hasLeaf h hx fun _ => eq_of_pruneSelection_inline

private theorem pruneDocument_eq_live (h : d.WellSpread) : pruneDocument d = d.live := by
  have hdefinition : ∀ x ∈ d.definitions, pruneDefinition (emptiedFragments d) x =
      if decide (x.isOperation = true ∨ ∃ y ∈ x.items, d.HasLeaf y) = true then
        some (x.withItems (siftSelections (fun _ y => decide (d.HasLeaf y)) (.root x) x.items))
      else none := by
    intro x hx
    rw [← pruneSelections_eq_sift_of_forall fun y hy =>
      pruneSelection_eq_sift h (h.resolves hx hy) (.root x)]
    cases x with
    | operation o => simp [pruneDefinition, Definition.isOperation, Definition.withItems,
        Definition.items]
    | fragment f =>
      have hf := Document.mem_fragments.mpr hx
      have hname : f.name ∈ emptiedFragments d ↔ ∀ y ∈ f.items, ¬ d.HasLeaf y := by
        rw [mem_emptiedFragments_iff h.distinct (Document.fragment?_eq_some h.distinct hf)]
        exact forall₂_congr fun y hy => pruneSelection_eq_none_iff h (h.resolves hx hy)
      have hlive : (emptiedFragments d).contains f.name = true ↔
          ¬ ∃ y ∈ f.items, d.HasLeaf y := by
        rw [Std.ExtTreeSet.contains_iff_mem, hname]
        push Not
        rfl
      by_cases hleaf : ∃ y ∈ f.items, d.HasLeaf y
      · have hkept : (emptiedFragments d).contains f.name = false := by
          rw [← Bool.not_eq_true, hlive]
          exact not_not_intro hleaf
        simp [pruneDefinition, hkept, Definition.isOperation, Definition.items, hleaf,
          Definition.withItems]
      · simp [pruneDefinition, hlive.mpr hleaf, Definition.isOperation, Definition.items, hleaf]
  rw [pruneDocument, Document.live, Document.sift, ← List.filterMap_eq_map, List.filterMap_filter]
  exact congrArg Document.mk (List.filterMap_congr hdefinition)

end Sifting

private theorem operations_pruneDocument (d : Document) :
    (pruneDocument d).operations = d.operations.map fun o =>
      { o with items := pruneSelections (emptiedFragments d) o.items } := by
  rw [Document.operations, Document.operations, pruneDocument, List.filterMap_filterMap,
    List.map_filterMap]
  refine List.filterMap_congr fun x _ => ?_
  cases x with
  | operation o => rfl
  | fragment f =>
    rw [pruneDefinition]
    split <;> rfl

private theorem fragments_pruneDocument (d : Document) :
    (pruneDocument d).fragments =
      (d.fragments.filter fun f => !(emptiedFragments d).contains f.name).map fun f =>
        { f with items := pruneSelections (emptiedFragments d) f.items } := by
  rw [Document.fragments, Document.fragments, pruneDocument, List.filterMap_filterMap,
    ← List.filterMap_eq_map, List.filterMap_filter, List.filterMap_filterMap]
  refine List.filterMap_congr fun x _ => ?_
  cases x with
  | operation o => rfl
  | fragment f =>
    cases hname : (emptiedFragments d).contains f.name <;> simp [pruneDefinition, hname]

private theorem fragment?_pruneDocument (hdistinct : (d.fragments.map Fragment.name).Nodup)
    {name : String} {f : Fragment} (hf : d.fragment? name = some f)
    (hname : name ∉ emptiedFragments d) :
    (pruneDocument d).fragment? name =
      some { f with items := pruneSelections (emptiedFragments d) f.items } := by
  obtain ⟨hmem, rfl⟩ := Document.mem_of_fragment?_eq_some hf
  have hkept : (emptiedFragments d).contains f.name = false := by
    simpa only [Std.ExtTreeSet.mem_iff_contains, Bool.not_eq_true] using hname
  have hdistinct' : ((pruneDocument d).fragments.map Fragment.name).Nodup := by
    rw [fragments_pruneDocument, List.map_map]
    exact hdistinct.sublist (List.filter_sublist.map Fragment.name)
  have hleft : { f with items := pruneSelections (emptiedFragments d) f.items } ∈
      (pruneDocument d).fragments := by
    rw [fragments_pruneDocument]
    exact List.mem_map_of_mem (List.mem_filter.mpr ⟨hmem, by rw [hkept, Bool.not_false]⟩)
  exact Document.fragment?_eq_some hdistinct' hleft

/-- Inlining gives the same leaves of a selection before and after the document is pruned. -/
def KeepsLeaves (d : Document) (x : Selection) : Prop :=
  ∀ path, ∃ leaves, d.Expands path [x] leaves ∧
    (pruneDocument d).Expands path (pruneSelection (emptiedFragments d) x).toList leaves

private theorem expands_of_forall (h : ∀ x ∈ items, KeepsLeaves d x) (path : List LeafStep) :
    ∃ leaves, d.Expands path items leaves ∧
      (pruneDocument d).Expands path (pruneSelections (emptiedFragments d) items) leaves := by
  induction items with
  | nil => exact ⟨[], .nil path, .nil path⟩
  | cons x rest ih =>
    obtain ⟨hx, hrest⟩ := List.forall_mem_cons.mp h
    obtain ⟨first, hfirst, hfirst'⟩ := hx path
    obtain ⟨others, hothers, hothers'⟩ := ih hrest
    refine ⟨first ++ others, hfirst.append hothers, ?_⟩
    have hcons : pruneSelections (emptiedFragments d) (x :: rest) =
        (pruneSelection (emptiedFragments d) x).toList ++
          pruneSelections (emptiedFragments d) rest := by
      rw [pruneSelections]
      cases pruneSelection (emptiedFragments d) x <;> rfl
    rw [hcons]
    exact hfirst'.append hothers'

private theorem keepsLeaves (h : d.WellSpread) {x : Selection} (hx : d.Resolves x) :
    KeepsLeaves d x := by
  refine h.induct ?field ?spread ?inline hx
  case field =>
    intro head items ih path
    cases items with
    | nil =>
      rw [pruneSelection_leaf]
      exact ⟨_, .leaf (.nil path), .leaf (.nil path)⟩
    | cons y rest =>
      obtain ⟨leaves, hleaves, hleft⟩ := expands_of_forall ih (path ++ [.key head.responseKey])
      refine ⟨leaves ++ [], .field (by simp) hleaves (.nil path), ?_⟩
      by_cases hkept : pruneSelections (emptiedFragments d) (y :: rest) = []
      · rw [pruneSelection_field_eq_none_iff.mpr
          ⟨List.cons_ne_nil y rest, pruneSelections_eq_nil_iff.mp hkept⟩]
        rw [hkept] at hleft
        rw [hleft.eq_nil]
        exact .nil path
      · rw [pruneSelection_field hkept]
        exact .field hkept hleft (.nil path)
  case spread =>
    intro head f hf ih path
    obtain ⟨leaves, hleaves, hleft⟩ := expands_of_forall ih (path ++ [.condition f.condition])
    refine ⟨leaves ++ [], .spread hf hleaves (.nil path), ?_⟩
    by_cases hname : head.name ∈ emptiedFragments d
    · rw [pruneSelection_spread_eq_none_iff.mpr hname]
      rw [pruneSelections_eq_nil_iff.mpr ((mem_emptiedFragments_iff h.distinct hf).mp hname)]
        at hleft
      rw [hleft.eq_nil]
      exact .nil path
    · have hspread : pruneSelection (emptiedFragments d) (.spread head) = some (.spread head) := by
        simp [pruneSelection, hname]
      rw [hspread]
      exact .spread (fragment?_pruneDocument h.distinct hf hname) hleft (.nil path)
  case inline =>
    intro head items ih path
    obtain ⟨leaves, hleaves, hleft⟩ :=
      expands_of_forall ih (path ++ (head.condition.map .condition).toList)
    refine ⟨leaves ++ [], .inline hleaves (.nil path), ?_⟩
    by_cases hkept : pruneSelections (emptiedFragments d) items = []
    · rw [pruneSelection_inline_eq_none_iff.mpr (pruneSelections_eq_nil_iff.mp hkept)]
      rw [hkept] at hleft
      rw [hleft.eq_nil]
      exact .nil path
    · rw [pruneSelection_inline hkept]
      exact .inline hleft (.nil path)

/-- Pruning keeps the operations, keeps of a document just what leads to a leaf, and keeps the
sequence of leaves that inlining all spreads of an operation gives. -/
theorem pruneDocument_lossless (h : d.WellSpread) :
    pruneDocument d = d.live ∧
    List.Forall₂ (fun o o' => ∃ leaves, (∀ found, d.Expands [] o.items found ↔ found = leaves) ∧
        ∀ found, (pruneDocument d).Expands [] o'.items found ↔ found = leaves)
      d.operations (pruneDocument d).operations := by
  refine ⟨pruneDocument_eq_live h, ?_⟩
  rw [operations_pruneDocument, List.forall₂_map_right_iff, List.forall₂_same]
  intro o ho
  have ho := Document.mem_operations.mp ho
  obtain ⟨leaves, hbefore, hafter⟩ := expands_of_forall
    (fun x hx => keepsLeaves h (h.resolves ho hx)) []
  refine ⟨leaves, fun found => ⟨fun hfound => hfound.unique hbefore, ?_⟩,
    fun found => ⟨fun hfound => hfound.unique hafter, ?_⟩⟩
  · rintro rfl
    exact hbefore
  · rintro rfl
    exact hafter

section Witness

private def leafField (name : String) : Selection :=
  .field ⟨⟨1, 1⟩, ⟨1, 1⟩, ⟨1, 1⟩, none, name, [], []⟩ []

private def spreadOf (name : String) : Selection :=
  .spread ⟨⟨1, 1⟩, name, []⟩

private def fragmentOf (name : String) (items : List Selection) : Fragment :=
  ⟨⟨1, 1⟩, ⟨1, 1⟩, ⟨1, 1⟩, name, "Person", [], items⟩

private def meQuery (items : List Selection) : Operation :=
  ⟨none, ⟨1, 1⟩, ⟨1, 1⟩, [.field ⟨⟨1, 1⟩, ⟨1, 1⟩, ⟨1, 1⟩, none, "me", [], []⟩ items]⟩

/-- The fragment `Inner` selects nothing, which empties `Outer`. -/
private def nestedDocument : Document :=
  ⟨[.operation (meQuery [spreadOf "Outer", leafField "id"]),
    .fragment (fragmentOf "Outer" [spreadOf "Inner"]),
    .fragment (fragmentOf "Inner" [.inline ⟨⟨1, 1⟩, ⟨1, 1⟩, ⟨1, 1⟩, none, []⟩ []])]⟩

private theorem spreads_nestedDocument {x : Definition} (hx : x ∈ nestedDocument.definitions)
    {trail : List Enclosure} {head : Spread} (h : Occurs x.items trail (.spread head)) :
    (x = .operation (meQuery [spreadOf "Outer", leafField "id"]) ∧ head.name = "Outer") ∨
      (x = .fragment (fragmentOf "Outer" [spreadOf "Inner"]) ∧ head.name = "Inner") := by
  simp only [nestedDocument, List.mem_cons, List.not_mem_nil, or_false] at hx
  rcases hx with rfl | rfl | rfl
  · refine .inl ⟨rfl, ?_⟩
    rcases h with hm | ⟨hm, hinner⟩ | ⟨hm, -⟩ <;> simp [Definition.items, meQuery] at hm
    obtain ⟨-, rfl⟩ := hm
    rcases hinner with hm | ⟨hm, hbelow⟩ | ⟨hm, -⟩ <;> simp [spreadOf, leafField] at hm
    · rw [hm]
    · obtain ⟨-, rfl⟩ := hm
      exact absurd hbelow not_occurs_nil
  · refine .inr ⟨rfl, ?_⟩
    rcases h with hm | ⟨hm, -⟩ | ⟨hm, -⟩ <;> simp [Definition.items, fragmentOf, spreadOf] at hm
    rw [hm]
  · rcases h with hm | ⟨hm, -⟩ | ⟨hm, hinner⟩ <;> simp [Definition.items, fragmentOf] at hm
    obtain ⟨-, rfl⟩ := hm
    exact absurd hinner not_occurs_nil

private theorem nests_nestedDocument {outer inner : String}
    (h : nestedDocument.Nests outer inner) : outer = "Outer" ∧ inner = "Inner" := by
  obtain ⟨f, hf, trail, head, hoccurs, rfl⟩ := h
  obtain ⟨hmem, rfl⟩ := Document.mem_of_fragment?_eq_some hf
  obtain ⟨hx, -⟩ | ⟨hx, hname⟩ :=
    spreads_nestedDocument (Document.mem_fragments.mp hmem) hoccurs
  · cases hx
  · obtain rfl := Definition.fragment.inj hx
    exact ⟨rfl, hname⟩

private theorem wellSpread_nestedDocument : nestedDocument.WellSpread where
  distinct := by decide
  defined := by
    intro x hx trail head hoccurs
    obtain ⟨-, hname⟩ | ⟨-, hname⟩ := spreads_nestedDocument hx hoccurs
    · exact ⟨fragmentOf "Outer" [spreadOf "Inner"], List.mem_cons_self, hname.symm⟩
    · exact ⟨_, List.mem_cons_of_mem _ List.mem_cons_self, hname.symm⟩
  acyclic := by
    intro name hcycle
    obtain ⟨_, hfirst, -⟩ := Relation.TransGen.head'_iff.mp hcycle
    obtain ⟨_, -, hlast⟩ := Relation.TransGen.tail'_iff.mp hcycle
    have hsame : "Outer" = "Inner" :=
      (nests_nestedDocument hfirst).1.symm.trans (nests_nestedDocument hlast).2
    exact absurd hsame (by decide)

theorem pruneDocument_lossless_of_nested :
    nestedDocument.WellSpread ∧
    nestedDocument.live = ⟨[.operation (meQuery [leafField "id"])]⟩ ∧
    ∃ leaves, ∀ found,
      (nestedDocument.Expands [] (meQuery [spreadOf "Outer", leafField "id"]).items found ↔
        found = leaves) ∧
      (Document.Expands ⟨[.operation (meQuery [leafField "id"])]⟩ []
        (meQuery [leafField "id"]).items found ↔ found = leaves) := by
  have hpruned : pruneDocument nestedDocument =
      ⟨[.operation (meQuery [leafField "id"])]⟩ := by rfl
  obtain ⟨hlive, hleaves⟩ := pruneDocument_lossless wellSpread_nestedDocument
  rw [hpruned] at hlive hleaves
  obtain ⟨leaves, hbefore, hafter⟩ := (List.forall₂_cons.mp hleaves).1
  exact ⟨wellSpread_nestedDocument, hlive.symm, leaves, fun found => ⟨hbefore found, hafter found⟩⟩

end Witness

end Prune

end FieldAuthorization
