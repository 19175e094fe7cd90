import Mathlib.Order.WellFoundedSet
import FieldAuthorization.Proofs.Document.Fragments

/-!
Leaves, and how spreads lead to them.

A leaf is a field without selections below it. Inlining every spread turns selections into a
sequence of leaves, each with what is around it; in a document whose spreads all find a fragment and
never lead back to it there is just one such sequence, and one can reason from fragments to their
spreads.
-/

set_option autoImplicit false
set_option relaxedAutoImplicit false

namespace FieldAuthorization

/-- What a leaf stands under: a field, by its response key, or a type condition. -/
inductive LeafStep
  | key (responseKey : String)
  | condition (type : String)

/-- A field without selections below it, and what is around it, outermost first. -/
structure Leaf where
  path : List LeafStep
  head : Field

namespace Document

/-- A leaf is the selection or below it, when spreads are followed into their fragments. -/
inductive HasLeaf (d : Document) : Selection → Prop
  | leaf (head : Field) : HasLeaf d (.field head [])
  | field {head : Field} {items : List Selection} {x : Selection} :
      x ∈ items → HasLeaf d x → HasLeaf d (.field head items)
  | spread {head : Spread} {f : Fragment} {x : Selection} :
      d.fragment? head.name = some f → x ∈ f.items → HasLeaf d x → HasLeaf d (.spread head)
  | inline {head : InlineFragment} {items : List Selection} {x : Selection} :
      x ∈ items → HasLeaf d x → HasLeaf d (.inline head items)

/-- Inlining all spreads turns selections inside a path into a sequence of leaves. -/
inductive Expands (d : Document) : List LeafStep → List Selection → List Leaf → Prop
  | nil (path : List LeafStep) : Expands d path [] []
  | leaf {path : List LeafStep} {head : Field} {rest : List Selection} {leaves : List Leaf} :
      Expands d path rest leaves →
      Expands d path (.field head [] :: rest) (⟨path, head⟩ :: leaves)
  | field {path : List LeafStep} {head : Field} {items rest : List Selection}
      {inner leaves : List Leaf} :
      items ≠ [] → Expands d (path ++ [.key head.responseKey]) items inner →
      Expands d path rest leaves → Expands d path (.field head items :: rest) (inner ++ leaves)
  | spread {path : List LeafStep} {head : Spread} {f : Fragment} {rest : List Selection}
      {inner leaves : List Leaf} :
      d.fragment? head.name = some f → Expands d (path ++ [.condition f.condition]) f.items inner →
      Expands d path rest leaves → Expands d path (.spread head :: rest) (inner ++ leaves)
  | inline {path : List LeafStep} {head : InlineFragment} {items rest : List Selection}
      {inner leaves : List Leaf} :
      Expands d (path ++ (head.condition.map .condition).toList) items inner →
      Expands d path rest leaves → Expands d path (.inline head items :: rest) (inner ++ leaves)

def Nests (d : Document) (outer inner : String) : Prop :=
  ∃ f, d.fragment? outer = some f ∧
    ∃ trail head, Occurs f.items trail (.spread head) ∧ head.name = inner

/-- Fragments have distinct names, every spread is of a fragment, and no fragment leads back to
itself through spreads. -/
structure WellSpread (d : Document) : Prop where
  distinct : (d.fragments.map Fragment.name).Nodup
  defined : ∀ x ∈ d.definitions, ∀ trail head, Occurs x.items trail (.spread head) →
    ∃ f ∈ d.fragments, f.name = head.name
  acyclic : ∀ name, ¬ Relation.TransGen d.Nests name name

variable {d : Document}

namespace Expands

variable {path : List LeafStep} {items more : List Selection} {leaves others : List Leaf}

theorem append (h : d.Expands path items leaves) (h' : d.Expands path more others) :
    d.Expands path (items ++ more) (leaves ++ others) := by
  induction h with
  | nil path => exact h'
  | leaf _ ih => exact .leaf (ih h')
  | field hne hinner _ _ ih =>
    rw [List.append_assoc]
    exact .field hne hinner (ih h')
  | spread hf hinner _ _ ih =>
    rw [List.append_assoc]
    exact .spread hf hinner (ih h')
  | inline hinner _ _ ih =>
    rw [List.append_assoc]
    exact .inline hinner (ih h')

theorem eq_nil (h : d.Expands path [] leaves) : leaves = [] := by
  cases h
  rfl

theorem unique (h : d.Expands path items leaves) (h' : d.Expands path items others) :
    leaves = others := by
  induction h generalizing others with
  | nil path => exact h'.eq_nil.symm
  | leaf _ ih =>
    cases h' with
    | leaf hrest => rw [ih hrest]
    | field hne _ _ => exact absurd rfl hne
  | field hne _ _ ihinner ih =>
    cases h' with
    | leaf _ => exact absurd rfl hne
    | field _ hinner hrest => rw [ihinner hinner, ih hrest]
  | spread hf _ _ ihinner ih =>
    cases h' with
    | spread hg hinner hrest =>
      obtain rfl := Option.some.inj (hf.symm.trans hg)
      rw [ihinner hinner, ih hrest]
  | inline _ _ ihinner ih =>
    cases h' with
    | inline hinner hrest => rw [ihinner hinner, ih hrest]

end Expands

/-- Every spread at or below the selection is of a fragment. -/
def Resolves (d : Document) (x : Selection) : Prop :=
  ∀ trail head, Occurs [x] trail (.spread head) → ∃ f, d.fragment? head.name = some f

theorem Resolves.of_field {head : Field} {items : List Selection}
    (h : d.Resolves (.field head items)) : ∀ y ∈ items, d.Resolves y :=
  fun _ hy _ below hoccurs => h _ below (hoccurs.below_field hy)

theorem Resolves.of_inline {head : InlineFragment} {items : List Selection}
    (h : d.Resolves (.inline head items)) : ∀ y ∈ items, d.Resolves y :=
  fun _ hy _ below hoccurs => h _ below (hoccurs.below_inline hy)

namespace WellSpread

theorem resolves (h : d.WellSpread) {x : Definition} (hx : x ∈ d.definitions) {y : Selection}
    (hy : y ∈ x.items) : d.Resolves y := by
  intro trail head hoccurs
  obtain ⟨f, hf, hname⟩ := h.defined x hx trail head (hoccurs.of_mem hy)
  exact ⟨f, hname ▸ fragment?_eq_some h.distinct hf⟩

private theorem wellFounded (h : d.WellSpread) :
    WellFounded fun inner outer => d.Nests outer inner := by
  have hstrict : IsStrictOrder String fun inner outer => Relation.TransGen d.Nests outer inner :=
    { irrefl := h.acyclic, trans := fun _ _ _ hab hbc => hbc.trans hab }
  have hfinite : Set.Finite { name | name ∈ d.fragments.map Fragment.name } :=
    List.finite_toSet _
  refine Subrelation.wf ?_ (Set.wellFoundedOn_iff.mp (hfinite.wellFoundedOn (r :=
    fun inner outer => Relation.TransGen d.Nests outer inner)))
  rintro inner outer hnests
  obtain ⟨f, hf, trail, head, hoccurs, rfl⟩ := hnests
  obtain ⟨hmem, rfl⟩ := mem_of_fragment?_eq_some hf
  obtain ⟨g, hg, hname⟩ := h.defined _ (mem_fragments.mp hmem) trail head hoccurs
  exact ⟨.single ⟨f, hf, trail, head, hoccurs, rfl⟩, hname ▸ List.mem_map_of_mem hg,
    List.mem_map_of_mem hmem⟩

/-- Induction on a selection through its spreads: what holds of all selections of a fragment passes
to the spreads of the fragment. -/
theorem induct {motive : Selection → Prop} (h : d.WellSpread)
    (field : ∀ head items, (∀ x ∈ items, motive x) → motive (.field head items))
    (spread : ∀ head f, d.fragment? head.name = some f → (∀ x ∈ f.items, motive x) →
      motive (.spread head))
    (inline : ∀ head items, (∀ x ∈ items, motive x) → motive (.inline head items))
    {x : Selection} (hx : d.Resolves x) : motive x := by
  have hselection {x : Selection} (hx : d.Resolves x)
      (hspreads : ∀ trail head, Occurs [x] trail (.spread head) → ∀ f,
        d.fragment? head.name = some f → ∀ y ∈ f.items, motive y) : motive x := by
    induction x with
    | field head items ih =>
      refine field head items fun y hy => ih y hy (hx.of_field y hy) fun trail below hoccurs => ?_
      exact hspreads _ below (hoccurs.below_field hy)
    | spread head =>
      have hhere : Occurs [.spread head] [] (.spread head) := .here (List.mem_singleton.mpr rfl)
      obtain ⟨f, hf⟩ := hx [] head hhere
      exact spread head f hf (hspreads [] head hhere f hf)
    | inline head items ih =>
      refine inline head items fun y hy => ih y hy (hx.of_inline y hy) fun trail below hoccurs => ?_
      exact hspreads _ below (hoccurs.below_inline hy)
  have hfragment (name : String) : ∀ f, d.fragment? name = some f → ∀ y ∈ f.items, motive y := by
    induction name using h.wellFounded.induction with
    | h name ih =>
      intro f hf y hy
      have hmem := mem_fragments.mp (mem_of_fragment?_eq_some hf).1
      refine hselection (h.resolves hmem hy) fun trail head hoccurs => ?_
      exact ih head.name ⟨f, hf, trail, head, hoccurs.of_mem hy, rfl⟩
  exact hselection hx fun _ head _ => hfragment head.name

end WellSpread

end Document

end FieldAuthorization
