import Mathlib.Data.Finset.Card
import Mathlib.Data.List.Forall2
import Mathlib.Order.Bounds.Defs
import FieldAuthorization.Proofs.Redaction.Lossless

/-!
Pruning in place, round by round.

A round goes through the fragments in order. It prunes each with what has been found emptied by then
and writes what is left in its place, so later rounds see fragments that earlier ones have pruned.
That makes no difference: what fewer emptied fragments take away, more of them take away as well. So
the rounds end with the least set of names that is closed under emptying, whatever the order of the
definitions.
-/

set_option autoImplicit false
set_option relaxedAutoImplicit false

namespace FieldAuthorization.Prune

/-- What is left of a definition in a round, and the name of the fragment if that is found emptied.
Operations and fragments that were found before stay as they are. -/
def visit (emptied : Emptied) : Definition → Definition × Option String
  | .operation o => (.operation o, none)
  | .fragment f =>
    if emptied.contains f.name then (.fragment f, none)
    else
      let left := pruneSelections emptied f.items
      (.fragment { f with items := left }, if left.isEmpty then some f.name else none)

/-- The definitions after a round, the names found emptied, and whether one of them is new. -/
structure Sweep where
  definitions : List Definition
  emptied : Emptied
  changed : Bool

/-- A round in place. What it finds counts at once, for the definitions that follow. -/
def sweep : List Definition → Emptied → Sweep
  | [], emptied => ⟨[], emptied, false⟩
  | x :: rest, emptied =>
    let (left, found) := visit emptied x
    let later := sweep rest (found.elim emptied emptied.insert)
    ⟨left :: later.definitions, later.emptied, found.isSome || later.changed⟩

/-- Rounds in place end with the first that changes nothing. -/
inductive Settles : List Definition → Emptied → (rounds : Nat) → List Definition → Emptied → Prop
  | last {definitions : List Definition} {emptied : Emptied} :
      (sweep definitions emptied).changed = false →
      Settles definitions emptied 1 (sweep definitions emptied).definitions
        (sweep definitions emptied).emptied
  | more {definitions settled : List Definition} {emptied final : Emptied} {rounds : Nat} :
      (sweep definitions emptied).changed = true →
      Settles (sweep definitions emptied).definitions (sweep definitions emptied).emptied rounds
        settled final →
      Settles definitions emptied (rounds + 1) settled final

/-- What stays of a definition once the rounds have ended: operations are pruned then, emptied
fragments removed. -/
def finish (emptied : Emptied) : Definition → Option Definition
  | .operation o => some (.operation { o with items := pruneSelections emptied o.items })
  | .fragment f => if emptied.contains f.name then none else some (.fragment f)

private theorem Settles.unique {definitions settled settled' : List Definition}
    {emptied final final' : Emptied} {rounds rounds' : Nat}
    (h : Settles definitions emptied rounds settled final)
    (h' : Settles definitions emptied rounds' settled' final') :
    rounds' = rounds ∧ settled' = settled ∧ final' = final := by
  induction h generalizing rounds' with
  | last hlast =>
    cases h' with
    | last => exact ⟨rfl, rfl, rfl⟩
    | more hmore => exact absurd (hlast.symm.trans hmore) Bool.false_ne_true
  | more hmore _ ih =>
    cases h' with
    | last hlast => exact absurd (hlast.symm.trans hmore) Bool.false_ne_true
    | more _ hrest =>
      obtain ⟨rfl, hsettled, hfinal⟩ := ih hrest
      exact ⟨rfl, hsettled, hfinal⟩

section Absorption

variable {emptied more : Emptied}

private theorem pruneSelections_absorb {items : List Selection}
    (h : ∀ x ∈ items, (pruneSelection emptied x).bind (pruneSelection more) =
      pruneSelection more x) :
    pruneSelections more (pruneSelections emptied items) = pruneSelections more items := by
  simp only [pruneSelections_eq_filterMap, List.filterMap_filterMap]
  exact List.filterMap_congr h

private theorem pruneSelection_bind_pruneSelection (h : ∀ name ∈ emptied, name ∈ more)
    (x : Selection) :
    (pruneSelection emptied x).bind (pruneSelection more) = pruneSelection more x := by
  induction x with
  | field head items ih =>
    have hitems := pruneSelections_absorb ih
    by_cases hleaf : items = []
    · simp [hleaf, pruneSelection_leaf]
    · by_cases hleft : pruneSelections emptied items = []
      · -- what is gone at first is gone in the end
        rw [hleft, pruneSelections_nil] at hitems
        simp [pruneSelection, hleaf, hleft, ← hitems]
      · rw [pruneSelection_field hleft, Option.bind_some]
        simp [pruneSelection, hleaf, hleft, hitems]
  | spread head =>
    by_cases hname : head.name ∈ emptied
    · simp [pruneSelection, hname, h head.name hname]
    · simp [pruneSelection, hname]
  | inline head items ih =>
    have hitems := pruneSelections_absorb ih
    by_cases hleft : pruneSelections emptied items = []
    · rw [hleft, pruneSelections_nil] at hitems
      simp [pruneSelection, hleft, ← hitems]
    · rw [pruneSelection_inline hleft, Option.bind_some]
      simp [pruneSelection, hitems]

private theorem pruneSelections_pruneSelections (h : ∀ name ∈ emptied, name ∈ more)
    (items : List Selection) :
    pruneSelections more (pruneSelections emptied items) = pruneSelections more items :=
  pruneSelections_absorb fun x _ => pruneSelection_bind_pruneSelection h x

end Absorption

section Sweeps

variable {emptied more : Emptied} {x y : Definition} {original definitions : List Definition}

/-- A definition from which selections are gone that go without the emptied fragments anyway. -/
def Partly (emptied : Emptied) (x y : Definition) : Prop :=
  ∃ items, y = x.withItems items ∧ ∀ more : Emptied, (∀ name ∈ emptied, name ∈ more) →
    pruneSelections more items = pruneSelections more x.items

private theorem Partly.refl (emptied : Emptied) (x : Definition) : Partly emptied x x :=
  ⟨x.items, (x.withItems_items).symm, fun _ _ => rfl⟩

private theorem Partly.mono (h : Partly emptied x y) (hmore : ∀ name ∈ emptied, name ∈ more) :
    Partly more x y := by
  obtain ⟨items, hy, hprune⟩ := h
  exact ⟨items, hy, fun most hmost => hprune most fun name hname => hmost name (hmore name hname)⟩

private theorem Partly.visit (h : Partly emptied x y) : Partly emptied x (visit emptied y).1 := by
  obtain ⟨items, rfl, hprune⟩ := h
  cases x with
  | operation o => exact ⟨items, rfl, hprune⟩
  | fragment f =>
    by_cases hname : emptied.contains f.name = true
    · refine ⟨items, ?_, hprune⟩
      simp [Prune.visit, Definition.withItems, hname]
    · refine ⟨pruneSelections emptied items, ?_, fun more hmore => ?_⟩
      · simp [Prune.visit, Definition.withItems, hname]
      · rw [pruneSelections_pruneSelections hmore, hprune more hmore]

private theorem mem_of_mem_visit {name : String} (h : name ∈ emptied) (y : Definition) :
    name ∈ (visit emptied y).2.elim emptied emptied.insert := by
  cases (visit emptied y).2 with
  | none => exact h
  | some other => exact Std.ExtTreeSet.mem_insert.mpr (.inr h)

private theorem not_mem_of_visit {name : String} (h : (visit emptied y).2 = some name) :
    name ∉ emptied := by
  cases y with
  | operation o => simp [visit] at h
  | fragment f =>
    by_cases hname : emptied.contains f.name = true
    · simp [visit, hname] at h
    · simp only [visit, hname] at h
      split at h <;> simp_all

private theorem round_cons (h : Partly emptied x y) (rest : List Definition) :
    round (Document.mk (x :: rest)).fragments emptied =
      round (Document.mk rest).fragments ((visit emptied y).2.elim emptied emptied.insert) := by
  obtain ⟨items, rfl, hprune⟩ := h
  cases x with
  | operation o => rfl
  | fragment f =>
    have hitems : pruneSelections emptied items = pruneSelections emptied f.items :=
      hprune emptied fun _ => id
    have hround : round (Document.mk (.fragment f :: rest)).fragments emptied =
        round (Document.mk rest).fragments
          (if (pruneSelections emptied f.items).isEmpty then emptied.insert f.name else emptied) :=
      rfl
    rw [hround]
    congr 1
    by_cases hname : f.name ∈ emptied
    · simp [visit, Definition.withItems, hname, insert_eq_self hname]
    · by_cases hleft : pruneSelections emptied f.items = [] <;>
        simp [visit, Definition.withItems, hname, hitems, hleft]

private theorem partly_of_visit (y : Definition)
    (h : List.Forall₂ (Partly emptied) original definitions) :
    List.Forall₂ (Partly ((visit emptied y).2.elim emptied emptied.insert)) original definitions :=
  h.imp fun _ _ hxy => hxy.mono fun _ hname => mem_of_mem_visit hname y

private theorem emptied_sweep (h : List.Forall₂ (Partly emptied) original definitions) :
    (sweep definitions emptied).emptied = round (Document.mk original).fragments emptied := by
  induction definitions generalizing emptied original with
  | nil =>
    cases h
    rfl
  | cons y rest ih =>
    cases h with
    | @cons x _ before _ hxy hrest =>
      rw [round_cons hxy before]
      exact ih (partly_of_visit y hrest)

private theorem mem_emptied_sweep (definitions : List Definition) {name : String}
    (h : name ∈ emptied) :
    name ∈ (sweep definitions emptied).emptied := by
  induction definitions generalizing emptied with
  | nil => exact h
  | cons y rest ih => exact ih (mem_of_mem_visit h y)

private theorem partly_sweep (h : List.Forall₂ (Partly emptied) original definitions) :
    List.Forall₂ (Partly (sweep definitions emptied).emptied) original
      (sweep definitions emptied).definitions := by
  induction definitions generalizing emptied original with
  | nil =>
    cases h
    exact .nil
  | cons y rest ih =>
    cases h with
    | cons hxy hrest =>
      refine .cons (hxy.visit.mono fun name hname => ?_) (ih (partly_of_visit y hrest))
      exact mem_emptied_sweep (y :: rest) hname

private theorem changed_sweep_iff (definitions : List Definition) (emptied : Emptied) :
    (sweep definitions emptied).changed = true ↔ (sweep definitions emptied).emptied ≠ emptied := by
  induction definitions generalizing emptied with
  | nil => simp [sweep]
  | cons y rest ih =>
    have hchanged : (sweep (y :: rest) emptied).changed =
        ((visit emptied y).2.isSome ||
          (sweep rest ((visit emptied y).2.elim emptied emptied.insert)).changed) := rfl
    have hemptied : (sweep (y :: rest) emptied).emptied =
        (sweep rest ((visit emptied y).2.elim emptied emptied.insert)).emptied := rfl
    rw [hchanged, hemptied]
    cases hfound : (visit emptied y).2 with
    | none => exact ih emptied
    | some name =>
      -- what is found stays among the emptied, and was not there before
      have hnew : name ∈ (sweep rest (emptied.insert name)).emptied :=
        mem_emptied_sweep rest (by simp)
      have hne : (sweep rest (emptied.insert name)).emptied ≠ emptied := by
        intro heq
        exact not_mem_of_visit hfound (heq ▸ hnew)
      simp [hne]

private theorem finish_visit (h : Partly emptied x y) (hlast : (visit emptied y).2 = none) :
    finish emptied (visit emptied y).1 = pruneDefinition emptied x := by
  obtain ⟨items, rfl, hprune⟩ := h
  have hitems : pruneSelections emptied items = pruneSelections emptied x.items :=
    hprune emptied fun _ => id
  cases x with
  | operation o =>
    simp only [Definition.items] at hitems
    simp [visit, Definition.withItems, finish, pruneDefinition, hitems]
  | fragment f =>
    simp only [Definition.items] at hitems
    by_cases hname : f.name ∈ emptied <;>
      simp [visit, Definition.withItems, finish, pruneDefinition, hname, hitems]

private theorem filterMap_finish_sweep (h : List.Forall₂ (Partly emptied) original definitions)
    (hlast : (sweep definitions emptied).changed = false) :
    (sweep definitions emptied).definitions.filterMap (finish emptied) =
      original.filterMap (pruneDefinition emptied) := by
  induction definitions generalizing original with
  | nil =>
    cases h
    rfl
  | cons y rest ih =>
    cases h with
    | cons hxy hrest =>
      cases hfound : (visit emptied y).2 with
      | some name => simp [sweep, hfound] at hlast
      | none =>
        simp only [sweep, hfound, Option.elim_none, Option.isSome_none, Bool.false_or] at hlast ⊢
        rw [List.filterMap_cons, List.filterMap_cons, finish_visit hxy hfound, ih hrest hlast]

end Sweeps

variable {d : Document} {emptied : Emptied}

def missing (fragments : List Fragment) (emptied : Emptied) : Nat :=
  ((fragments.map Fragment.name).toFinset.filter (· ∉ emptied)).card

private theorem missing_round_lt {fragments : List Fragment}
    (h : round fragments emptied ≠ emptied) :
    missing fragments (round fragments emptied) < missing fragments emptied := by
  obtain ⟨f, hf, hnew, hold⟩ := exists_fragment_of_round_ne h
  have hname : f.name ∈ (fragments.map Fragment.name).toFinset :=
    List.mem_toFinset.mpr (List.mem_map_of_mem hf)
  have hsubset : (fragments.map Fragment.name).toFinset.filter (· ∉ round fragments emptied) ⊆
      (fragments.map Fragment.name).toFinset.filter (· ∉ emptied) := by
    intro name hmem
    obtain ⟨hfragment, hgone⟩ := Finset.mem_filter.mp hmem
    exact Finset.mem_filter.mpr ⟨hfragment, fun hin => hgone (mem_round_of_mem hin)⟩
  refine Finset.card_lt_card ((Finset.ssubset_iff_of_subset hsubset).mpr ⟨f.name, ?_, ?_⟩)
  · exact Finset.mem_filter.mpr ⟨hname, hold⟩
  · exact fun hmem => (Finset.mem_filter.mp hmem).2 hnew

section Settling

variable {definitions : List Definition}
  (h : List.Forall₂ (Partly emptied) d.definitions definitions)

include h

private theorem changed_sweep_iff_round_ne :
    (sweep definitions emptied).changed = true ↔ round d.fragments emptied ≠ emptied := by
  rw [changed_sweep_iff, emptied_sweep h]

private theorem settles_of_round_eq (hsame : round d.fragments emptied = emptied) :
    ∃ settled, Settles definitions emptied 1 settled emptied ∧
      settled.filterMap (finish emptied) = d.definitions.filterMap (pruneDefinition emptied) := by
  have hlast : (sweep definitions emptied).changed = false := by
    simpa [hsame] using changed_sweep_iff_round_ne h
  have hsettles := Settles.last hlast
  rw [emptied_sweep h, hsame] at hsettles
  exact ⟨_, hsettles, filterMap_finish_sweep h hlast⟩

/-- Rounds in place find what rounds find that write nothing. All but the last find a name, and what
stays in the end is what stays of the definitions as they were. -/
private theorem exists_settles {bound : Nat} (hbound : missing d.fragments emptied ≤ bound) :
    ∃ rounds settled, Settles definitions emptied rounds settled
        (settle d.fragments bound emptied) ∧
      rounds ≤ missing d.fragments emptied + 1 ∧
      settled.filterMap (finish (settle d.fragments bound emptied)) =
        d.definitions.filterMap (pruneDefinition (settle d.fragments bound emptied)) := by
  -- the bound covers the names not found yet, so a round finds nothing before it is used up
  induction bound generalizing emptied definitions with
  | zero =>
    have hsame : round d.fragments emptied = emptied := by
      refine Classical.byContradiction fun hne => ?_
      have hlt := missing_round_lt hne
      omega
    obtain ⟨settled, hsettles, hleft⟩ := settles_of_round_eq h hsame
    exact ⟨1, settled, hsettles, Nat.le_add_left 1 _, hleft⟩
  | succ bound ih =>
    rw [settle]
    by_cases hsame : round d.fragments emptied = emptied
    · obtain ⟨settled, hsettles, hleft⟩ := settles_of_round_eq h hsame
      rw [if_pos hsame]
      exact ⟨1, settled, hsettles, Nat.le_add_left 1 _, hleft⟩
    · have hlt := missing_round_lt hsame
      have hround : (sweep definitions emptied).emptied = round d.fragments emptied :=
        emptied_sweep h
      have hpartly := partly_sweep h
      rw [hround] at hpartly
      obtain ⟨rounds, settled, hsettles, hrounds, hleft⟩ := ih hpartly (by omega)
      rw [if_neg hsame]
      refine ⟨rounds + 1, settled, .more ((changed_sweep_iff_round_ne h).mpr hsame) ?_, ?_, hleft⟩
      · rwa [hround]
      · omega

end Settling

/-- What is taken away without the fragments of some names: their spreads and what these empty. -/
inductive Goes (names : Set String) : Selection → Prop
  | field {head : Field} {items : List Selection} :
      items ≠ [] → (∀ x ∈ items, Goes names x) → Goes names (.field head items)
  | spread {head : Spread} : head.name ∈ names → Goes names (.spread head)
  | inline {head : InlineFragment} {items : List Selection} :
      (∀ x ∈ items, Goes names x) → Goes names (.inline head items)

private theorem Goes.mono {names more : Set String} {x : Selection} (h : Goes names x)
    (hmore : names ⊆ more) : Goes more x := by
  induction h with
  | field hne _ ih => exact .field hne ih
  | spread hname => exact .spread (hmore hname)
  | inline _ ih => exact .inline ih

private theorem pruneSelection_eq_none_iff_goes {x : Selection} :
    pruneSelection emptied x = none ↔ Goes {name | name ∈ emptied} x := by
  constructor
  · intro h
    induction x with
    | field head items ih =>
      obtain ⟨hne, hitems⟩ := pruneSelection_field_eq_none_iff.mp h
      exact .field hne fun y hy => ih y hy (hitems y hy)
    | spread head => exact .spread (pruneSelection_spread_eq_none_iff.mp h)
    | inline head items ih =>
      have hitems := pruneSelection_inline_eq_none_iff.mp h
      exact .inline fun y hy => ih y hy (hitems y hy)
  · intro h
    induction h with
    | field hne _ ih => exact pruneSelection_field_eq_none_iff.mpr ⟨hne, ih⟩
    | spread hname => exact pruneSelection_spread_eq_none_iff.mpr hname
    | inline _ ih => exact pruneSelection_inline_eq_none_iff.mpr ih

/-- Names that hold each fragment that goes without the fragments of these names. -/
def ClosedUnder (fragments : List Fragment) : Set (Set String) :=
  {names | ∀ f ∈ fragments, (∀ x ∈ f.items, Goes names x) → f.name ∈ names}

private theorem isLeast_emptiedFragments (d : Document) :
    IsLeast (ClosedUnder d.fragments) {name | name ∈ emptiedFragments d} := by
  constructor
  · intro f hf hgoes
    refine mem_emptiedFragments hf (pruneSelections_eq_nil_iff.mpr fun x hx => ?_)
    exact pruneSelection_eq_none_iff_goes.mpr (hgoes x hx)
  · intro names hclosed name hname
    refine emptiedFragments_induction (fun emptied f hf hemptied hempty => ?_) name hname
    refine hclosed f hf fun x hx => ?_
    have hgone := pruneSelections_eq_nil_iff.mp hempty x hx
    exact (pruneSelection_eq_none_iff_goes.mp hgone).mono hemptied

private theorem emptiedFragments_perm {d more : Document}
    (h : d.definitions.Perm more.definitions) : emptiedFragments more = emptiedFragments d := by
  have hfragments : ClosedUnder more.fragments = ClosedUnder d.fragments := by
    have hperm : d.fragments.Perm more.fragments := h.filterMap _
    ext names
    exact forall_congr' fun f => by rw [hperm.mem_iff]
  have hleast := isLeast_emptiedFragments more
  rw [hfragments] at hleast
  have hsame := hleast.unique (isLeast_emptiedFragments d)
  exact Std.ExtTreeSet.ext_mem fun name => Set.ext_iff.mp hsame name

/-- The rounds of pruning end after at most one more than there are names of fragments, with the
least names that are closed under emptying. What stays of a definition does not depend on the order
of the definitions. -/
theorem pruneDocument_settles (d : Document) :
    (∃ rounds settled,
      (∀ rounds' settled' names, Settles d.definitions ∅ rounds' settled' names ↔
        rounds' = rounds ∧ settled' = settled ∧ names = emptiedFragments d) ∧
      rounds ≤ (d.fragments.map Fragment.name).toFinset.card + 1 ∧
      (pruneDocument d).definitions = settled.filterMap (finish (emptiedFragments d))) ∧
    IsLeast (ClosedUnder d.fragments) {name | name ∈ emptiedFragments d} ∧
    ∀ more : Document, d.definitions.Perm more.definitions →
      (pruneDocument d).definitions.Perm (pruneDocument more).definitions ∧
      emptiedFragments more = emptiedFragments d ∧
      (pruneDocument more).definitions =
        more.definitions.filterMap (pruneDefinition (emptiedFragments d)) := by
  refine ⟨?_, isLeast_emptiedFragments d, fun more hperm => ?_⟩
  · have hnames : missing d.fragments ∅ = (d.fragments.map Fragment.name).toFinset.card := by
      simp [missing]
    have hlength : missing d.fragments ∅ ≤ d.fragments.length := by
      rw [hnames, ← List.length_map Fragment.name]
      exact List.toFinset_card_le _
    obtain ⟨rounds, settled, hsettles, hrounds, hleft⟩ :=
      exists_settles (List.forall₂_same.mpr fun x _ => Partly.refl ∅ x) hlength
    refine ⟨rounds, settled, fun _ _ _ => ⟨hsettles.unique, ?_⟩, ?_, hleft.symm⟩
    · rintro ⟨rfl, rfl, rfl⟩
      exact hsettles
    · rwa [← hnames]
  · have hsame := emptiedFragments_perm hperm
    refine ⟨?_, hsame, ?_⟩
    · rw [pruneDocument, pruneDocument, hsame]
      exact hperm.filterMap _
    · rw [pruneDocument, hsame]

section Witness

private def spreadTo (name : String) : Selection :=
  .spread ⟨⟨1, 1⟩, name, []⟩

private def fragmentHolding (name : String) (items : List Selection) : Fragment :=
  ⟨⟨1, 1⟩, ⟨1, 1⟩, ⟨1, 1⟩, name, "Person", [], items⟩

private def spreadingQuery (names : List String) : Operation :=
  ⟨none, ⟨1, 1⟩, ⟨1, 1⟩, names.map spreadTo⟩

/-- `Outer` goes because `Inner` does, with the other fragment of that name. `Loop` spreads itself
and stays, as does the spread of a fragment that is missing. -/
private def knottedDocument : Document :=
  ⟨[.operation (spreadingQuery ["Outer", "Loop", "Missing"]),
    .fragment (fragmentHolding "Outer" [spreadTo "Inner"]),
    .fragment (fragmentHolding "Loop" [spreadTo "Loop"]),
    .fragment (fragmentHolding "Inner" []),
    .fragment (fragmentHolding "Inner" [spreadTo "Loop"])]⟩

theorem pruneDocument_settles_of_knotted :
    knottedDocument.definitions.Perm knottedDocument.definitions.reverse ∧
    (pruneDocument ⟨knottedDocument.definitions.reverse⟩).definitions.Perm
      [.operation (spreadingQuery ["Loop", "Missing"]),
        .fragment (fragmentHolding "Loop" [spreadTo "Loop"])] ∧
    ∃ rounds ≤ 4, ∃ settled, Settles knottedDocument.definitions ∅ rounds settled
      (emptiedFragments knottedDocument) := by
  have hpruned : (pruneDocument knottedDocument).definitions =
      [.operation (spreadingQuery ["Loop", "Missing"]),
        .fragment (fragmentHolding "Loop" [spreadTo "Loop"])] := by rfl
  have hnames : (knottedDocument.fragments.map Fragment.name).toFinset.card = 3 := by decide
  have hreverse := (List.reverse_perm knottedDocument.definitions).symm
  obtain ⟨⟨rounds, settled, hsettles, hrounds, -⟩, -, hperm⟩ :=
    pruneDocument_settles knottedDocument
  rw [hnames] at hrounds
  refine ⟨hreverse, ?_, rounds, hrounds, settled, (hsettles _ _ _).mpr ⟨rfl, rfl, rfl⟩⟩
  rw [← hpruned]
  exact (hperm ⟨knottedDocument.definitions.reverse⟩ hreverse).1.symm

end Witness

end FieldAuthorization.Prune
