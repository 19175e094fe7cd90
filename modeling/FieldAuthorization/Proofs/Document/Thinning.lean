import FieldAuthorization.Proofs.Document.Occurrence

/-!
Documents that come from one another by taking out selections and fragments.

A thinned selection has the same head and some of the selections below, themselves thinned and in
the same order. Where selections that are left empty are pruned, no field with selections below it
loses them all.
-/

set_option autoImplicit false
set_option relaxedAutoImplicit false

namespace FieldAuthorization

/-- A list with members of a kind taken out, each of the others being replaced by a related one. -/
inductive Thinned {α : Type} (drops : α → Prop) (R : α → α → Prop) : List α → List α → Prop
  | nil : Thinned drops R [] []
  | drop {left items : List α} {x : α} :
      drops x → Thinned drops R left items → Thinned drops R left (x :: items)
  | keep {left items : List α} {x y : α} :
      R x y → Thinned drops R left items → Thinned drops R (x :: left) (y :: items)

namespace Thinned

variable {α β : Type} {drops : α → Prop} {R : α → α → Prop} {left items : List α}

theorem refl (h : ∀ x ∈ items, R x x) : Thinned drops R items items := by
  induction items with
  | nil => exact .nil
  | cons x rest ih =>
    obtain ⟨hx, hrest⟩ := List.forall_mem_cons.mp h
    exact .keep hx (ih hrest)

theorem eq_nil (h : Thinned drops R left []) : left = [] := by
  cases h
  rfl

theorem exists_of_mem (h : Thinned drops R left items) {y : α} (hy : y ∈ items) :
    drops y ∨ ∃ x ∈ left, R x y := by
  induction h with
  | nil => exact absurd hy List.not_mem_nil
  | drop hx _ ih =>
    rcases List.mem_cons.mp hy with rfl | hy
    · exact .inl hx
    · exact ih hy
  | keep hxy _ ih =>
    rcases List.mem_cons.mp hy with rfl | hy
    · exact .inr ⟨_, List.mem_cons_self, hxy⟩
    · exact (ih hy).imp id fun ⟨x, hx, hR⟩ => ⟨x, List.mem_cons_of_mem _ hx, hR⟩

/-- Lists stay thinned where whatever stays of the first has a counterpart in the second. -/
theorem filterMap {more : β → Prop} {S : β → β → Prop} {f g : α → Option β}
    (h : Thinned drops R left items)
    (hkeep : ∀ x y, y ∈ items → R x y → ∀ z, f x = some z → ∃ w, g y = some w ∧ S z w)
    (hloss : ∀ x y w, R x y → f x = none → g y = some w → more w)
    (hdrop : ∀ y w, drops y → g y = some w → more w) :
    Thinned more S (left.filterMap f) (items.filterMap g) := by
  induction h with
  | nil => exact .nil
  | @drop left items y hy _ ih =>
    have hrest := ih fun x z hz => hkeep x z (List.mem_cons_of_mem y hz)
    rw [List.filterMap_cons]
    cases hgy : g y with
    | none => exact hrest
    | some w => exact .drop (hdrop y w hy hgy) hrest
  | @keep left items x y hxy _ ih =>
    have hrest := ih fun x z hz => hkeep x z (List.mem_cons_of_mem y hz)
    rw [List.filterMap_cons, List.filterMap_cons]
    cases hfx : f x with
    | some z =>
      obtain ⟨w, hgy, hzw⟩ := hkeep x y List.mem_cons_self hxy z hfx
      rw [hgy]
      exact .keep hzw hrest
    | none =>
      cases hgy : g y with
      | none => exact hrest
      | some w => exact .drop (hloss x y w hxy hfx hgy) hrest

theorem filterMap_of_forall {S : β → β → Prop} {f g : α → Option β} {l : List α}
    (h : ∀ x ∈ l, ∀ y, f x = some y → ∃ z, g x = some z ∧ S y z) :
    Thinned (fun _ => True) S (l.filterMap f) (l.filterMap g) := by
  have hself : Thinned (fun _ => False) Eq l l := refl fun _ _ => rfl
  refine hself.filterMap ?_ (fun _ _ _ _ _ _ => trivial) fun _ _ _ _ => trivial
  rintro x _ hx rfl y hy
  exact h x hx y hy

theorem map {S : β → β → Prop} {more : β → Prop} {f g : α → β} {l : List α}
    (h : ∀ x ∈ l, S (f x) (g x)) : Thinned more S (l.map f) (l.map g) := by
  induction l with
  | nil => exact .nil
  | cons x rest ih =>
    obtain ⟨hx, hrest⟩ := List.forall_mem_cons.mp h
    exact .keep hx (ih hrest)

private theorem trans {S T : α → α → Prop} {more : List α} (h : Thinned drops R left items)
    (h' : Thinned drops S items more) (hdrops : ∀ x y, S x y → drops x → drops y)
    (hRS : ∀ x y z, z ∈ more → R x y → S y z → T x z) : Thinned drops T left more := by
  induction h' generalizing left with
  | nil => rw [h.eq_nil]; exact .nil
  | drop hz _ ih =>
    exact .drop hz (ih h fun x y z hz => hRS x y z (List.mem_cons_of_mem _ hz))
  | keep hyz _ ih =>
    have hrest := fun x y z hz => hRS x y z (List.mem_cons_of_mem _ hz)
    cases h with
    | drop hy h => exact .drop (hdrops _ _ hyz hy) (ih h hrest)
    | keep hxy h => exact .keep (hRS _ _ _ List.mem_cons_self hxy hyz) (ih h hrest)

end Thinned

/-- The first selection is the second with selections below it taken out; under pruning, a field
with selections below it keeps one. -/
inductive Selection.ThinnedFrom (policy : EmptySelections) : Selection → Selection → Prop
  | field {head : Field} {left items : List Selection} :
      (policy = .prune → left = [] → items = []) →
      Thinned (fun _ => True) (ThinnedFrom policy) left items →
      ThinnedFrom policy (.field head left) (.field head items)
  | spread (head : Spread) : ThinnedFrom policy (.spread head) (.spread head)
  | inline {head : InlineFragment} {left items : List Selection} :
      Thinned (fun _ => True) (ThinnedFrom policy) left items →
      ThinnedFrom policy (.inline head left) (.inline head items)

variable {policy : EmptySelections}

theorem Selection.ThinnedFrom.refl (x : Selection) : x.ThinnedFrom policy x := by
  induction x with
  | field head items ih => exact .field (fun _ h => h) (.refl ih)
  | spread head => exact .spread head
  | inline head items ih => exact .inline (.refl ih)

private theorem Selection.ThinnedFrom.trans {x y z : Selection} (h : x.ThinnedFrom policy y)
    (h' : y.ThinnedFrom policy z) : x.ThinnedFrom policy z := by
  induction z generalizing x y with
  | field head items ih =>
    cases h' with
    | field hempty' hthin' =>
      cases h with
      | field hempty hthin =>
        refine .field (fun hpolicy hleft => hempty' hpolicy (hempty hpolicy hleft)) ?_
        exact hthin.trans hthin' (fun _ _ _ _ => trivial) fun _ _ z hz hxy hyz => ih z hz hxy hyz
  | spread head =>
    cases h'
    exact h
  | inline head items ih =>
    cases h' with
    | inline hthin' =>
      cases h with
      | inline hthin =>
        refine .inline ?_
        exact hthin.trans hthin' (fun _ _ _ _ => trivial) fun _ _ z hz hxy hyz => ih z hz hxy hyz

abbrev ThinnedSelections (policy : EmptySelections) : List Selection → List Selection → Prop :=
  Thinned (fun _ => True) (Selection.ThinnedFrom policy)

def Definition.ThinnedFrom (policy : EmptySelections) (x y : Definition) : Prop :=
  ∃ items, x = y.withItems items ∧ ThinnedSelections policy items y.items

/-- The first document is the second with selections and fragments taken out, and nothing else. -/
def Document.ThinnedFrom (policy : EmptySelections) (d more : Document) : Prop :=
  Thinned (fun x => x.isOperation = false) (Definition.ThinnedFrom policy) d.definitions
    more.definitions

theorem Definition.ThinnedFrom.refl (x : Definition) : x.ThinnedFrom policy x :=
  ⟨x.items, (x.withItems_items).symm, .refl fun y _ => .refl y⟩

private theorem Definition.ThinnedFrom.trans {x y z : Definition} (h : x.ThinnedFrom policy y)
    (h' : y.ThinnedFrom policy z) : x.ThinnedFrom policy z := by
  obtain ⟨items, rfl, hthin⟩ := h
  obtain ⟨middle, rfl, hthin'⟩ := h'
  rw [Definition.items_withItems] at hthin
  refine ⟨items, Definition.withItems_withItems z middle items, ?_⟩
  exact hthin.trans hthin' (fun _ _ _ _ => trivial) fun _ _ _ _ hxy hyz => hxy.trans hyz

theorem Document.ThinnedFrom.trans {d middle more : Document} (h : d.ThinnedFrom policy middle)
    (h' : middle.ThinnedFrom policy more) : d.ThinnedFrom policy more := by
  refine Thinned.trans h h' ?_ fun _ _ _ _ hxy hyz => hxy.trans hyz
  rintro _ y ⟨items, rfl, -⟩ hfragment
  rwa [Definition.isOperation_withItems] at hfragment

end FieldAuthorization
