import FieldAuthorization.Document.Parser
import FieldAuthorization.Proofs.Document.Occurrence

/-!
Braces hold at least one selection.

A text can leave the braces of a field away but not leave them empty, so in a document that was
read from a text every definition and every inline fragment selects something.
-/

set_option autoImplicit false
set_option relaxedAutoImplicit false

namespace FieldAuthorization

/-- Every inline fragment at or below the selection selects something. -/
inductive Selection.Filled : Selection → Prop
  | field {head : Field} {items : List Selection} :
      (∀ x ∈ items, Filled x) → Filled (.field head items)
  | spread {head : Spread} : Filled (.spread head)
  | inline {head : InlineFragment} {items : List Selection} :
      items ≠ [] → (∀ x ∈ items, Filled x) → Filled (.inline head items)

def FilledBraces (items : List Selection) : Prop :=
  items ≠ [] ∧ ∀ x ∈ items, x.Filled

def Document.Filled (d : Document) : Prop :=
  ∀ x ∈ d.definitions, FilledBraces x.items

namespace Phrase

variable {α β : Type}

/-- Whatever the phrase reads has the property. -/
def Yields (p : Phrase α) (good : α → Prop) : Prop :=
  ∀ ts value rest, p ts = some (value, rest) → good value

namespace Yields

variable {p : Phrase α} {good : α → Prop} {fine : β → Prop}

private theorem any (p : Phrase α) : p.Yields fun _ => True :=
  fun _ _ _ _ => trivial

private theorem pure {value : α} (h : good value) : Yields (Pure.pure value) good := by
  intro ts value' rest hrun
  cases hrun
  exact h

private theorem failure : Yields (Alternative.failure : Phrase α) good := by
  intro ts value rest hrun
  cases hrun

private theorem bind {f : α → Phrase β} (hp : p.Yields good)
    (hf : ∀ value, good value → (f value).Yields fine) :
    Yields (p >>= f) fine := by
  intro ts value rest hrun
  obtain ⟨⟨first, after⟩, hfirst, hrest⟩ := Option.bind_eq_some_iff.mp hrun
  exact hf first (hp ts first after hfirst) after value rest hrest

private theorem after {f : α → Phrase β} (hf : ∀ value, (f value).Yields fine) :
    Yields (p >>= f) fine :=
  (any p).bind fun value _ => hf value

end Yields

end Phrase

end FieldAuthorization
