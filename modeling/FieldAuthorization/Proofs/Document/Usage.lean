import FieldAuthorization.Proofs.Document.Occurrence

/-!
What the operations of a document use.

A fragment is used if spreads lead to it from an operation, and a variable if an operation or such
a fragment mentions it. Both can be asked of a part of the selections only, as if the others were
taken out.
-/

set_option autoImplicit false
set_option relaxedAutoImplicit false

namespace FieldAuthorization

/-- The value is the variable of the name or holds it. -/
inductive Value.Mentions (name : String) : Value → Prop
  | var : Mentions name (.var name)
  | list {items : List Value} {v : Value} :
      v ∈ items → Mentions name v → Mentions name (.list items)
  | object {members : List (String × Value)} {key : String} {v : Value} :
      (key, v) ∈ members → Mentions name v → Mentions name (.object members)

def ArgumentsMention (name : String) (arguments : List (String × Value)) : Prop :=
  ∃ key v, (key, v) ∈ arguments ∧ v.Mentions name

def DirectivesMention (name : String) (directives : List Directive) : Prop :=
  ∃ d ∈ directives, ArgumentsMention name d.arguments

/-- The field or inline fragment itself mentions the variable, whatever is selected below it. -/
def Enclosure.Mentions (name : String) : Enclosure → Prop
  | .field head => ArgumentsMention name head.arguments ∨ DirectivesMention name head.directives
  | .inline head => DirectivesMention name head.directives

def Selection.Mentions (name : String) : Selection → Prop
  | .field head _ => (Enclosure.field head).Mentions name
  | .spread head => DirectivesMention name head.directives
  | .inline head _ => (Enclosure.inline head).Mentions name

def Operation.variables (o : Operation) : List VariableDefinition :=
  (o.heading.map Heading.variableDefs).getD []

/-- A part of definitions: the selections that belong to it, inside which enclosures. -/
abbrev Part := Definition → List Enclosure → Selection → Prop

namespace Definition

def whole : Part :=
  fun x trail y => Occurs x.items trail y

/-- What stands in front of a definition's braces. -/
def directives : Definition → List Directive
  | .operation o => (o.heading.map Heading.directives).getD []
  | .fragment f => f.directives

/-- The definition mentions the variable in front of its braces, in a selection of the part or in a
field or inline fragment around one. -/
def Mentions (x : Definition) (part : Part) (name : String) : Prop :=
  DirectivesMention name x.directives ∨
    ∃ trail y, part x trail y ∧ (y.Mentions name ∨ ∃ e ∈ trail, e.Mentions name)

@[simp] theorem directives_withItems (x : Definition) (items : List Selection) :
    (x.withItems items).directives = x.directives := by
  cases x <;> rfl

end Definition

namespace Document

/-- Spreads of the part lead to the name from an operation, through fragments reached before. -/
inductive Reaches (d : Document) (part : Part) : String → Prop
  | spread {x : Definition} {trail : List Enclosure} {head : Spread} :
      x ∈ d.definitions → (∀ f, x = .fragment f → Reaches d part f.name) →
      part x trail (.spread head) → Reaches d part head.name

/-- An operation or a fragment that is reached mentions the variable. -/
def Uses (d : Document) (part : Part) (name : String) : Prop :=
  ∃ x ∈ d.definitions, (∀ f, x = .fragment f → d.Reaches part f.name) ∧ x.Mentions part name

def FragmentsUsed (d : Document) : Prop :=
  ∀ f ∈ d.fragments, d.Reaches Definition.whole f.name

def VariablesUsed (d : Document) : Prop :=
  ∀ o ∈ d.operations, ∀ v ∈ o.variables, d.Uses Definition.whole v.name

end Document

def Selection.enclosure? : Selection → Option Enclosure
  | .field head _ => some (.field head)
  | .spread _ => none
  | .inline head _ => some (.inline head)

theorem Selection.mentions_of_enclosure? {name : String} {x : Selection} {e : Enclosure}
    (h : x.enclosure? = some e) : x.Mentions name ↔ e.Mentions name := by
  cases x <;> cases h <;> rfl

theorem Occurs.append {items : List Selection} {trail below : List Enclosure} {x y : Selection}
    (h : Occurs items trail x) (hy : Occurs [x] below y) : Occurs items (trail ++ below) y := by
  induction h with
  | here hx => exact hy.of_mem hx
  | field hm _ ih => exact .field hm (ih hy)
  | inline hm _ ih => exact .inline hm (ih hy)

theorem Occurs.eq_or_enclosure {x y : Selection} {trail : List Enclosure} (h : Occurs [x] trail y) :
    (trail = [] ∧ y = x) ∨ ∃ e rest, trail = e :: rest ∧ x.enclosure? = some e := by
  cases h with
  | here hx => exact .inl ⟨rfl, List.mem_singleton.mp hx⟩
  | field hm _ =>
    obtain rfl := List.mem_singleton.mp hm
    exact .inr ⟨_, _, rfl, rfl⟩
  | inline hm _ =>
    obtain rfl := List.mem_singleton.mp hm
    exact .inr ⟨_, _, rfl, rfl⟩

theorem Occurs.exists_enclosing {items : List Selection} {trail : List Enclosure} {x : Selection}
    (h : Occurs items trail x) {e : Enclosure} (he : e ∈ trail) :
    ∃ before y, Occurs items before y ∧ y.enclosure? = some e := by
  induction h with
  | here _ => cases he
  | field hm _ ih =>
    rcases List.mem_cons.mp he with rfl | he
    · exact ⟨[], _, .here hm, rfl⟩
    · obtain ⟨before, y, hy, hye⟩ := ih he
      exact ⟨_, y, .field hm hy, hye⟩
  | inline hm _ ih =>
    rcases List.mem_cons.mp he with rfl | he
    · exact ⟨[], _, .here hm, rfl⟩
    · obtain ⟨before, y, hy, hye⟩ := ih he
      exact ⟨_, y, .inline hm hy, hye⟩

/-- In a whole definition a variable is mentioned in front of the braces or by a selection, since
the enclosures are selections too. -/
theorem Definition.mentions_whole_iff {x : Definition} {name : String} :
    x.Mentions whole name ↔ DirectivesMention name x.directives ∨
      ∃ trail y, Occurs x.items trail y ∧ y.Mentions name := by
  refine or_congr_right ⟨?_, fun ⟨trail, y, hy, hmention⟩ => ⟨trail, y, hy, .inl hmention⟩⟩
  rintro ⟨trail, y, hy, hmention | ⟨e, he, hmention⟩⟩
  · exact ⟨trail, y, hy, hmention⟩
  · obtain ⟨before, z, hz, hze⟩ := hy.exists_enclosing he
    exact ⟨before, z, hz, (Selection.mentions_of_enclosure? hze).mpr hmention⟩

end FieldAuthorization
