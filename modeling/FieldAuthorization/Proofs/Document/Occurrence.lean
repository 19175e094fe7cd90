import FieldAuthorization.Redaction.Basic

/-!
Places in a document.

A selection occurs among other selections inside enclosures: the fields and inline fragments around
it, outermost first. The type at such a place is found by following the enclosures from the type of
the outermost selections.
-/

set_option autoImplicit false
set_option relaxedAutoImplicit false

namespace FieldAuthorization

theorem filterMap_eq_self {α : Type} {f : α → Option α} {l : List α}
    (h : ∀ x ∈ l, f x = some x) : l.filterMap f = l := by
  induction l with
  | nil => rfl
  | cons x rest ih =>
    obtain ⟨hx, hrest⟩ := List.forall_mem_cons.mp h
    rw [List.filterMap_cons_some hx, ih hrest]

/-- Induction on a selection: whatever holds of all selections below one passes to it. -/
@[induction_eliminator]
theorem Selection.induct {motive : Selection → Prop}
    (field : ∀ head items, (∀ x ∈ items, motive x) → motive (.field head items))
    (spread : ∀ head, motive (.spread head))
    (inline : ∀ head items, (∀ x ∈ items, motive x) → motive (.inline head items)) :
    ∀ x, motive x := by
  intro x
  refine @Selection.rec motive (fun items => ∀ x ∈ items, motive x) field spread inline ?_ ?_ x
  · intro x hx
    exact absurd hx List.not_mem_nil
  · intro y rest hy hrest x hx
    rcases List.mem_cons.mp hx with rfl | hx
    · exact hy
    · exact hrest x hx

inductive Enclosure
  | field (head : Field)
  | inline (head : InlineFragment)

def Enclosure.isMeta : Enclosure → Bool
  | .field head => FieldAuthorization.isMeta head.name
  | .inline _ => false

/-- The place inside the enclosures is not below a field of introspection. -/
def Exposed (trail : List Enclosure) : Prop :=
  ∀ e ∈ trail, e.isMeta = false

/-- A selection is among the selections, or below them inside the enclosures of the trail. -/
inductive Occurs : List Selection → List Enclosure → Selection → Prop
  | here {items : List Selection} {x : Selection} : x ∈ items → Occurs items [] x
  | field {items inner : List Selection} {head : Field} {trail : List Enclosure} {x : Selection} :
      .field head inner ∈ items → Occurs inner trail x → Occurs items (.field head :: trail) x
  | inline {items inner : List Selection} {head : InlineFragment} {trail : List Enclosure}
      {x : Selection} :
      .inline head inner ∈ items → Occurs inner trail x → Occurs items (.inline head :: trail) x

/-- The type inside the enclosures of a trail, where `next` is the type that a field of a type
returns. -/
def typeAlong (next : String → String → Option String) : String → List Enclosure → Option String
  | parent, [] => some parent
  | parent, .field head :: trail =>
    match next parent head.name with
    | none => none
    | some type => typeAlong next type trail
  | parent, .inline head :: trail => typeAlong next (head.condition.getD parent) trail

def Schema.returns? (s : Schema) (parent field : String) : Option String :=
  (s.field? parent field).map FieldDef.type

/-- The type at a place in selections on a type, as a schema gives it. -/
def Schema.typeAt (s : Schema) (parent : String) (trail : List Enclosure) : Option String :=
  typeAlong s.returns? parent trail

theorem occurs_nil_iff {items : List Selection} {x : Selection} :
    Occurs items [] x ↔ x ∈ items := by
  constructor
  · intro h
    cases h with
    | here hx => exact hx
  · exact .here

theorem occurs_field_iff {items : List Selection} {head : Field} {trail : List Enclosure}
    {x : Selection} :
    Occurs items (.field head :: trail) x ↔
      ∃ inner, .field head inner ∈ items ∧ Occurs inner trail x := by
  constructor
  · intro h
    cases h with
    | field hm hinner => exact ⟨_, hm, hinner⟩
  · rintro ⟨inner, hm, hinner⟩
    exact .field hm hinner

theorem occurs_inline_iff {items : List Selection} {head : InlineFragment}
    {trail : List Enclosure} {x : Selection} :
    Occurs items (.inline head :: trail) x ↔
      ∃ inner, .inline head inner ∈ items ∧ Occurs inner trail x := by
  constructor
  · intro h
    cases h with
    | inline hm hinner => exact ⟨_, hm, hinner⟩
  · rintro ⟨inner, hm, hinner⟩
    exact .inline hm hinner

theorem Occurs.mono {items more : List Selection} {trail : List Enclosure} {x : Selection}
    (h : Occurs items trail x) (hsub : items ⊆ more) : Occurs more trail x := by
  cases h with
  | here hx => exact .here (hsub hx)
  | field hm hinner => exact .field (hsub hm) hinner
  | inline hm hinner => exact .inline (hsub hm) hinner

theorem Occurs.of_mem {items : List Selection} {trail : List Enclosure} {x y : Selection}
    (hy : y ∈ items) (h : Occurs [y] trail x) : Occurs items trail x :=
  h.mono (by simpa using hy)

theorem Occurs.below_field {head : Field} {items : List Selection} {trail : List Enclosure}
    {x y : Selection} (hy : y ∈ items) (h : Occurs [y] trail x) :
    Occurs [.field head items] (.field head :: trail) x :=
  .field (List.mem_singleton.mpr rfl) (h.of_mem hy)

theorem Occurs.below_inline {head : InlineFragment} {items : List Selection}
    {trail : List Enclosure} {x y : Selection} (hy : y ∈ items) (h : Occurs [y] trail x) :
    Occurs [.inline head items] (.inline head :: trail) x :=
  .inline (List.mem_singleton.mpr rfl) (h.of_mem hy)

theorem not_occurs_nil {trail : List Enclosure} {x : Selection} : ¬ Occurs [] trail x := by
  rintro (h | ⟨h, -⟩ | ⟨h, -⟩) <;> exact List.not_mem_nil h

theorem Occurs.ne_nil {items : List Selection} {trail : List Enclosure} {x : Selection}
    (h : Occurs items trail x) : items ≠ [] := by
  rintro rfl
  exact not_occurs_nil h

theorem occurs_append {items more : List Selection} {trail : List Enclosure} {x : Selection} :
    Occurs (items ++ more) trail x ↔ Occurs items trail x ∨ Occurs more trail x := by
  constructor
  · intro h
    cases h with
    | here hx => exact (List.mem_append.mp hx).imp .here .here
    | field hm hinner => exact (List.mem_append.mp hm).imp (.field · hinner) (.field · hinner)
    | inline hm hinner => exact (List.mem_append.mp hm).imp (.inline · hinner) (.inline · hinner)
  · rintro (h | h)
    · exact h.mono (List.subset_append_left _ _)
    · exact h.mono (List.subset_append_right _ _)

@[simp] theorem exposed_nil : Exposed [] := by
  simp [Exposed]

@[simp] theorem exposed_field {head : Field} {trail : List Enclosure} :
    Exposed (.field head :: trail) ↔ isMeta head.name = false ∧ Exposed trail := by
  simp [Exposed, Enclosure.isMeta]

@[simp] theorem exposed_inline {head : InlineFragment} {trail : List Enclosure} :
    Exposed (.inline head :: trail) ↔ Exposed trail := by
  simp [Exposed, Enclosure.isMeta]

/-- Every fragment spread among or below the selections, and not below a field of introspection, has
a name with the property. -/
def EachSpread (good : String → Prop) (items : List Selection) : Prop :=
  ∀ trail head, Occurs items trail (.spread head) → Exposed trail → good head.name

namespace EachSpread

variable {good : String → Prop} {items : List Selection}

theorem of_mem {x : Selection} (h : EachSpread good items) (hx : x ∈ items) : EachSpread good [x] :=
  fun trail below hoccurs => h trail below (hoccurs.of_mem hx)

theorem of_field {head : Field} (h : EachSpread good [.field head items])
    (hmeta : isMeta head.name = false) {x : Selection} (hx : x ∈ items) : EachSpread good [x] :=
  fun _ below hoccurs hexposed =>
    h _ below (hoccurs.below_field hx) (exposed_field.mpr ⟨hmeta, hexposed⟩)

theorem of_inline {head : InlineFragment} (h : EachSpread good [.inline head items])
    {x : Selection} (hx : x ∈ items) : EachSpread good [x] :=
  fun _ below hoccurs hexposed =>
    h _ below (hoccurs.below_inline hx) (exposed_inline.mpr hexposed)

theorem of_spread {head : Spread} (h : EachSpread good [.spread head]) : good head.name :=
  h [] head (.here (List.mem_singleton.mpr rfl)) exposed_nil

end EachSpread

theorem Schema.name_of_field?_eq_some {s : Schema} {parent name : String} {d : FieldDef}
    (h : s.field? parent name = some d) : d.name = name := by
  obtain ⟨type, -, hfield⟩ := Option.bind_eq_some_iff.mp h
  simpa using List.find?_some hfield

theorem Schema.typeAt_field {s : Schema} {parent : String} {head : Field} {d : FieldDef}
    (h : s.field? parent head.name = some d) (trail : List Enclosure) :
    s.typeAt parent (.field head :: trail) = s.typeAt d.type trail := by
  simp [Schema.typeAt, typeAlong, Schema.returns?, h]

@[simp] theorem Schema.typeAt_inline (s : Schema) (parent : String) (head : InlineFragment)
    (trail : List Enclosure) :
    s.typeAt parent (.inline head :: trail) = s.typeAt (head.condition.getD parent) trail :=
  rfl

namespace Definition

def items : Definition → List Selection
  | .operation o => o.items
  | .fragment f => f.items

def withItems (items : List Selection) : Definition → Definition
  | .operation o => .operation { o with items := items }
  | .fragment f => .fragment { f with items := items }

def root : Definition → RedactionRoot
  | .operation o => .operation o.name
  | .fragment f => .fragment f.name

def onIntrospection : Definition → Bool
  | .operation _ => false
  | .fragment f => isMeta f.condition

/-- The type of a definition's outermost selections: for an operation the schema's root type or
else the conventional one, for a fragment its condition. -/
def rootType (s : Schema) : Definition → String
  | .operation o => (s.root? o.kind).getD o.kind.conventionalType
  | .fragment f => f.condition

@[simp] theorem items_withItems (x : Definition) (items : List Selection) :
    (x.withItems items).items = items := by
  cases x <;> rfl

@[simp] theorem withItems_items (x : Definition) : x.withItems x.items = x := by
  cases x <;> rfl

@[simp] theorem withItems_withItems (x : Definition) (items more : List Selection) :
    (x.withItems items).withItems more = x.withItems more := by
  cases x <;> rfl

@[simp] theorem rootType_withItems (s : Schema) (x : Definition) (items : List Selection) :
    (x.withItems items).rootType s = x.rootType s := by
  cases x <;> rfl

@[simp] theorem onIntrospection_withItems (x : Definition) (items : List Selection) :
    (x.withItems items).onIntrospection = x.onIntrospection := by
  cases x <;> rfl

theorem forall_fragment_withItems {x : Definition} {items : List Selection}
    {good : String → Prop} :
    (∀ f, x.withItems items = .fragment f → good f.name) ↔ ∀ f, x = .fragment f → good f.name := by
  cases x with
  | operation o => simp [withItems]
  | fragment f => simp [withItems]

@[simp] theorem isOperation_withItems (x : Definition) (items : List Selection) :
    (x.withItems items).isOperation = x.isOperation := by
  cases x <;> rfl

end Definition

namespace Document

variable {d : Document}

theorem mem_operations {o : Operation} : o ∈ d.operations ↔ .operation o ∈ d.definitions := by
  unfold operations
  rw [List.mem_filterMap]
  constructor
  · rintro ⟨x, hx, hxo⟩
    cases x <;> simp_all
  · intro h
    exact ⟨_, h, rfl⟩

theorem mem_fragments {f : Fragment} : f ∈ d.fragments ↔ .fragment f ∈ d.definitions := by
  unfold fragments
  rw [List.mem_filterMap]
  constructor
  · rintro ⟨x, hx, hxf⟩
    cases x <;> simp_all
  · intro h
    exact ⟨_, h, rfl⟩

theorem mem_of_fragment?_eq_some {name : String} {f : Fragment} (h : d.fragment? name = some f) :
    f ∈ d.fragments ∧ f.name = name := by
  refine ⟨List.mem_reverse.mp (List.mem_of_find?_eq_some h), ?_⟩
  simpa using List.find?_some h

end Document

end FieldAuthorization
