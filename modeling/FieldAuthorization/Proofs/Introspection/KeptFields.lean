import FieldAuthorization.Proofs.Introspection.Values
import FieldAuthorization.Proofs.Permissions.Coherence

/-!
Fields that the filter keeps are whole.

A value of introspection agrees with a schema if each field that it lists under a type returns and
takes the types that the field does in the schema. Since permitted fields return and take types that
are shown, the filter takes neither the type of a field that it keeps, nor a type inside wrappers of
that type, nor an argument of the field.
-/

set_option autoImplicit false
set_option relaxedAutoImplicit false

namespace FieldAuthorization.Introspection

/-- The types that a value refers to are as asked: the name of a type, that inside a wrapper, and
the type of each input. -/
inductive Refers (asked : String → Prop) : String → (list : Bool) → Json → Prop
  | scalar {type : String} {list : Bool} {value : Json} :
      isScalar value = true → Refers asked type list value
  | named {members : Json.Members} {name : String} :
      nameOf members = .named name → asked name → Refers asked "__Type" false (.object members)
  | wrapper {members : Json.Members} :
      nameOf members = .unnamed →
      (∀ value, ("ofType", value) ∈ members → Refers asked "__Type" false value) →
      Refers asked "__Type" false (.object members)
  | input {members : Json.Members} :
      (∀ value, ("type", value) ∈ members → Refers asked "__Type" false value) →
      Refers asked "__InputValue" false (.object members)
  | inputs {items : List Json} :
      (∀ item ∈ items, Refers asked "__InputValue" false item) →
      Refers asked "__InputValue" true (.array items)

namespace Refers

variable {asked wanted : String → Prop} {type : String} {list : Bool} {members : Json.Members}

private theorem imp {value : Json} (h : ∀ name, asked name → wanted name)
    (hrefers : Refers asked type list value) : Refers wanted type list value := by
  induction hrefers with
  | scalar hscalar => exact .scalar hscalar
  | named hname hasked => exact .named hname (h _ hasked)
  | wrapper hname _ ih => exact .wrapper hname ih
  | input _ ih => exact .input ih
  | inputs _ ih => exact .inputs ih

private theorem item {items : List Json} {item : Json} (h : Refers asked type true (.array items))
    (hitem : item ∈ items) : Refers asked type false item := by
  cases h with
  | scalar hscalar => simp [isScalar] at hscalar
  | inputs h => exact h item hitem

private theorem type_of_input (h : Refers asked type false (.object members))
    (htype : type = "__InputValue") :
    ∀ value, ("type", value) ∈ members → Refers asked "__Type" false value := by
  cases h with
  | scalar hscalar => simp [isScalar] at hscalar
  | named => simp at htype
  | wrapper => simp at htype
  | input h => exact h

private theorem type_of_wrapper (h : Refers asked type false (.object members))
    (htype : type = "__Type") (hname : nameOf members = .unnamed) :
    ∀ value, ("ofType", value) ∈ members → Refers asked "__Type" false value := by
  cases h with
  | scalar hscalar => simp [isScalar] at hscalar
  | named hnamed _ => simp [hname] at hnamed
  | wrapper _ h => exact h
  | input => simp at htype

end Refers

/-- A field object of a type returns and takes what the field of its name does in the schema. -/
def FieldAgrees (s : Schema) (parent : String) (members : Json.Members) : Prop :=
  ∀ name d, nameOf members = .named name → s.field? parent name = some d →
    (∀ value, ("type", value) ∈ members → Refers (· = d.type) "__Type" false value) ∧
    (∀ value, ("args", value) ∈ members →
      Refers (fun type => ∃ argument ∈ d.arguments, argument.type = type)
        "__InputValue" true value)

/-- Types and fields carry their names, null for wrappers, and the fields of a type agree with the
schema. -/
structure AgreesWith (s : Schema) (type : String) (members : Json.Members) : Prop where
  named : isNamed type = true → nameOf members ≠ .unknown
  fields : ∀ parent, type = "__Type" → nameOf members = .named parent →
    ∀ items, ("fields", .array items) ∈ members →
      ∀ field, .object field ∈ items → FieldAgrees s parent field

/-- Whether a member stays: the type and the arguments of a field that is not one of introspection,
the type of an argument that stays itself, and the type inside a wrapper that does. -/
def staysIn (held : Bool) (type : String) (name : ObjectName) (key : String) : Bool :=
  match type, key, name with
  | "__Field", "type", .named field => !isMeta field
  | "__Field", "args", .named field => !isMeta field
  | "__InputValue", "type", _ => held
  | "__Type", "ofType", .unnamed => held
  | _, _, _ => false

mutual

/-- What is left of a value of a type of introspection if nothing is taken from it but added names,
types that are set to null and entries of lists, and nothing of what stays. -/
inductive Trimmed : (held : Bool) → String → (list : Bool) → Json → Json → Prop
  | scalar {held list : Bool} {type : String} {value : Json} :
      isScalar value = true → Trimmed held type list value value
  | gone {members : Json.Members} : Trimmed false "__Type" false .null (.object members)
  | array {held : Bool} {type : String} {left items : List Json} :
      TrimmedItems held type left items → Trimmed held type true (.array left) (.array items)
  | object {held : Bool} {type : String} {left members : Json.Members} :
      TrimmedMembers held type (nameOf members) left members →
      Trimmed held type false (.object left) (.object members)

inductive TrimmedItems : Bool → String → List Json → List Json → Prop
  | nil {held : Bool} {type : String} : TrimmedItems held type [] []
  | drop {type : String} {left items : List Json} (item : Json) :
      TrimmedItems false type left items → TrimmedItems false type left (item :: items)
  | keep {held : Bool} {type : String} {left items : List Json} {kept item : Json} :
      Trimmed held type false kept item → TrimmedItems held type left items →
      TrimmedItems held type (kept :: left) (item :: items)

inductive TrimmedMembers : Bool → String → ObjectName → Json.Members → Json.Members → Prop
  | nil {held : Bool} {type : String} {name : ObjectName} : TrimmedMembers held type name [] []
  | name {held : Bool} {type : String} {name : ObjectName} {left members : Json.Members}
      (value : Json) :
      isNamed type = true → TrimmedMembers held type name left members →
      TrimmedMembers held type name left ((nameKey, value) :: members)
  | leaf {held : Bool} {type : String} {name : ObjectName} {left members : Json.Members}
      {key : String} (value : Json) :
      childType? type key = none → TrimmedMembers held type name left members →
      TrimmedMembers held type name ((key, value) :: left) ((key, value) :: members)
  | member {held : Bool} {type child : String} {name : ObjectName} {left members : Json.Members}
      {key : String} {kept value : Json} :
      childType? type key = some child →
      Trimmed (staysIn held type name key) child (returnsList key) kept value →
      TrimmedMembers held type name left members →
      TrimmedMembers held type name ((key, kept) :: left) ((key, value) :: members)

end

variable {s : Schema} {v : Verifier} {place inner : Place} {type child : String} {list held : Bool}
  {members : Json.Members}

abbrev RefersToShown (v : Verifier) : String → (list : Bool) → Json → Prop :=
  Refers fun name => v.showsType name = true

private theorem refersToHidden_of_refers {value : Json}
    (h : RefersToShown v type list value) (htype : type = "__Type") :
    refersToHidden v value = false := by
  induction h with
  | @scalar _ _ value hscalar => cases value <;> simp_all [refersToHidden, isScalar]
  | named hname hshown => simp [refersToHidden, hname, hshown]
  | @wrapper members hname _ ih =>
    rw [refersToHidden, hname]
    simp only [wrapsHidden_eq, Option.any_eq_false]
    intro value hvalue
    simp [ih value (mem_of_get?_eq_some hvalue) rfl]
  | input => simp at htype
  | inputs => simp at htype

private theorem admits_of_refers (hplace : place.holds? = some (type, false))
    (h : RefersToShown v type false (.object members)) :
    admits v place members = true := by
  cases h with
  | scalar hscalar => simp [isScalar] at hscalar
  | named hname hshown =>
    cases place <;> simp_all [Place.holds?, admits, isHidden]
  | wrapper hname _ =>
    cases place <;> simp_all [Place.holds?, admits, isHidden]
  | input htype =>
    have hnone : (members.get? "type").any (refersToHidden v) = false := by
      rw [Option.any_eq_false]
      intro value hvalue
      simp [refersToHidden_of_refers (htype value (mem_of_get?_eq_some hvalue)) rfl]
    cases place <;> simp_all [Place.holds?, admits]

private theorem exists_filterAt_of_refers {value : Json}
    (hplace : place.holds? = some (type, false)) (htype : type ≠ "__Field")
    (h : RefersToShown v type false value) :
    ∃ left, filterAt v place value = some left := by
  have hfield : ∀ parent, place ≠ .field parent := by
    rintro parent rfl
    simp [Place.holds?, eq_comm, htype] at hplace
  cases value with
  | object members => exact ⟨_, by rw [filterAt, if_pos (admits_of_refers hplace h)]⟩
  | array items => cases h with | scalar hscalar => simp [isScalar] at hscalar
  | null => exact ⟨_, filterAt_scalar rfl hfield⟩
  | boolean _ => exact ⟨_, filterAt_scalar rfl hfield⟩
  | number _ => exact ⟨_, filterAt_scalar rfl hfield⟩
  | text _ => exact ⟨_, filterAt_scalar rfl hfield⟩

/-- The field objects at a place whose type is known agree with the schema. -/
def FieldsAgree (s : Schema) : Place → Json → Prop
  | .field (some parent), .object members => FieldAgrees s parent members
  | .fieldList (some parent), .array items =>
    ∀ field, .object field ∈ items → FieldAgrees s parent field
  | _, _ => True

private theorem fieldsAgree_item {items : List Json} {item : Json} {entry : Place}
    (h : FieldsAgree s place (.array items)) (hentry : place.items? = some entry)
    (hitem : item ∈ items) : FieldsAgree s entry item := by
  unfold FieldsAgree
  split
  · rename_i parent field
    cases place <;> simp [Place.items?] at hentry
    subst hentry
    exact h field hitem
  · rename_i parent _
    cases place <;> simp [Place.items?] at hentry
  · trivial

private theorem eq_fields_of_childType? {key : String} (h : childType? type key = some "__Field") :
    type = "__Type" ∧ key = "fields" := by
  have hmem := mem_of_childType?_eq_some h
  simpa using hmem

private theorem fieldsAgree_member {key : String} {value : Json}
    (hagrees : AgreesWith s type members) (hplace : place.holds? = some (type, false))
    (hm : (key, value) ∈ members) (hchild : childType? type key = some child)
    (hinner : place.member? (knownName members) key = some inner) : FieldsAgree s inner value := by
  obtain ⟨_, hinner', hholds⟩ := member?_of_childType? hplace (knownName members) hchild
  obtain rfl := Option.some.inj (hinner.symm.trans hinner')
  unfold FieldsAgree
  split
  · simp only [Place.holds?, Option.some.injEq, Prod.mk.injEq] at hholds
    obtain ⟨rfl, hlist⟩ := hholds
    obtain ⟨-, rfl⟩ := eq_fields_of_childType? hchild
    simp [returnsList] at hlist
  · rename_i parent items
    simp only [Place.holds?, Option.some.injEq, Prod.mk.injEq] at hholds
    obtain ⟨rfl, -⟩ := hholds
    obtain ⟨rfl, rfl⟩ := eq_fields_of_childType? hchild
    have hknown : knownName members = some parent := by
      cases place <;> simp [Place.holds?] at hplace <;>
        simpa [Place.member?, typeMember, nameKey] using hinner
    have hname : nameOf members = .named parent := by
      unfold knownName at hknown
      split at hknown <;> simp_all
    exact hagrees.fields parent rfl hname items hm
  · trivial

private theorem refers_of_admits_field {parent : Option String} {name : String}
    (hv : v.permissions.Coherent s) (hadmits : admits v (.field parent) members = true)
    (hfields : FieldsAgree s (.field parent) (.object members))
    (hname : nameOf members = .named name) (hmeta : isMeta name = false) :
    (∀ value, ("type", value) ∈ members → RefersToShown v "__Type" false value) ∧
      (∀ value, ("args", value) ∈ members → RefersToShown v "__InputValue" true value) := by
  have hallows : parent.any (fun parent => v.allows parent name) = true := by
    simpa [admits, keepsField, hname, hmeta] using hadmits
  obtain ⟨parent, rfl, hallows⟩ := (Option.any_eq_true _ _).mp hallows
  obtain ⟨d, hd, -, htype, harguments⟩ := hv parent name hallows
  obtain ⟨hreturned, htaken⟩ := hfields name d hname hd
  have hshows : ∀ type, v.permissions.shows type = true → v.showsType type = true := by
    intro type hshown
    simp [Verifier.showsType, hshown]
  refine ⟨fun value hm => (hreturned value hm).imp ?_, fun value hm => (htaken value hm).imp ?_⟩
  · rintro _ rfl
    exact hshows _ htype
  · rintro _ ⟨argument, hm, rfl⟩
    exact hshows _ (harguments argument hm)

private theorem refers_of_staysIn {key : String} {value : Json} (hv : v.permissions.Coherent s)
    (hplace : place.holds? = some (type, false)) (hadmits : admits v place members = true)
    (hfields : FieldsAgree s place (.object members))
    (hheld : held = true → RefersToShown v type false (.object members))
    (hm : (key, value) ∈ members) (hstays : staysIn held type (nameOf members) key = true)
    (hchild : childType? type key = some child) :
    child ≠ "__Field" ∧ RefersToShown v child (returnsList key) value := by
  unfold staysIn at hstays
  split at hstays
  · rename_i name hname
    cases hchild
    cases place <;> simp [Place.holds?] at hplace
    have hfield := refers_of_admits_field hv hadmits hfields hname (by simpa using hstays)
    exact ⟨by simp, hfield.1 value hm⟩
  · rename_i name hname
    cases hchild
    cases place <;> simp [Place.holds?] at hplace
    have hfield := refers_of_admits_field hv hadmits hfields hname (by simpa using hstays)
    exact ⟨by simp, hfield.2 value hm⟩
  · cases hchild
    exact ⟨by simp, (hheld hstays).type_of_input rfl value hm⟩
  · rename_i hname
    cases hchild
    exact ⟨by simp, (hheld hstays).type_of_wrapper rfl hname value hm⟩
  · simp at hstays

private theorem trimmedItems_filterItems {entry : Place} {items : List Json}
    (hkept : held = true → ∀ item ∈ items, ∃ left, filterAt v entry item = some left)
    (h : ∀ item ∈ items, ∀ left, filterAt v entry item = some left →
      Trimmed held type false left item) :
    TrimmedItems held type (filterItems v entry items) items := by
  induction items with
  | nil =>
    rw [filterItems]
    exact .nil
  | cons item rest ih =>
    have hrest := ih (fun hheld other hm => hkept hheld other (List.mem_cons_of_mem _ hm))
      fun other hm => h other (List.mem_cons_of_mem _ hm)
    rw [filterItems]
    split
    · rename_i left hleft
      exact .keep (h item List.mem_cons_self left hleft) hrest
    · rename_i hnone
      cases held with
      | true =>
        obtain ⟨left, hleft⟩ := hkept rfl item List.mem_cons_self
        simp [hnone] at hleft
      | false => exact .drop item hrest

private theorem trimmedMembers_filterMembers {parent : Option String} {name : ObjectName}
    (hplace : place.holds? = some (type, false))
    (h : ∀ key value child inner, (key, value) ∈ members → childType? type key = some child →
      place.member? parent key = some inner → ∀ left, filterAt v inner value = some left →
        Trimmed (staysIn held type name key) child (returnsList key) left value) :
    TrimmedMembers held type name (filterMembers v place parent members) members := by
  induction members with
  | nil =>
    rw [filterMembers]
    exact .nil
  | cons member rest ih =>
    obtain ⟨key, value⟩ := member
    have hrest := ih fun key value child inner hm =>
      h key value child inner (List.mem_cons_of_mem _ hm)
    rw [filterMembers]
    cases hchild : childType? type key with
    | some child =>
      obtain ⟨inner, hinner, -⟩ := member?_of_childType? hplace parent hchild
      obtain ⟨left, hleft⟩ := exists_filterAt_member hinner v value
      rw [hinner]
      simp only [hleft]
      have hkept := h key value child inner List.mem_cons_self hchild hinner left hleft
      exact .member hchild hkept hrest
    | none =>
      by_cases hname : key = nameKey ∧ isNamed type = true
      · obtain ⟨rfl, hnamed⟩ := hname
        rw [member?_nameKey hplace hnamed]
        exact .name value hnamed hrest
      · rw [member?_leaf hplace parent hchild hname]
        simp only [filterAt_other]
        exact .leaf value hchild hrest

private theorem trimmed_of_filterAt (hv : v.permissions.Coherent s) {value : Json}
    (hplace : place.holds? = some (type, list)) (hvalue : Describes (AgreesWith s) type list value)
    (hfields : FieldsAgree s place value)
    (hheld : held = true → type ≠ "__Field" ∧ RefersToShown v type list value) :
    ∀ left, filterAt v place value = some left → Trimmed held type list left value := by
  -- what stays in an object refers to nothing but shown types, so none of it is taken out
  induction value using induct_value generalizing place type list held with
  | scalar value hscalar =>
    intro left hleft
    obtain rfl := eq_of_filterAt_scalar hscalar hleft
    exact .scalar hscalar
  | array items ih =>
    obtain rfl := hvalue.list_eq_true
    obtain ⟨entry, hentry, hholds⟩ := items?_of_holds?_list hplace
    intro left hleft
    rw [filterAt_array hentry] at hleft
    cases hleft
    have hitems : held = true →
        ∀ item ∈ items, type ≠ "__Field" ∧ RefersToShown v type false item := by
      intro h item hitem
      obtain ⟨htype, hrefers⟩ := hheld h
      exact ⟨htype, hrefers.item hitem⟩
    refine .array (trimmedItems_filterItems (fun h item hitem => ?_) fun item hitem => ?_)
    · obtain ⟨htype, hrefers⟩ := hitems h item hitem
      exact exists_filterAt_of_refers hholds htype hrefers
    · exact ih item hitem hholds (hvalue.item hitem) (fieldsAgree_item hfields hentry hitem)
        fun h => hitems h item hitem
  | object members ih =>
    obtain rfl := hvalue.list_eq_false
    intro left hleft
    rw [filterAt] at hleft
    split at hleft
    · rename_i hadmits
      cases hleft
      refine .object (trimmedMembers_filterMembers hplace ?_)
      intro key value child inner hm hchild hinner
      obtain ⟨_, hinner', hholds⟩ := member?_of_childType? hplace (knownName members) hchild
      obtain rfl := Option.some.inj (hinner.symm.trans hinner')
      refine ih key value hm hholds (hvalue.member hm hchild)
        (fieldsAgree_member hvalue.of_object hplace hm hchild hinner) fun hstays => ?_
      exact refers_of_staysIn hv hplace hadmits hfields (fun h => (hheld h).2) hm hstays hchild
    · rename_i hadmits
      split at hleft
      · rename_i heq
        cases hleft
        subst heq
        cases hplace
        cases held with
        | true => exact absurd (admits_of_refers rfl (hheld rfl).2) hadmits
        | false => exact .gone
      · cases hleft

/-- Whatever declarations of clients compile to, alone and together, a permitted field belongs to a
type that is shown, returns a type that is shown and takes types that are shown; so the filter of
introspection takes nothing out of the type of a field that it keeps, and none of its arguments. -/
theorem permitted_fields_whole {s : Schema} {clients : List (String × PermissionSet)}
    (hcompiled : ∀ client ∈ clients, ∃ declarations,
      Declaration.compile s client.1 declarations = .ok client.2) :
    (∀ client ∈ clients, client.2.Coherent s) ∧
      (Verifier.ofClients clients).permissions.Coherent s ∧
      ∀ field type value, entryType? field = some type →
        Describes (AgreesWith s) type false value →
        Trimmed false type false (filter (.ofClients clients) field value) value := by
  have hclients : ∀ client ∈ clients, client.2.Coherent s := by
    intro client hm
    obtain ⟨declarations, hcompile⟩ := hcompiled client hm
    exact Declaration.coherent_of_compile hcompile
  have hunion := Verifier.coherent_ofClients hclients
  refine ⟨hclients, hunion, fun field type value hentry hvalue => ?_⟩
  obtain ⟨left, hleft⟩ := exists_filterAt_entry field (.ofClients clients) value
  have hfields : FieldsAgree s (entryPlace field) value := by
    unfold entryPlace
    split <;> simp [FieldsAgree]
  rw [filter, hleft, Option.getD_some]
  exact trimmed_of_filterAt hunion (holds?_entryPlace hentry) hvalue hfields (by simp) left hleft

section Witness

private def teamSchema : Schema :=
  ⟨.ofList [("Query", ⟨"Query", .object, [⟨"find", "Person", [⟨"by", "Role"⟩]⟩], [], [], []⟩),
      ("Person", ⟨"Person", .object, [⟨"id", "ID", []⟩], [], [], []⟩),
      ("Role", .empty "Role" .enum), ("Audit", .empty "Audit" .object)] compare,
    "Query", none, none⟩

private def findQuery : String :=
  "{ find { id } }"

private def findSet : PermissionSet :=
  ⟨.ofList [⟨"Query", "find"⟩, ⟨"Person", "id"⟩] compare,
    .ofList ["Query", "Person", "Role", "ID"] compare⟩

private def typeNamed (name : String) : Json :=
  .object [("name", .text name)]

/-- The field takes a role and returns a person, which may not be null. -/
private def findField : Json.Members :=
  [("name", .text "find"),
    ("args", .array [.object [("name", .text "by"), ("type", typeNamed "Role")]]),
    ("type", .object [("name", .null), ("ofType", typeNamed "Person")])]

private def queryObject : Json :=
  .object [("name", .text "Query"), ("fields", .array [.object findField])]

private theorem compile_findQuery :
    Declaration.compile teamSchema "staff" [findQuery] = .ok findSet := by
  have hparse : Document.parse findQuery = .ok ⟨[.operation ⟨none, ⟨1, 1⟩, ⟨1, 15⟩,
      [.field ⟨⟨1, 3⟩, ⟨1, 8⟩, ⟨1, 13⟩, none, "find", [], []⟩
        [.field ⟨⟨1, 10⟩, ⟨1, 10⟩, ⟨1, 10⟩, none, "id", [], []⟩ []]]⟩]⟩ := by cbv
  simp only [Declaration.compile, List.foldlM_cons, Declaration.grantText, hparse]
  rfl

private theorem refers_typeNamed {asked : String → Prop} {name : String} (h : asked name) :
    Refers asked "__Type" false (typeNamed name) := by
  have hname : nameOf [("name", .text name)] = .named name := by rfl
  exact .named hname h

private theorem describes_typeNamed (name : String) :
    Describes (AgreesWith teamSchema) "__Type" false (typeNamed name) := by
  refine .object ⟨fun _ => by simp [nameOf, Json.Members.get?, List.lookup, nameKey], ?_⟩ ?_
  · intro _ _ _ items hm
    simp at hm
  · intro key value child hm hchild
    simp only [List.mem_singleton, Prod.mk.injEq] at hm
    simp [hm.1, childType?] at hchild

private theorem describes_findField :
    Describes (AgreesWith teamSchema) "__Field" false (.object findField) := by
  refine .object ⟨fun _ => by decide, by simp⟩ ?_
  intro key value child hm hchild
  simp only [findField, List.mem_cons, Prod.mk.injEq, List.not_mem_nil, or_false] at hm
  rcases hm with ⟨rfl, rfl⟩ | ⟨rfl, rfl⟩ | ⟨rfl, rfl⟩
  · simp [childType?] at hchild
  · cases hchild
    refine .list fun item hitem => ?_
    obtain rfl := List.mem_singleton.mp hitem
    refine .object ⟨by simp [isNamed], by simp⟩ fun key value child hm hchild => ?_
    simp only [List.mem_cons, Prod.mk.injEq, List.not_mem_nil, or_false] at hm
    rcases hm with ⟨rfl, rfl⟩ | ⟨rfl, rfl⟩
    · simp [childType?] at hchild
    · cases hchild
      exact describes_typeNamed "Role"
  · cases hchild
    refine .object ⟨fun _ => by decide, ?_⟩ ?_
    · intro parent _ hname
      have hnull : nameOf [("name", .null), ("ofType", typeNamed "Person")] = .unnamed := by rfl
      cases hnull.symm.trans hname
    · intro key value child hm hchild
      simp only [List.mem_cons, Prod.mk.injEq, List.not_mem_nil, or_false] at hm
      rcases hm with ⟨rfl, rfl⟩ | ⟨rfl, rfl⟩
      · simp [childType?] at hchild
      · cases hchild
        exact describes_typeNamed "Person"

private theorem agrees_findField : FieldAgrees teamSchema "Query" findField := by
  intro name d hname hd
  have hfind : nameOf findField = .named "find" := by rfl
  obtain rfl := ObjectName.named.inj (hfind.symm.trans hname)
  have hfield : teamSchema.field? "Query" "find" =
      some ⟨"find", "Person", [⟨"by", "Role"⟩]⟩ := by rfl
  obtain rfl := Option.some.inj (hfield.symm.trans hd)
  constructor
  · intro value hm
    obtain rfl : value = .object [("name", .null), ("ofType", typeNamed "Person")] := by
      simpa [findField] using hm
    refine .wrapper (by rfl) fun value hm => ?_
    obtain rfl : value = typeNamed "Person" := by simpa using hm
    exact refers_typeNamed rfl
  · intro value hm
    obtain rfl : value = .array [.object [("name", .text "by"), ("type", typeNamed "Role")]] := by
      simpa [findField] using hm
    refine .inputs fun item hitem => ?_
    obtain rfl := List.mem_singleton.mp hitem
    refine .input fun value hm => ?_
    obtain rfl : value = typeNamed "Role" := by simpa using hm
    exact refers_typeNamed (by simp)

private theorem describes_queryObject :
    Describes (AgreesWith teamSchema) "__Type" false queryObject := by
  refine .object ⟨fun _ => by decide, ?_⟩ ?_
  · intro parent _ hname items hm field hfield
    have hquery : nameOf [("name", .text "Query"), ("fields", .array [.object findField])] =
        .named "Query" := by rfl
    obtain rfl := ObjectName.named.inj (hquery.symm.trans hname)
    obtain rfl : items = [.object findField] := by simpa using hm
    obtain rfl := Json.object.inj (List.mem_singleton.mp hfield)
    exact agrees_findField
  · intro key value child hm hchild
    simp only [List.mem_cons, Prod.mk.injEq, List.not_mem_nil, or_false] at hm
    rcases hm with ⟨rfl, rfl⟩ | ⟨rfl, rfl⟩
    · simp [childType?] at hchild
    · cases hchild
      refine .list fun item hitem => ?_
      obtain rfl := List.mem_singleton.mp hitem
      exact describes_findField

/-- The arguments and the type of a field that is permitted stay, and a hidden type goes. -/
theorem permitted_fields_whole_of_find :
    Declaration.compile teamSchema "staff" [findQuery] = .ok findSet ∧
      Describes (AgreesWith teamSchema) "__Schema" false
        (.object [("types", .array [queryObject, typeNamed "Audit"])]) ∧
      filter (.ofClients [("staff", findSet)]) "__schema"
          (.object [("types", .array [queryObject, typeNamed "Audit"])]) =
        .object [("types", .array [queryObject])] ∧
      Trimmed false "__Schema" false (.object [("types", .array [queryObject])])
        (.object [("types", .array [queryObject, typeNamed "Audit"])]) := by
  have hvalue : Describes (AgreesWith teamSchema) "__Schema" false
      (.object [("types", .array [queryObject, typeNamed "Audit"])]) := by
    refine .object ⟨by simp [isNamed], by simp⟩ fun key value child hm hchild => ?_
    simp only [List.mem_singleton, Prod.mk.injEq] at hm
    obtain ⟨rfl, rfl⟩ := hm
    cases hchild
    refine .list fun item hitem => ?_
    simp only [List.mem_cons, List.not_mem_nil, or_false] at hitem
    rcases hitem with rfl | rfl
    · exact describes_queryObject
    · exact describes_typeNamed "Audit"
  have hfilter : filter (.ofClients [("staff", findSet)]) "__schema"
      (.object [("types", .array [queryObject, typeNamed "Audit"])]) =
        .object [("types", .array [queryObject])] := by rfl
  have hcompiled : ∀ client ∈ [("staff", findSet)], ∃ declarations,
      Declaration.compile teamSchema client.1 declarations = .ok client.2 := by
    intro client hm
    obtain rfl := List.mem_singleton.mp hm
    exact ⟨_, compile_findQuery⟩
  refine ⟨compile_findQuery, hvalue, hfilter, ?_⟩
  rw [← hfilter]
  exact (permitted_fields_whole hcompiled).2.2 "__schema" "__Schema" _ rfl hvalue

end Witness

end FieldAuthorization.Introspection
