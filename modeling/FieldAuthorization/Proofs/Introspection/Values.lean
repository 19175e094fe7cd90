import FieldAuthorization.Proofs.Document.Occurrence
import FieldAuthorization.Proofs.Introspection.Host

/-!
Values of introspection, and the places at which the filter reads them.

A value of introspection has the shape of its type: the members of an object stand under the names
of the fields that they are the values of. The filter gives every part of such a value the place of
its type, and leaves the parts that belong to no type of introspection alone.
-/

set_option autoImplicit false
set_option relaxedAutoImplicit false

namespace FieldAuthorization

namespace Introspection

/-- Induction on a value: what holds of the items of an array, or of what an object's members hold,
passes to it. -/
theorem induct_value {motive : Json → Prop}
    (scalar : ∀ value, isScalar value = true → motive value)
    (array : ∀ items, (∀ item ∈ items, motive item) → motive (.array items))
    (object : ∀ members : Json.Members, (∀ key value, (key, value) ∈ members → motive value) →
      motive (.object members)) : ∀ value, motive value := by
  intro value
  refine @Json.rec motive (fun items => ∀ item ∈ items, motive item)
    (fun members => ∀ key value, (key, value) ∈ members → motive value)
    (fun member => motive member.2) (scalar _ rfl) (fun _ => scalar _ rfl)
    (fun _ => scalar _ rfl) (fun _ => scalar _ rfl) array object ?_ ?_ ?_ ?_ (fun _ _ h => h) value
  · intro item hitem
    exact absurd hitem List.not_mem_nil
  · intro first rest hfirst hrest item hitem
    rcases List.mem_cons.mp hitem with rfl | hitem
    · exact hfirst
    · exact hrest item hitem
  · intro key value hm
    exact absurd hm List.not_mem_nil
  · intro first rest hfirst hrest key value hm
    rcases List.mem_cons.mp hm with rfl | hm
    · exact hfirst
    · exact hrest key value hm

theorem mem_of_get?_eq_some {members : Json.Members} {key : String} {value : Json}
    (h : members.get? key = some value) : (key, value) ∈ members := by
  obtain ⟨before, after, rfl, -⟩ := List.lookup_eq_some_iff.mp h
  exact List.mem_append_right _ List.mem_cons_self

/-- A value has the shape of a type of introspection, or of a list of it, and every object in it is
proper for its type. What belongs to no type of introspection is not looked into. -/
inductive Describes (proper : String → Json.Members → Prop) : String → (list : Bool) → Json → Prop
  | scalar {type : String} {list : Bool} {value : Json} :
      isScalar value = true → Describes proper type list value
  | list {type : String} {items : List Json} :
      (∀ item ∈ items, Describes proper type false item) →
      Describes proper type true (.array items)
  | object {type : String} {members : Json.Members} :
      proper type members →
      (∀ key value child, (key, value) ∈ members → childType? type key = some child →
        Describes proper child (returnsList key) value) →
      Describes proper type false (.object members)

namespace Describes

variable {proper : String → Json.Members → Prop} {type : String} {list : Bool}
  {members : Json.Members}

theorem item {items : List Json} {item : Json} (h : Describes proper type list (.array items))
    (hitem : item ∈ items) : Describes proper type false item := by
  cases h with
  | scalar hscalar => simp [isScalar] at hscalar
  | list hitems => exact hitems item hitem

theorem list_eq_true {items : List Json} (h : Describes proper type list (.array items)) :
    list = true := by
  cases h with
  | scalar hscalar => simp [isScalar] at hscalar
  | list => rfl

theorem list_eq_false (h : Describes proper type list (.object members)) : list = false := by
  cases h with
  | scalar hscalar => simp [isScalar] at hscalar
  | object => rfl

theorem of_object (h : Describes proper type list (.object members)) : proper type members := by
  cases h with
  | scalar hscalar => simp [isScalar] at hscalar
  | object hproper _ => exact hproper

theorem member (h : Describes proper type list (.object members)) {key child : String}
    {value : Json} (hm : (key, value) ∈ members) (hchild : childType? type key = some child) :
    Describes proper child (returnsList key) value := by
  cases h with
  | scalar hscalar => simp [isScalar] at hscalar
  | object _ hmembers => exact hmembers key value child hm hchild

end Describes

/-- The type of introspection that stands at a place, and whether a list of it does. -/
def Place.holds? : Place → Option (String × Bool)
  | .schema => some ("__Schema", false)
  | .type | .queryRoot | .typeEntry => some ("__Type", false)
  | .typeList => some ("__Type", true)
  | .fieldList _ => some ("__Field", true)
  | .field _ => some ("__Field", false)
  | .inputList => some ("__InputValue", true)
  | .input => some ("__InputValue", false)
  | .directiveList => some ("__Directive", true)
  | .directive => some ("__Directive", false)
  | .other => none

variable {place inner : Place} {type : String}

theorem holds?_entryPlace {field : String} (h : entryType? field = some type) :
    (entryPlace field).holds? = some (type, false) := by
  unfold entryType? at h
  split at h <;> cases h <;> rfl

theorem items?_of_holds?_list (h : place.holds? = some (type, true)) :
    ∃ entry, place.items? = some entry ∧ entry.holds? = some (type, false) := by
  cases place <;> simp_all [Place.holds?, Place.items?]

theorem member?_of_childType? (h : place.holds? = some (type, false)) (parent : Option String)
    {key child : String} (hchild : childType? type key = some child) :
    ∃ inner, place.member? parent key = some inner ∧
      inner.holds? = some (child, returnsList key) := by
  have hmem := mem_of_childType?_eq_some hchild
  simp only [List.mem_cons, Prod.mk.injEq, List.not_mem_nil, or_false] at hmem
  -- one case for each field that returns objects, and one for each place of its type
  rcases hmem with ⟨rfl, rfl, rfl⟩ | ⟨rfl, rfl, rfl⟩ | ⟨rfl, rfl, rfl⟩ | ⟨rfl, rfl, rfl⟩ |
    ⟨rfl, rfl, rfl⟩ | ⟨rfl, rfl, rfl⟩ | ⟨rfl, rfl, rfl⟩ | ⟨rfl, rfl, rfl⟩ | ⟨rfl, rfl, rfl⟩ |
    ⟨rfl, rfl, rfl⟩ | ⟨rfl, rfl, rfl⟩ | ⟨rfl, rfl, rfl⟩ | ⟨rfl, rfl, rfl⟩ | ⟨rfl, rfl, rfl⟩ <;>
    cases place <;> simp [Place.holds?] at h <;> exact ⟨_, rfl, rfl⟩

theorem member?_leaf (h : place.holds? = some (type, false))
    (parent : Option String) {key : String} (hchild : childType? type key = none)
    (hkey : ¬ (key = nameKey ∧ isNamed type = true)) :
    place.member? parent key = some .other := by
  cases place <;> simp [Place.holds?] at h <;> subst h <;>
    simp only [Place.member?, typeMember, beq_iff_eq] <;> repeat' split
  all_goals simp_all [childType?, isNamed]

theorem member?_nameKey (h : place.holds? = some (type, false)) (hnamed : isNamed type = true)
    (parent : Option String) : place.member? parent nameKey = none := by
  cases place <;> simp [Place.holds?] at h <;> subst h <;> simp_all [isNamed, Place.member?]

theorem mem_of_member?_eq_some {parent : Option String} {key : String}
    (h : place.member? parent key = some inner) :
    inner ∈ [.typeList, .queryRoot, .type, .directiveList, .fieldList parent, .inputList,
      .other] := by
  unfold Place.member? typeMember at h
  grind

variable {v : Verifier}

theorem filterAt_scalar {value : Json} (hscalar : isScalar value = true)
    (hplace : ∀ parent, place ≠ .field parent) : filterAt v place value = some value := by
  cases value <;> cases place <;> simp_all [filterAt, isScalar]

theorem filterAt_other (v : Verifier) (value : Json) : filterAt v .other value = some value := by
  induction value using induct_value with
  | scalar value hscalar => exact filterAt_scalar hscalar fun _ => Place.noConfusion
  | array items ih => simp [filterAt, Place.items?]
  | object members ih =>
    have hmembers : filterMembers v .other (knownName members) members = members := by
      rw [filterMembers_eq_filterMap]
      refine filterMap_eq_self fun member hm => ?_
      simp [Place.member?, ih member.1 member.2 hm]
    simp [filterAt, admits, hmembers]

theorem exists_filterAt (htype : place ≠ .typeEntry) (hfield : ∀ parent, place ≠ .field parent)
    (hinput : place ≠ .input) (v : Verifier) (value : Json) :
    ∃ left, filterAt v place value = some left := by
  cases value with
  | object members =>
    rw [filterAt]
    split
    · exact ⟨_, rfl⟩
    · rename_i hadmits
      have hnull : place = .type := by cases place <;> simp_all [admits]
      exact ⟨_, if_pos hnull⟩
  | array items => cases place <;> simp_all [filterAt, Place.items?]
  | null => exact ⟨_, filterAt_scalar rfl hfield⟩
  | boolean _ => exact ⟨_, filterAt_scalar rfl hfield⟩
  | number _ => exact ⟨_, filterAt_scalar rfl hfield⟩
  | text _ => exact ⟨_, filterAt_scalar rfl hfield⟩

theorem exists_filterAt_member {parent : Option String} {key : String}
    (h : place.member? parent key = some inner) (v : Verifier) (value : Json) :
    ∃ left, filterAt v inner value = some left := by
  have hinner := mem_of_member?_eq_some h
  refine exists_filterAt ?_ (fun known => ?_) ?_ v value <;> rintro rfl <;> simp at hinner

theorem exists_filterAt_entry (field : String) (v : Verifier) (value : Json) :
    ∃ left, filterAt v (entryPlace field) value = some left := by
  refine exists_filterAt ?_ (fun known => ?_) ?_ v value <;> unfold entryPlace <;> split <;> simp

theorem wrapsHidden_eq (v : Verifier) (members : Json.Members) :
    wrapsHidden v members = (members.get? "ofType").any (refersToHidden v) := by
  induction members with
  | nil => simp [wrapsHidden, Json.Members.get?]
  | cons member rest ih =>
    obtain ⟨key, value⟩ := member
    rw [wrapsHidden, ih]
    by_cases hkey : key = "ofType"
    · simp [hkey, Json.Members.get?]
    · have hne : ("ofType" == key) = false := by simpa using Ne.symm hkey
      simp [hkey, Json.Members.get?, List.lookup_cons, hne]

end Introspection

end FieldAuthorization
