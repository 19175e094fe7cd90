import FieldAuthorization.Proofs.Introspection.Projection

/-!
When what introspection shows does not depend on what else is selected.

Redaction adds the names of types and fields to what is selected, so the filter finds the hidden
ones whatever the client selects. Arguments and input fields it finds by their types, which are not
added: those of a hidden type are taken out of the whole value, and out of what is selected of it
just if their type is selected down to its name.
-/

set_option autoImplicit false
set_option relaxedAutoImplicit false

namespace FieldAuthorization.Introspection

/-! ### What the filter is told -/

/-- Types carry a name, which may be null, and fields carry a name, both under the name of the field
and not under the key of added names. -/
structure CarriesName (type : String) (members : Json.Members) : Prop where
  unclaimed : isNamed type = true → members.get? nameKey = none
  typeName : type = "__Type" →
    members.get? "name" = some .null ∨ ∃ name, members.get? "name" = some (.text name)
  fieldName : type = "__Field" → ∃ name, members.get? "name" = some (.text name)

/-- The selections on a type lead through its wrappers to a name. -/
inductive Traced : List Selection → Json → Prop
  | whole (value : Json) : Traced [] value
  | named {items : List Selection} {members : Json.Members} {name : String} :
      nameOf members = .named name → Traced items (.object members)
  | wrapper {items : List Selection} {members : Json.Members} {value : Json} :
      "ofType" ∈ keysOf "__Type" items "ofType" → members.get? "ofType" = some value →
      Traced (below "__Type" items "ofType" "ofType") value → Traced items (.object members)

/-- A type reference is to a hidden type, and the selections on it lead to the name. -/
def Exposes (v : Verifier) (items : List Selection) (value : Json) : Prop :=
  refersToHidden v value = true ∧ Traced items value

/-- The selections on a value at a place tell the filter all that it asks: of every argument and
input field of a hidden type that is met outside what is taken out, they select the type down to its
name. -/
inductive Told (v : Verifier) : Place → String → List Selection → Json → Prop
  | whole {place : Place} {type : String} (value : Json) : Told v place type [] value
  | scalar {place : Place} {type : String} {items : List Selection} {value : Json} :
      isScalar value = true → Told v place type items value
  | list {place entry : Place} {type : String} {items : List Selection} {values : List Json} :
      place.items? = some entry → (∀ value ∈ values, Told v entry type items value) →
      Told v place type items (.array values)
  | hidden {place : Place} {type : String} {items : List Selection} {members : Json.Members} :
      admits v place members = false → place ≠ .input → Told v place type items (.object members)
  | dropped {type : String} {items : List Selection} {members : Json.Members} {value : Json} :
      members.get? "type" = some value → "type" ∈ keysOf type items "type" →
      Exposes v (below type items "type" "type") value → Told v .input type items (.object members)
  | kept {place : Place} {type : String} {items : List Selection} {members : Json.Members} :
      admits v place members = true →
      (∀ name value child inner, (name, value) ∈ members → name ∈ keysOf type items name →
        childType? type name = some child →
        place.member? (knownName members) name = some inner →
        Told v inner child (below type items name name) value) →
      Told v place type items (.object members)

variable {v : Verifier} {place entry inner : Place} {type child : String} {list : Bool}
  {items : List Selection} {members : Json.Members} {sets : List (Position × List Selection)}

private theorem told_array (hentry : place.items? = some entry) {values : List Json} :
    Told v place type items (.array values) ↔ ∀ value ∈ values, Told v entry type items value := by
  constructor
  · intro h value hvalue
    cases h with
    | whole => exact .whole value
    | scalar hscalar => simp [isScalar] at hscalar
    | list hentry' hvalues =>
      obtain rfl := Option.some.inj (hentry.symm.trans hentry')
      exact hvalues value hvalue
  · exact .list hentry

private theorem told_of_admits (hitems : items ≠ []) (hadmits : admits v place members = true) :
    Told v place type items (.object members) ↔
      ∀ name value child inner, (name, value) ∈ members → name ∈ keysOf type items name →
        childType? type name = some child →
        place.member? (knownName members) name = some inner →
        Told v inner child (below type items name name) value := by
  constructor
  · intro h
    cases h with
    | whole => exact absurd rfl hitems
    | scalar hscalar => simp [isScalar] at hscalar
    | hidden hhidden => simp [hadmits] at hhidden
    | dropped hvalue _ hexposes => simp [admits, hvalue, hexposes.1] at hadmits
    | kept _ hmembers => exact hmembers
  · exact .kept hadmits

private theorem told_of_not_admits (hitems : items ≠ [])
    (hadmits : admits v .input members = false) :
    Told v .input type items (.object members) ↔
      ∃ value, members.get? "type" = some value ∧ "type" ∈ keysOf type items "type" ∧
        Exposes v (below type items "type" "type") value := by
  constructor
  · intro h
    cases h with
    | whole => exact absurd rfl hitems
    | scalar hscalar => simp [isScalar] at hscalar
    | hidden _ hplace => exact absurd rfl hplace
    | dropped hvalue hkey hexposes => exact ⟨_, hvalue, hkey, hexposes⟩
    | kept hadmits' => simp [hadmits] at hadmits'
  · rintro ⟨value, hvalue, hkey, hexposes⟩
    exact .dropped hvalue hkey hexposes

private theorem traced_wrapper (hitems : items ≠ []) (hname : nameOf members = .unnamed) :
    Traced items (.object members) ↔ "ofType" ∈ keysOf "__Type" items "ofType" ∧
      ∃ value, members.get? "ofType" = some value ∧
        Traced (below "__Type" items "ofType" "ofType") value := by
  constructor
  · intro h
    cases h with
    | whole => exact absurd rfl hitems
    | named hnamed => simp [hname] at hnamed
    | wrapper hkey hvalue htraced => exact ⟨hkey, _, hvalue, htraced⟩
  · rintro ⟨hkey, value, hvalue, htraced⟩
    exact .wrapper hkey hvalue htraced

private theorem CarriesName.exists_name (h : CarriesName type members)
    (hnamed : isNamed type = true) :
    members.get? "name" = some .null ∨ ∃ name, members.get? "name" = some (.text name) := by
  simp only [isNamed, Bool.or_eq_true, beq_iff_eq] at hnamed
  rcases hnamed with rfl | rfl
  · exact h.typeName rfl
  · exact .inr (h.fieldName rfl)

private theorem CarriesName.nameOf_ne_unknown (h : CarriesName type members)
    (hnamed : isNamed type = true) : nameOf members ≠ .unknown := by
  have hunclaimed := h.unclaimed hnamed
  rcases h.exists_name hnamed with hnull | ⟨name, htext⟩
  · simp [nameOf, hunclaimed, hnull]
  · simp [nameOf, hunclaimed, htext]

/-! ### Lists -/

private theorem filterMap_of_nodup {β : Type} {g : String → Option β} {a : String}
    {keys : List String} (hnodup : keys.Nodup) (h : ∀ k ∈ keys, k = a ∨ g k = none) :
    keys.filterMap g = (if a ∈ keys then g a else none).toList := by
  induction keys with
  | nil => rfl
  | cons k rest ih =>
    obtain ⟨hnew, hrest⟩ := List.nodup_cons.mp hnodup
    have htail := ih hrest fun k hk => h k (List.mem_cons_of_mem _ hk)
    by_cases hk : k = a
    · subst hk
      rw [if_neg hnew] at htail
      rw [List.filterMap_cons, htail, if_pos List.mem_cons_self]
      cases g k <;> rfl
    · have hnone : g k = none := (h k List.mem_cons_self).resolve_left hk
      rw [List.filterMap_cons_none hnone, htail]
      simp [Ne.symm hk]

private theorem length_filterMap_le {α β : Type} {f g : α → Option β} {l : List α}
    (h : ∀ x ∈ l, (g x).isSome = true → (f x).isSome = true) :
    (l.filterMap g).length ≤ (l.filterMap f).length := by
  induction l with
  | nil => exact Nat.le_refl _
  | cons x rest ih =>
    have hrest := ih fun y hy => h y (List.mem_cons_of_mem _ hy)
    have hx := h x List.mem_cons_self
    rw [List.filterMap_cons, List.filterMap_cons]
    cases hg : g x with
    | none => cases f x <;> simp <;> omega
    | some y =>
      obtain ⟨z, hf⟩ := Option.isSome_iff_exists.mp (hx (by simp [hg]))
      simp only [hf, List.length_cons]
      omega

private theorem filterMap_eq_iff {α β : Type} {f g : α → Option β} {l : List α}
    (h : ∀ x ∈ l, (g x).isSome = true → (f x).isSome = true) :
    l.filterMap f = l.filterMap g ↔ ∀ x ∈ l, f x = g x := by
  induction l with
  | nil => simp
  | cons x rest ih =>
    have hrest := fun y hy => h y (List.mem_cons_of_mem x hy)
    rw [List.forall_mem_cons, ← ih hrest, List.filterMap_cons, List.filterMap_cons]
    have hlength := length_filterMap_le hrest
    have hx := h x List.mem_cons_self
    cases hf : f x with
    | none =>
      cases hg : g x with
      | none => simp
      | some y => simp [hf, hg] at hx
    | some z =>
      cases hg : g x with
      | none =>
        simp only [reduceCtorEq, false_and, iff_false]
        intro heq
        have hlen := congrArg List.length heq
        rw [List.length_cons] at hlen
        omega
      | some y => simp

/-! ### Projecting and filtering the members of an object -/

def filterMember (v : Verifier) (place : Place) (parent : Option String) (member : String × Json) :
    Option (String × Json) :=
  (place.member? parent member.1).bind fun inner =>
    (filterAt v inner member.2).map fun left => (member.1, left)

private theorem isSome_filterMember (parent : Option String) (name : String) (value : Json) :
    (filterMember v place parent (name, value)).isSome = (place.member? parent name).isSome := by
  unfold filterMember
  cases hinner : place.member? parent name with
  | none => rfl
  | some inner =>
    obtain ⟨left, hleft⟩ := exists_filterAt_member hinner v value
    simp [hleft]

private theorem filterMembers_congr {parent parent' : Option String}
    (h : ∀ key, place.member? parent key = place.member? parent' key) (members : Json.Members) :
    filterMembers v place parent members = filterMembers v place parent' members := by
  simp only [filterMembers_eq_filterMap, h]

private theorem nodup_keysOf (type : String) (items : List Selection) (name : String) :
    (keysOf type items name).Nodup :=
  List.nodup_dedup _

private theorem filterMembers_projectMembers {parent : Option String}
    (hkeys : ∀ name value, (name, value) ∈ members → ∀ key ∈ keysOf type items name,
      key = name ∨ place.member? parent key = none) :
    filterMembers v place parent (projectMembers type items members) =
      members.filterMap fun (name, value) =>
        if name ∈ keysOf type items name then
          filterMember v place parent (name, projectMember type items name name value)
        else none := by
  rw [filterMembers_eq_filterMap]
  induction members with
  | nil => simp [projectMembers]
  | cons member rest ih =>
    obtain ⟨name, value⟩ := member
    have hrest := ih fun name value hm => hkeys name value (List.mem_cons_of_mem _ hm)
    have hhead : (keysOf type items name).filterMap (fun key =>
        filterMember v place parent (key, projectMember type items name key value)) =
        (if name ∈ keysOf type items name then
          filterMember v place parent (name, projectMember type items name name value)
        else none).toList := by
      refine filterMap_of_nodup (nodup_keysOf type items name) fun key hkey => ?_
      refine (hkeys name value List.mem_cons_self key hkey).imp_right fun hnone => ?_
      simp [filterMember, hnone]
    rw [projectMembers_cons, List.filterMap_append, hrest, List.filterMap_map, List.filterMap_cons]
    refine (congrArg (· ++ _) hhead).trans ?_
    dsimp only
    cases (if name ∈ keysOf type items name then
      filterMember v place parent (name, projectMember type items name name value)
      else none) <;> rfl

private theorem projectMembers_eq_filterMap
    (hkeys : ∀ name, ∀ key ∈ keysOf type items name, key = name) (members : Json.Members) :
    projectMembers type items members = members.filterMap fun (name, value) =>
      if name ∈ keysOf type items name then some (name, projectMember type items name name value)
      else none := by
  induction members with
  | nil => simp [projectMembers]
  | cons member rest ih =>
    obtain ⟨name, value⟩ := member
    have hhead : (keysOf type items name).map (fun key =>
        (key, projectMember type items name key value)) =
        (if name ∈ keysOf type items name then
          some (name, projectMember type items name name value) else none).toList := by
      rw [← List.filterMap_eq_map]
      exact filterMap_of_nodup (nodup_keysOf type items name) fun key hkey =>
        .inl (hkeys name key hkey)
    rw [projectMembers_cons, hhead, ih, List.filterMap_cons]
    split <;> simp_all

private theorem projectMembers_filterMembers {parent : Option String}
    (hkeys : ∀ name, ∀ key ∈ keysOf type items name, key = name) :
    projectMembers type items (filterMembers v place parent members) =
      members.filterMap fun (name, value) =>
        if name ∈ keysOf type items name then
          (filterMember v place parent (name, value)).map fun left =>
            (name, projectMember type items name name left.2)
        else none := by
  have hfilter : filterMembers v place parent members =
      members.filterMap (filterMember v place parent) := filterMembers_eq_filterMap v place parent _
  rw [hfilter, projectMembers_eq_filterMap hkeys, List.filterMap_filterMap]
  congr 1
  funext ⟨name, value⟩
  dsimp only
  cases hleft : filterMember v place parent (name, value) with
  | none => simp
  | some left =>
    have hname : left.1 = name := by
      simp only [filterMember, Option.bind_eq_some_iff, Option.map_eq_some_iff] at hleft
      obtain ⟨_, -, _, -, rfl⟩ := hleft
      rfl
    simp [hname]

/-! ### Objects with added names -/

section Object

variable (h : Unaliased (plainSets sets)) (hne : plainSets sets ≠ [])

private theorem ne_nameKey_of_mem (hproper : CarriesName type members)
    (hnamed : isNamed type = true) {name : String} {value : Json} (hm : (name, value) ∈ members) :
    name ≠ nameKey := by
  rintro rfl
  have hlookup := List.lookup_eq_none_iff.mp (hproper.unclaimed hnamed) _ hm
  simp at hlookup

include h hne in
private theorem nameOf_projectMembers (hproper : CarriesName type members)
    (hnamed : isNamed type = true) :
    nameOf (projectMembers type (namedSets type sets) members) = nameOf members := by
  obtain ⟨name, hname⟩ : ∃ name, members.get? "name" = some name := by
    rcases hproper.exists_name hnamed with hnull | ⟨name, htext⟩
    · exact ⟨_, hnull⟩
    · exact ⟨_, htext⟩
  have hkeys : ∀ other value, (other, value) ∈ members →
      nameKey ∈ keysOf type (namedSets type sets) other → other = "name" := by
    intro other value hm hkey
    rcases of_mem_keysOf_namedSets h hkey with hother | ⟨-, hother, -⟩
    · exact absurd hother.symm (ne_nameKey_of_mem hproper hnamed hm)
    · exact hother
  have hadded : Json.Members.get? (projectMembers type (namedSets type sets) members) nameKey =
      some name := by
    rw [get?_projectMembers hkeys, if_pos (nameKey_mem_keysOf hnamed h hne), hname]
    simp [projectMember, memberType?, childType?_name]
  simp only [nameOf, hadded, hproper.unclaimed hnamed, hname]
  rfl

include h in
private theorem get?_projectMembers_namedSets {key : String} (hkey : key ≠ nameKey) :
    Json.Members.get? (projectMembers type (namedSets type sets) members) key =
      if key ∈ keysOf type (plainSets sets) key then
        (members.get? key).map (projectMember type (namedSets type sets) key key) else none := by
  have hkeys : ∀ other value, (other, value) ∈ members →
      key ∈ keysOf type (namedSets type sets) other → other = key := by
    intro other value _ hother
    rcases of_mem_keysOf_namedSets h hother with hother | ⟨hadded, -, -⟩
    · exact hother.symm
    · exact absurd hadded hkey
  rw [get?_projectMembers hkeys]
  simp only [mem_keysOf_namedSets (.inl hkey)]

include h in
private theorem any_refersToHidden {name : String} (hname : name ≠ nameKey)
    (hchild : childType? type name = some "__Type")
    (hmember : ∀ value, (name, value) ∈ members → ∀ below : List (Position × List Selection),
      Unaliased (plainSets below) →
      (refersToHidden v (project "__Type" (namedSets "__Type" below) value) = true ↔
        Exposes v (plainSets below) value)) :
    (Json.Members.get? (projectMembers type (namedSets type sets) members) name).any
        (refersToHidden v) = true ↔
      ∃ value, members.get? name = some value ∧ name ∈ keysOf type (plainSets sets) name ∧
        Exposes v (below type (plainSets sets) name name) value := by
  have hbelow := plainSets_setsBelow h type name
  rw [get?_projectMembers_namedSets h hname]
  cases hvalue : members.get? name with
  | none => simp
  | some value =>
    have hiff := hmember value (mem_of_get?_eq_some hvalue)
      (setsBelow type (plainSets sets) name) (hbelow ▸ h.below _ _ _)
    rw [hbelow] at hiff
    by_cases hkey : name ∈ keysOf type (plainSets sets) name
    · simp [hkey, projectMember_namedSets h hchild, hiff]
    · simp [hkey]

include h in
private theorem refersToHidden_project {value : Json}
    (hvalue : Describes CarriesName "__Type" false value) :
    refersToHidden v (project "__Type" (namedSets "__Type" sets) value) = true ↔
      Exposes v (plainSets sets) value := by
  induction value using induct_value generalizing sets with
  | scalar value hscalar =>
    have hnot : refersToHidden v value = false := by
      cases value <;> simp_all [refersToHidden, isScalar]
    simp [project_scalar hscalar, Exposes, hnot]
  | array values ih => simp [project_array, Exposes, refersToHidden]
  | object members ih =>
    by_cases hne : plainSets sets = []
    · simp [namedSets_eq_nil.mpr hne, hne, project_nil, Exposes, Traced.whole]
    have hname := nameOf_projectMembers h hne hvalue.of_object rfl
    rw [project_object (mt namedSets_eq_nil.mp hne), Exposes, refersToHidden, refersToHidden, hname]
    cases hobject : nameOf members with
    | named name => simp [Traced.named hobject]
    | unknown => exact absurd hobject (hvalue.of_object.nameOf_ne_unknown rfl)
    | unnamed =>
      have hchild : childType? "__Type" "ofType" = some "__Type" := by rfl
      have hany := any_refersToHidden (v := v) h (by decide) hchild fun inner hm below hbelow =>
        ih "ofType" inner hm hbelow (hvalue.member hm hchild)
      simp only [wrapsHidden_eq, hany, traced_wrapper hne hobject, Exposes]
      constructor
      · rintro ⟨inner, hinner, hkey, hhidden, htraced⟩
        exact ⟨by simp [hinner, hhidden], hkey, inner, hinner, htraced⟩
      · rintro ⟨hhidden, hkey, inner, hinner, htraced⟩
        exact ⟨inner, hinner, hkey, by simpa [hinner] using hhidden, htraced⟩

include h hne in
private theorem admits_projectMembers (hplace : place.holds? = some (type, false))
    (hproper : CarriesName type members) (hinput : place ≠ .input) :
    admits v place (projectMembers type (namedSets type sets) members) =
      admits v place members := by
  have hname := nameOf_projectMembers h hne hproper
  cases place <;> simp_all [Place.holds?, admits]
  all_goals
    subst type
    simp [isHidden, keepsField, hname rfl]

include h hne in
private theorem member?_projectMembers (hplace : place.holds? = some (type, false))
    (hproper : CarriesName type members) (key : String) :
    place.member? (knownName (projectMembers type (namedSets type sets) members)) key =
      place.member? (knownName members) key := by
  have hname := nameOf_projectMembers h hne hproper
  cases place <;> simp_all [Place.holds?, Place.member?]
  all_goals
    subst type
    simp [knownName, hname rfl]

include h in
/-- An input is dropped after it was projected just if its type is selected and exposed. -/
private theorem admits_input_eq_false
    (hvalue : Describes CarriesName "__InputValue" false (.object members)) :
    admits v .input (projectMembers "__InputValue" (namedSets "__InputValue" sets) members) =
        false ↔
      ∃ value, members.get? "type" = some value ∧
        "type" ∈ keysOf "__InputValue" (plainSets sets) "type" ∧
        Exposes v (below "__InputValue" (plainSets sets) "type" "type") value := by
  rw [admits, Bool.not_eq_false']
  exact any_refersToHidden h (by decide) rfl fun value hm below hbelow =>
    refersToHidden_project hbelow (hvalue.member hm rfl)

include h hne in
private theorem admits_projectMembers_of_admits (hplace : place.holds? = some (type, false))
    (hvalue : Describes CarriesName type false (.object members))
    (hadmits : admits v place members = true) :
    admits v place (projectMembers type (namedSets type sets) members) = true := by
  by_cases hinput : place = .input
  · subst hinput
    obtain rfl : "__InputValue" = type := by simpa [Place.holds?] using hplace
    refine Bool.not_eq_false _ ▸ fun hdropped => ?_
    obtain ⟨value, hvalue, -, hhidden, -⟩ := (admits_input_eq_false h hvalue).mp hdropped
    simp [admits, hvalue, hhidden] at hadmits
  · rw [admits_projectMembers h hne hplace hvalue.of_object hinput, hadmits]

include h in
private theorem isSome_filterAt_project {value : Json} (hplace : place.holds? = some (type, false))
    (hvalue : Describes CarriesName type false value)
    (hkept : (filterAt v place value).isSome = true) :
    (filterAt v place (project type (namedSets type sets) value)).isSome = true := by
  by_cases hne : plainSets sets = []
  · rwa [namedSets_eq_nil.mpr hne, project_nil]
  cases hvalue with
  | scalar hscalar => rwa [project_scalar hscalar]
  | @object _ members hproper hmembers =>
    rw [project_object (mt namedSets_eq_nil.mp hne), filterAt]
    rw [filterAt] at hkept
    by_cases hadmits : admits v place members = true
    · rw [if_pos (admits_projectMembers_of_admits h hne hplace (.object hproper hmembers) hadmits)]
      rfl
    · rw [if_neg hadmits] at hkept
      have hnull : place = .type := by
        by_contra hother
        simp [hother] at hkept
      rw [if_pos hnull]
      split <;> rfl

end Object

section Members

variable (h : Unaliased (plainSets sets)) (hplace : place.holds? = some (type, false))
  (hproper : CarriesName type members)

include h hplace hproper in
private theorem filterMember_iff {name : String} {value : Json} (hm : (name, value) ∈ members)
    (hvalue : ∀ child inner, childType? type name = some child →
      place.member? (knownName members) name = some inner →
      inner.holds? = some (child, returnsList name) →
      (filterAt v inner
            (project child (namedSets child (setsBelow type (plainSets sets) name)) value) =
          (filterAt v inner value).map
            (project child (plainSets (setsBelow type (plainSets sets) name))) ↔
        Told v inner child (plainSets (setsBelow type (plainSets sets) name)) value)) :
    filterMember v place (knownName members)
          (name, projectMember type (namedSets type sets) name name value) =
        (filterMember v place (knownName members) (name, value)).map (fun left =>
          (name, projectMember type (plainSets sets) name name left.2)) ↔
      ∀ child inner, childType? type name = some child →
        place.member? (knownName members) name = some inner →
        Told v inner child (below type (plainSets sets) name name) value := by
  cases hchild : childType? type name with
  | none =>
    have hname : ¬ (name = nameKey ∧ isNamed type = true) :=
      fun heq => ne_nameKey_of_mem hproper heq.2 hm heq.1
    simp [filterMember, member?_leaf hplace _ hchild hname, filterAt_other,
      projectMember_leaf h hchild]
  | some child =>
    obtain ⟨inner, hinner, hholds⟩ := member?_of_childType? hplace (knownName members) hchild
    have hiff := hvalue child inner hchild hinner hholds
    rw [plainSets_setsBelow h] at hiff
    simp only [filterMember, hinner, Option.bind_some, projectMember_namedSets h hchild,
      projectMember_plainSets h hchild, plainSets_setsBelow h]
    obtain ⟨left, hleft⟩ := exists_filterAt_member hinner v value
    obtain ⟨part, hpart⟩ := exists_filterAt_member hinner v
      (project child (namedSets child (setsBelow type (plainSets sets) name)) value)
    rw [hleft, hpart] at hiff ⊢
    simp only [Option.map_some, Option.some.injEq, Prod.mk.injEq, true_and] at hiff ⊢
    rw [hiff]
    constructor
    · rintro htold _ _ rfl rfl
      exact htold
    · exact fun htold => htold child inner rfl rfl

variable (hne : plainSets sets ≠ []) (hvalue : Describes CarriesName type false (.object members))

include h hplace hne hvalue in
private theorem filterAt_object_iff (hadmits : admits v place members = true) :
    filterAt v place (.object (projectMembers type (namedSets type sets) members)) =
        (filterAt v place (.object members)).map (project type (plainSets sets)) ↔
      ∀ name value, (name, value) ∈ members → name ∈ keysOf type (plainSets sets) name →
        filterMember v place (knownName members)
            (name, projectMember type (namedSets type sets) name name value) =
          (filterMember v place (knownName members) (name, value)).map fun left =>
            (name, projectMember type (plainSets sets) name name left.2) := by
  have hown : ∀ name, name ∈ keysOf type (namedSets type sets) name ↔
      name ∈ keysOf type (plainSets sets) name := by
    intro name
    refine mem_keysOf_namedSets (Classical.or_iff_not_imp_left.mpr fun hname => ?_)
    rw [Classical.not_not.mp hname]
    decide
  have hkeys : ∀ name value, (name, value) ∈ members →
      ∀ key ∈ keysOf type (namedSets type sets) name,
        key = name ∨ place.member? (knownName members) key = none := by
    intro name value _ key hkey
    refine (of_mem_keysOf_namedSets h hkey).imp_right ?_
    rintro ⟨rfl, -, hnamed⟩
    exact member?_nameKey hplace hnamed _
  rw [filterAt, if_pos (admits_projectMembers_of_admits h hne hplace hvalue hadmits), filterAt,
    if_pos hadmits, Option.map_some, project_object hne, Option.some.injEq, Json.object.injEq,
    filterMembers_congr (member?_projectMembers h hne hplace hvalue.of_object),
    filterMembers_projectMembers hkeys,
    projectMembers_filterMembers fun name key hkey => h.eq_of_mem_keysOf hkey,
    filterMap_eq_iff ?_]
  · constructor
    · intro hall name value hm hkey
      simpa [hown, hkey] using hall (name, value) hm
    · rintro hall ⟨name, value⟩ hm
      by_cases hkey : name ∈ keysOf type (plainSets sets) name
      · simpa [hown, hkey] using hall name value hm hkey
      · simp [hown, hkey]
  · rintro ⟨name, value⟩ _ hkept
    by_cases hkey : name ∈ keysOf type (plainSets sets) name
    · simpa [hown, hkey, isSome_filterMember] using hkept
    · simp [hkey] at hkept

include h hplace hne hvalue in
/-- An object that goes also goes from what is selected of it, unless it is an input of which too
little is selected. -/
private theorem filterAt_object_iff_of_not_admits (hadmits : admits v place members = false) :
    filterAt v place (.object (projectMembers type (namedSets type sets) members)) =
        (filterAt v place (.object members)).map (project type (plainSets sets)) ↔
      Told v place type (plainSets sets) (.object members) := by
  have hnull : project type (plainSets sets) .null = .null := project_scalar rfl
  by_cases hinput : place = .input
  · subst hinput
    obtain rfl : "__InputValue" = type := by simpa [Place.holds?] using hplace
    rw [told_of_not_admits hne hadmits, ← admits_input_eq_false h hvalue, filterAt, filterAt]
    simp only [hadmits, Bool.false_eq_true, if_false, reduceCtorEq, Option.map_none]
    cases admits v .input
      (projectMembers "__InputValue" (namedSets "__InputValue" sets) members) <;> simp
  · have hsame := admits_projectMembers (v := v) h hne hplace hvalue.of_object hinput
    refine iff_of_true ?_ (.hidden hadmits hinput)
    simp only [filterAt, hsame, hadmits, Bool.false_eq_true, if_false]
    split <;> simp [hnull]

end Members

private theorem filterAt_project_iff {value : Json} (hplace : place.holds? = some (type, list))
    (hvalue : Describes CarriesName type list value) (h : Unaliased (plainSets sets)) :
    filterAt v place (project type (namedSets type sets) value) =
        (filterAt v place value).map (project type (plainSets sets)) ↔
      Told v place type (plainSets sets) value := by
  induction value using induct_value generalizing place type list sets with
  | scalar value hscalar =>
    rw [project_scalar hscalar]
    refine iff_of_true ?_ (.scalar hscalar)
    cases hleft : filterAt v place value with
    | none => rfl
    | some left =>
      obtain rfl := eq_of_filterAt_scalar hscalar hleft
      rw [Option.map_some, project_scalar hscalar]
  | array values ih =>
    obtain rfl := hvalue.list_eq_true
    obtain ⟨entry, hentry, hholds⟩ := items?_of_holds?_list hplace
    rw [told_array hentry, project_array, filterAt_array hentry, filterAt_array hentry,
      Option.map_some, project_array, filterItems_eq_filterMap, filterItems_eq_filterMap,
      List.filterMap_map, List.map_filterMap, Option.some.injEq, Json.array.injEq,
      filterMap_eq_iff ?_]
    · exact forall₂_congr fun value hm => ih value hm hholds (hvalue.item hm) h
    · intro value hm hkept
      exact isSome_filterAt_project h hholds (hvalue.item hm) (by simpa using hkept)
  | object members ih =>
    by_cases hne : plainSets sets = []
    · have hwhole : project type [] = id := funext fun value => project_nil type value
      simp [namedSets_eq_nil.mpr hne, hne, hwhole, Told.whole]
    obtain rfl := hvalue.list_eq_false
    rw [project_object (mt namedSets_eq_nil.mp hne)]
    by_cases hadmits : admits v place members = true
    · rw [filterAt_object_iff h hplace hne hvalue hadmits, told_of_admits hne hadmits]
      have hmember : ∀ name value, (name, value) ∈ members → _ := fun name value hm =>
        filterMember_iff (v := v) h hplace hvalue.of_object hm fun child inner hchild _ hholds =>
          ih name value hm hholds (hvalue.member hm hchild)
            (plainSets_setsBelow h type name ▸ h.below _ _ _)
      constructor
      · intro hall name value child inner hm hkey
        exact (hmember name value hm).mp (hall name value hm hkey) child inner
      · intro htold name value hm hkey
        exact (hmember name value hm).mpr fun child inner => htold name value child inner hm hkey
    · exact filterAt_object_iff_of_not_admits h hplace hne hvalue (by simpa using hadmits)

/-- At an entry into introspection, what is left of the selected part of a value is the selected
part of what is left of the value, just if the selections tell the filter all that it asks. -/
theorem filter_project_iff {head : Field} {value : Json} (hentry : entryType? head.name = some type)
    (hvalue : Describes CarriesName type false value) (h : Unaliased items) (v : Verifier) :
    filter v head.name (project type (withEntryNames head items) value) =
        project type items (filter v head.name value) ↔
      Told v (entryPlace head.name) type items value := by
  let sets := [(head.closing, items)]
  have hplain : plainSets sets = items := by simp [sets, plainSets]
  have hnamed : namedSets type sets = withEntryNames head items := by
    simp [sets, namedSets, withEntryNames_eq, withNamesOf, hentry]
  have hsets : Unaliased (plainSets sets) := hplain.symm ▸ h
  have hiff := filterAt_project_iff (v := v) (holds?_entryPlace hentry) hvalue hsets
  obtain ⟨left, hleft⟩ :=
    exists_filterAt_entry head.name v (project type (withEntryNames head items) value)
  obtain ⟨whole, hwhole⟩ := exists_filterAt_entry head.name v value
  rw [hplain, hnamed, hleft, hwhole, Option.map_some, Option.some.injEq] at hiff
  rw [filter, filter, hleft, hwhole]
  exact hiff

section Witness

private def atStart (name : String) : Field :=
  ⟨⟨1, 1⟩, ⟨1, 1⟩, ⟨1, 1⟩, none, name, [], []⟩

private def inputOf (name type : String) : Json :=
  .object [("name", .text name), ("type", .object [("name", .text type)])]

/-- A directive with one argument of a hidden type, and one of a type that every schema has. -/
private def auditValue : Json :=
  .object [("directives", .array [.object [("name", .text "audit"),
    ("args", .array [inputOf "by" "Role", inputOf "note" "String"])]])]

private def argumentsWith (more : List Selection) : List Selection :=
  [.field (atStart "directives") [.field (atStart "args") (.field (atStart "name") [] :: more)]]

private def typeName : List Selection :=
  [.field (atStart "type") [.field (atStart "name") []]]

private def argumentsOf (arguments : List Json) : Json :=
  .object [("directives", .array [.object [("args", .array arguments)]])]

private theorem unaliased_argumentsWith {more : List Selection} (h : Unaliased more) :
    Unaliased (argumentsWith more) :=
  .field rfl (.field rfl (.field rfl unaliased_nil h) unaliased_nil) unaliased_nil

private theorem describes_inputOf (name type : String) :
    Describes CarriesName "__InputValue" false (inputOf name type) := by
  refine .object ⟨by simp [isNamed], by simp, by simp⟩ fun key value child hm hchild => ?_
  simp only [List.mem_cons, Prod.mk.injEq, List.not_mem_nil, or_false] at hm
  rcases hm with ⟨rfl, rfl⟩ | ⟨rfl, rfl⟩
  · simp [childType?] at hchild
  · cases hchild
    refine .object ⟨fun _ => by rfl, fun _ => .inr ⟨type, by rfl⟩, by simp⟩ ?_
    intro key value child hm hchild
    simp only [List.mem_singleton, Prod.mk.injEq] at hm
    simp [hm.1, childType?] at hchild

private theorem describes_auditValue : Describes CarriesName "__Schema" false auditValue := by
  refine .object ⟨by simp [isNamed], by simp, by simp⟩ fun key value child hm hchild => ?_
  simp only [List.mem_singleton, Prod.mk.injEq] at hm
  obtain ⟨rfl, rfl⟩ := hm
  cases hchild
  refine .list fun item hitem => ?_
  obtain rfl := List.mem_singleton.mp hitem
  refine .object ⟨by simp [isNamed], by simp, by simp⟩ fun key value child hm hchild => ?_
  simp only [List.mem_cons, Prod.mk.injEq, List.not_mem_nil, or_false] at hm
  rcases hm with ⟨rfl, rfl⟩ | ⟨rfl, rfl⟩
  · simp [childType?] at hchild
  · cases hchild
    refine .list fun item hitem => ?_
    simp only [List.mem_cons, List.not_mem_nil, or_false] at hitem
    rcases hitem with rfl | rfl
    · exact describes_inputOf "by" "Role"
    · exact describes_inputOf "note" "String"

/-- Where the types of the arguments are selected down to their names, the hidden one goes. -/
theorem told_of_types_selected :
    filter .denyAll "__schema" (project "__Schema"
        (withEntryNames (atStart "__schema") (argumentsWith typeName)) auditValue) =
      argumentsOf [inputOf "note" "String"] ∧
    Told .denyAll .schema "__Schema" (argumentsWith typeName) auditValue := by
  have hunaliased : Unaliased (argumentsWith typeName) :=
    unaliased_argumentsWith (.field rfl (.field rfl unaliased_nil unaliased_nil) unaliased_nil)
  have hentry : entryType? (atStart "__schema").name = some "__Schema" := by rfl
  exact ⟨by rfl, (filter_project_iff hentry describes_auditValue hunaliased .denyAll).mp (by rfl)⟩

/-- Where only the names of the arguments are selected, that of the hidden one stays. -/
theorem exists_filter_project_ne :
    Describes CarriesName "__Schema" false auditValue ∧ Unaliased (argumentsWith []) ∧
      filter .denyAll "__schema" (project "__Schema"
          (withEntryNames (atStart "__schema") (argumentsWith [])) auditValue) =
        argumentsOf [.object [("name", .text "by")], .object [("name", .text "note")]] ∧
      filter .denyAll "__schema" (project "__Schema"
          (withEntryNames (atStart "__schema") (argumentsWith [])) auditValue) ≠
        project "__Schema" (argumentsWith []) (filter .denyAll "__schema" auditValue) := by
  have hpart : filter .denyAll "__schema" (project "__Schema"
      (withEntryNames (atStart "__schema") (argumentsWith [])) auditValue) =
        argumentsOf [.object [("name", .text "by")], .object [("name", .text "note")]] := by rfl
  have hwhole : project "__Schema" (argumentsWith []) (filter .denyAll "__schema" auditValue) =
      argumentsOf [.object [("name", .text "note")]] := by rfl
  refine ⟨describes_auditValue, unaliased_argumentsWith unaliased_nil, hpart, ?_⟩
  rw [hpart, hwhole]
  simp [argumentsOf]

end Witness

end FieldAuthorization.Introspection
