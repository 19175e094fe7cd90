import Mathlib.Data.List.Dedup
import FieldAuthorization.Proofs.Introspection.AddedNames
import FieldAuthorization.Proofs.Introspection.Values

/-!
The part of a value that selections ask for.

Projecting a value keeps of each object the members that are selected, each under the response keys
of its selections, with what is selected below fields of one key taken together. Of selections
without aliases, added names change nothing but the names that stand under their own key.
-/

set_option autoImplicit false
set_option relaxedAutoImplicit false

namespace FieldAuthorization.Introspection

/-- The fields of a name that selections select on a type, with what is selected below each. Spreads
are not followed. -/
def chosen (type : String) (items : List Selection) (name : String) :
    List (Field × List Selection) :=
  (collectSelections type (fun _ => []) items).filter (·.1.name == name)

def keysOf (type : String) (items : List Selection) (name : String) : List String :=
  ((chosen type items name).map (·.1.responseKey)).dedup

/-- What is selected below the fields of a name that have a response key. -/
def below (type : String) (items : List Selection) (name key : String) : List Selection :=
  ((chosen type items name).filter (·.1.responseKey == key)).flatMap Prod.snd

def memberType? (type name : String) : Option String :=
  if type = "__Type" ∧ name = "enumValues" then some "__EnumValue" else childType? type name

mutual

/-- What is left of a value of a type if nothing is kept of its objects but what is selected. A
value without selections on it is kept whole. -/
def project (type : String) (items : List Selection) : Json → Json
  | .object members =>
    if items.isEmpty then .object members else .object (projectMembers type items members)
  | .array values => .array (projectItems type items values)
  | value => value

def projectItems (type : String) (items : List Selection) : List Json → List Json
  | [] => []
  | value :: rest => project type items value :: projectItems type items rest

def projectMembers (type : String) (items : List Selection) :
    List (String × Json) → List (String × Json)
  | [] => []
  | (name, value) :: rest =>
    (keysOf type items name).map (fun key =>
      (key, match memberType? type name with
        | some child => project child (below type items name key) value
        | none => value)) ++ projectMembers type items rest

end

def projectMember (type : String) (items : List Selection) (name key : String) (value : Json) :
    Json :=
  match memberType? type name with
  | some child => project child (below type items name key) value
  | none => value

variable {type name key : String} {items more : List Selection} {members : Json.Members}

private theorem projectItems_eq_map (type : String) (items : List Selection) (values : List Json) :
    projectItems type items values = values.map (project type items) := by
  induction values with
  | nil => simp [projectItems]
  | cons value rest ih => rw [projectItems, ih, List.map_cons]

theorem projectMembers_cons (type : String) (items : List Selection) (name : String) (value : Json)
    (rest : Json.Members) :
    projectMembers type items ((name, value) :: rest) =
      (keysOf type items name).map (fun key => (key, projectMember type items name key value)) ++
        projectMembers type items rest := by
  rw [projectMembers]
  rfl

theorem project_object (hitems : items ≠ []) :
    project type items (.object members) = .object (projectMembers type items members) := by
  simp [project, hitems]

theorem project_array (type : String) (items : List Selection) (values : List Json) :
    project type items (.array values) = .array (values.map (project type items)) := by
  rw [project, projectItems_eq_map]

theorem project_scalar {value : Json} (h : isScalar value = true) :
    project type items value = value := by
  cases value <;> simp_all [project, isScalar]

theorem project_nil (type : String) (value : Json) : project type [] value = value := by
  induction value using induct_value with
  | scalar value hscalar => exact project_scalar hscalar
  | array values ih => rw [project_array, List.map_congr_left ih, List.map_id']
  | object members ih => simp [project]

private theorem lookup_map_pair (f : String → Json) (key : String) (keys : List String) :
    (keys.map fun k => (k, f k)).lookup key = if key ∈ keys then some (f key) else none := by
  induction keys with
  | nil => simp
  | cons k rest ih =>
    by_cases hkey : key = k
    · simp [hkey]
    · have hne : (key == k) = false := by simpa using hkey
      simp [List.lookup_cons, hne, ih, hkey]

/-- A response key that only one name has stands for the member of that name. -/
theorem get?_projectMembers
    (h : ∀ other value, (other, value) ∈ members → key ∈ keysOf type items other → other = name) :
    Json.Members.get? (projectMembers type items members) key =
      if key ∈ keysOf type items name then
        (members.get? name).map (projectMember type items name key)
      else none := by
  induction members with
  | nil => simp [projectMembers, Json.Members.get?]
  | cons member rest ih =>
    obtain ⟨other, value⟩ := member
    have hrest := ih fun other value hm => h other value (List.mem_cons_of_mem _ hm)
    have hother := h other value List.mem_cons_self
    unfold Json.Members.get? at hrest ⊢
    rw [projectMembers_cons, List.lookup_append, lookup_map_pair, hrest]
    by_cases hkey : key ∈ keysOf type items other
    · obtain rfl := hother hkey
      simp [hkey]
    · by_cases hname : name = other
      · subst hname
        simp [hkey]
      · have hne : (name == other) = false := by simpa using hname
        simp [hkey, List.lookup_cons, hne]

private theorem mem_keysOf : key ∈ keysOf type items name ↔
    ∃ p ∈ chosen type items name, p.1.responseKey = key := by
  simp [keysOf, List.mem_dedup, List.mem_map]

private theorem chosen_append (type : String) (items more : List Selection) (name : String) :
    chosen type (items ++ more) name = chosen type items name ++ chosen type more name := by
  simp [chosen, collectSelections_eq_flatMap]

private theorem chosen_flatMap {α : Type} (type : String) (f : α → List Selection) (l : List α)
    (name : String) :
    chosen type (l.flatMap f) name = l.flatMap fun x => chosen type (f x) name := by
  induction l with
  | nil => rfl
  | cons x rest ih => rw [List.flatMap_cons, List.flatMap_cons, chosen_append, ih]

private theorem name_of_mem_chosen {p : Field × List Selection} (h : p ∈ chosen type items name) :
    p.1.name = name := by
  simpa using (List.mem_filter.mp h).2

def Unaliased (items : List Selection) : Prop :=
  ∀ trail head inner, Occurs items trail (.field head inner) → head.aliasName = none

private theorem unaliased_append :
    Unaliased (items ++ more) ↔ Unaliased items ∧ Unaliased more := by
  simp only [Unaliased, occurs_append, or_imp, forall_and]

theorem unaliased_nil : Unaliased [] :=
  fun _ _ _ hoccurs => absurd hoccurs not_occurs_nil

theorem Unaliased.field {head : Field} {inner rest : List Selection}
    (halias : head.aliasName = none) (hinner : Unaliased inner) (hrest : Unaliased rest) :
    Unaliased (.field head inner :: rest) := by
  rw [← List.singleton_append, unaliased_append]
  refine ⟨fun trail other below hoccurs => ?_, hrest⟩
  cases hoccurs with
  | here hm =>
    obtain ⟨rfl, -⟩ := Selection.field.inj (List.mem_singleton.mp hm)
    exact halias
  | field hm hoccurs =>
    obtain ⟨-, rfl⟩ := Selection.field.inj (List.mem_singleton.mp hm)
    exact hinner _ other below hoccurs
  | inline hm _ => cases List.mem_singleton.mp hm

private theorem Unaliased.of_mem {x : Selection} (h : Unaliased items) (hx : x ∈ items) :
    Unaliased [x] :=
  fun trail head inner hoccurs => h trail head inner (hoccurs.mono (by simpa using hx))

private theorem Unaliased.of_collectSelection {x : Selection} (h : Unaliased [x]) :
    ∀ p ∈ collectSelection type (fun _ => []) x, p.1.aliasName = none ∧ Unaliased p.2 := by
  induction x with
  | field head inner ih =>
    intro p hp
    rw [collectSelection, List.mem_singleton] at hp
    subst hp
    exact ⟨h [] head inner (.here List.mem_cons_self), fun trail below rest hoccurs =>
      h (.field head :: trail) below rest (.field List.mem_cons_self hoccurs)⟩
  | spread head => simp [collectSelection]
  | inline head inner ih =>
    intro p hp
    have hinner : Unaliased inner := fun trail below rest hoccurs =>
      h (.inline head :: trail) below rest (.inline List.mem_cons_self hoccurs)
    rw [collectSelection] at hp
    split at hp
    · rw [collectSelections_eq_flatMap, List.mem_flatMap] at hp
      obtain ⟨y, hy, hp⟩ := hp
      exact ih y hy (hinner.of_mem hy) p hp
    · cases hp

private theorem Unaliased.of_mem_chosen {p : Field × List Selection} (h : Unaliased items)
    (hp : p ∈ chosen type items name) : p.1.responseKey = name ∧ Unaliased p.2 := by
  obtain ⟨hcollected, -⟩ := List.mem_filter.mp hp
  rw [collectSelections_eq_flatMap, List.mem_flatMap] at hcollected
  obtain ⟨x, hx, hcollected⟩ := hcollected
  obtain ⟨halias, hinner⟩ := (h.of_mem hx).of_collectSelection p hcollected
  exact ⟨by simpa [Field.responseKey, halias] using name_of_mem_chosen hp, hinner⟩

theorem Unaliased.eq_of_mem_keysOf (h : Unaliased items) (hkey : key ∈ keysOf type items name) :
    key = name := by
  obtain ⟨p, hp, rfl⟩ := mem_keysOf.mp hkey
  exact (h.of_mem_chosen hp).1

private theorem unaliased_flatMap {α : Type} {f : α → List Selection} {l : List α} :
    Unaliased (l.flatMap f) ↔ ∀ x ∈ l, Unaliased (f x) := by
  induction l with
  | nil => simp [Unaliased, not_occurs_nil]
  | cons x rest ih => rw [List.flatMap_cons, unaliased_append, ih, List.forall_mem_cons]

theorem Unaliased.below (h : Unaliased items) (type name key : String) :
    Unaliased (below type items name key) :=
  unaliased_flatMap.mpr fun _ hp => (h.of_mem_chosen (List.mem_of_mem_filter hp)).2

private theorem Unaliased.below_eq (h : Unaliased items) (type name : String) :
    Introspection.below type items name name = (chosen type items name).flatMap Prod.snd := by
  rw [Introspection.below, List.filter_eq_self.mpr]
  exact fun p hp => by simpa using (h.of_mem_chosen hp).1

private theorem Unaliased.selectsNameKey (h : Unaliased items) : selectsNameKey items = false := by
  rw [Introspection.selectsNameKey, List.any_eq_false]
  intro x hx halias
  cases x with
  | field head inner => simp [h [] head inner (.here hx)] at halias
  | spread head => simp at halias
  | inline head inner => simp at halias

def plainSets (sets : List (Position × List Selection)) : List Selection :=
  sets.flatMap Prod.snd

/-- What sets of selections on a type select together with names added to each; each set comes with
the place where it ends. -/
def namedSets (type : String) (sets : List (Position × List Selection)) : List Selection :=
  sets.flatMap fun set => withNames type set.1 set.2

def setsBelow (type : String) (items : List Selection) (name : String) :
    List (Position × List Selection) :=
  (chosen type items name).map fun p => (p.1.closing, p.2)

variable {sets : List (Position × List Selection)}

private theorem collectSelection_withNestedNames (x : Selection) :
    collectSelection type (fun _ => []) (withNestedNames type x) =
      (collectSelection type (fun _ => []) x).map fun p =>
        (p.1, withNamesOf (childType? type p.1.name) p.1.closing p.2) := by
  induction x with
  | field head inner ih =>
    rw [withNestedNames_field, collectSelection, collectSelection, List.map_singleton]
  | spread head => simp [withNestedNames, collectSelection]
  | inline head inner ih =>
    rw [withNestedNames, collectSelection, collectSelection]
    split
    · rename_i hcondition
      rw [hcondition, collectSelections_eq_flatMap, collectSelections_eq_flatMap,
        withNestedNamesAll_eq_map, List.flatMap_map, List.map_flatMap]
      exact List.flatMap_congr ih
    · rfl

private theorem chosen_withNestedNamesAll (type : String) (items : List Selection) (name : String) :
    chosen type (withNestedNamesAll type items) name = (chosen type items name).map fun p =>
      (p.1, withNamesOf (childType? type name) p.1.closing p.2) := by
  unfold chosen
  rw [collectSelections_eq_flatMap, collectSelections_eq_flatMap, withNestedNamesAll_eq_map,
    List.flatMap_map, List.flatMap_congr fun x _ => collectSelection_withNestedNames x,
    ← List.map_flatMap, List.filter_map]
  refine List.map_congr_left fun p hp => ?_
  have hname : p.1.name = name := by simpa using (List.mem_filter.mp hp).2
  rw [hname]

private theorem of_mem_chosen_missingName {closing : Position} {p : Field × List Selection}
    (h : p ∈ chosen type (missingName type closing items) name) :
    name = "name" ∧ p.1.responseKey = nameKey ∧ isNamed type = true := by
  have hname := name_of_mem_chosen h
  obtain ⟨hcollected, -⟩ := List.mem_filter.mp h
  rw [collectSelections_eq_flatMap, List.mem_flatMap] at hcollected
  obtain ⟨x, hx, hcollected⟩ := hcollected
  have hnamed : isNamed type = true := by
    unfold missingName at hx
    split at hx
    · simp_all
    · cases hx
  obtain rfl := mem_missingName hx
  rw [nameSelection, collectSelection, List.mem_singleton] at hcollected
  subst hcollected
  exact ⟨hname.symm, rfl, hnamed⟩

private theorem chosen_withNames (hname : name ≠ "name") (closing : Position)
    (items : List Selection) :
    chosen type (withNames type closing items) name = (chosen type items name).map fun p =>
      (p.1, withNamesOf (childType? type name) p.1.closing p.2) := by
  have hmissing : chosen type (missingName type closing items) name = [] :=
    List.eq_nil_iff_forall_not_mem.mpr fun p hp => hname (of_mem_chosen_missingName hp).1
  rw [withNames, chosen_append, hmissing, List.append_nil, chosen_withNestedNamesAll]

private theorem chosen_namedSets (hname : name ≠ "name") (sets : List (Position × List Selection)) :
    chosen type (namedSets type sets) name = (chosen type (plainSets sets) name).map fun p =>
      (p.1, withNamesOf (childType? type name) p.1.closing p.2) := by
  rw [namedSets, plainSets, chosen_flatMap, chosen_flatMap, List.map_flatMap]
  exact List.flatMap_congr fun set _ => chosen_withNames hname set.1 set.2

private theorem mem_keysOf_withNames (hkey : key ≠ nameKey ∨ name ≠ "name") (closing : Position)
    (items : List Selection) :
    key ∈ keysOf type (withNames type closing items) name ↔ key ∈ keysOf type items name := by
  simp only [mem_keysOf, withNames, chosen_append, chosen_withNestedNamesAll, List.mem_append,
    List.mem_map]
  constructor
  · rintro ⟨_, ⟨p, hp, rfl⟩ | hp, rfl⟩
    · exact ⟨p, hp, rfl⟩
    · obtain ⟨hname, hadded, -⟩ := of_mem_chosen_missingName hp
      rcases hkey with hkey | hkey
      · exact absurd hadded hkey
      · exact absurd hname hkey
  · rintro ⟨p, hp, rfl⟩
    exact ⟨_, .inl ⟨p, hp, rfl⟩, rfl⟩

private theorem mem_keysOf_flatMap {α : Type} {f : α → List Selection} {l : List α} :
    key ∈ keysOf type (l.flatMap f) name ↔ ∃ x ∈ l, key ∈ keysOf type (f x) name := by
  simp only [mem_keysOf, chosen_flatMap, List.mem_flatMap]
  constructor
  · rintro ⟨p, ⟨x, hx, hp⟩, hkey⟩
    exact ⟨x, hx, p, hp, hkey⟩
  · rintro ⟨x, hx, p, hp, hkey⟩
    exact ⟨p, ⟨x, hx, hp⟩, hkey⟩

theorem mem_keysOf_namedSets (hkey : key ≠ nameKey ∨ name ≠ "name") :
    key ∈ keysOf type (namedSets type sets) name ↔ key ∈ keysOf type (plainSets sets) name := by
  simp only [namedSets, plainSets, mem_keysOf_flatMap, mem_keysOf_withNames hkey]

theorem nameKey_mem_keysOf (hnamed : isNamed type = true) (h : Unaliased (plainSets sets))
    (hne : plainSets sets ≠ []) : nameKey ∈ keysOf type (namedSets type sets) "name" := by
  obtain ⟨x, hx⟩ := List.exists_mem_of_ne_nil _ hne
  obtain ⟨set, hset, hx⟩ := List.mem_flatMap.mp hx
  have hunaliased : Unaliased set.2 := unaliased_flatMap.mp h set hset
  have hmissing : missingName type set.1 set.2 = [nameSelection set.1] := by
    simp [missingName, hnamed, List.ne_nil_of_mem hx, hunaliased.selectsNameKey]
  refine mem_keysOf_flatMap.mpr ⟨set, hset, mem_keysOf.mpr ?_⟩
  rw [withNames, chosen_append, hmissing]
  exact ⟨_, List.mem_append_right _ List.mem_cons_self, rfl⟩

theorem of_mem_keysOf_namedSets (h : Unaliased (plainSets sets))
    (hkey : key ∈ keysOf type (namedSets type sets) name) :
    key = name ∨ key = nameKey ∧ name = "name" ∧ isNamed type = true := by
  obtain ⟨set, hset, hkey⟩ := mem_keysOf_flatMap.mp hkey
  obtain ⟨p, hp, rfl⟩ := mem_keysOf.mp hkey
  rw [withNames, chosen_append, chosen_withNestedNamesAll, List.mem_append, List.mem_map] at hp
  rcases hp with ⟨q, hq, rfl⟩ | hp
  · exact .inl ((unaliased_flatMap.mp h set hset).of_mem_chosen hq).1
  · obtain ⟨hname, hadded, hnamed⟩ := of_mem_chosen_missingName hp
    exact .inr ⟨hadded, hname, hnamed⟩

theorem plainSets_setsBelow (h : Unaliased items) (type name : String) :
    plainSets (setsBelow type items name) = below type items name name := by
  rw [h.below_eq, plainSets, setsBelow, List.flatMap_map]

private theorem below_namedSets (h : Unaliased (plainSets sets)) (hname : name ≠ "name") :
    below type (namedSets type sets) name name =
      match childType? type name with
      | some child => namedSets child (setsBelow type (plainSets sets) name)
      | none => below type (plainSets sets) name name := by
  have hkey : ∀ p ∈ chosen type (namedSets type sets) name, (p.1.responseKey == name) = true := by
    intro p hp
    rw [chosen_namedSets hname] at hp
    obtain ⟨q, hq, rfl⟩ := List.mem_map.mp hp
    simpa using (h.of_mem_chosen hq).1
  rw [below, List.filter_eq_self.mpr hkey, chosen_namedSets hname, List.flatMap_map, h.below_eq]
  cases childType? type name with
  | none => rfl
  | some child => simp only [namedSets, setsBelow, List.flatMap_map, withNamesOf]

private theorem withNames_eq_nil {closing : Position} :
    withNames type closing items = [] ↔ items = [] := by
  constructor
  · intro h
    rw [withNames, List.append_eq_nil_iff, withNestedNamesAll_eq_map, List.map_eq_nil_iff] at h
    exact h.1
  · rintro rfl
    simp [withNames, withNestedNamesAll, missingName]

theorem namedSets_eq_nil : namedSets type sets = [] ↔ plainSets sets = [] := by
  simp only [namedSets, plainSets, List.flatMap_eq_nil_iff, withNames_eq_nil]

private theorem memberType?_of_childType? {child : String} (h : childType? type name = some child) :
    memberType? type name = some child := by
  have hother : ¬ (type = "__Type" ∧ name = "enumValues") := by
    rintro ⟨rfl, rfl⟩
    simp [childType?] at h
  rw [memberType?, if_neg hother, h]

theorem projectMember_namedSets (h : Unaliased (plainSets sets)) {child : String}
    (hchild : childType? type name = some child) (value : Json) :
    projectMember type (namedSets type sets) name name value =
      project child (namedSets child (setsBelow type (plainSets sets) name)) value := by
  have hname : name ≠ "name" := by
    rintro rfl
    simp [childType?_name] at hchild
  simp only [projectMember, memberType?_of_childType? hchild, below_namedSets h hname, hchild]

theorem projectMember_plainSets (h : Unaliased items) {child : String}
    (hchild : childType? type name = some child) (value : Json) :
    projectMember type items name name value =
      project child (plainSets (setsBelow type items name)) value := by
  simp only [projectMember, memberType?_of_childType? hchild, plainSets_setsBelow h]

theorem projectMember_leaf (h : Unaliased (plainSets sets)) (hchild : childType? type name = none)
    (value : Json) :
    projectMember type (namedSets type sets) name name value =
      projectMember type (plainSets sets) name name value := by
  unfold projectMember
  by_cases hname : name = "name"
  · subst hname
    simp [memberType?, childType?_name]
  · rw [below_namedSets h hname, hchild]

end FieldAuthorization.Introspection
