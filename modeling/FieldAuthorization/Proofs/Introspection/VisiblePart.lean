import FieldAuthorization.Proofs.Introspection.Values

/-!
The visible part of a value.

An object of introspection survives if it describes something that the caller may see. The filter
keeps just the objects that survive: of a list it drops the others, and for a single one it puts
null. It takes out the key of added names, and leaves everything else as it is.
-/

set_option autoImplicit false
set_option relaxedAutoImplicit false

namespace FieldAuthorization.Introspection

/-- Where a value stands: the type of introspection that it is of, whether it is a list of it,
whether it is the query root, and the name of the object around it. -/
structure Spot where
  type : String
  list : Bool
  root : Bool
  parent : Option String

namespace Spot

def entry (type : String) : Spot :=
  ⟨type, false, false, none⟩

def item (spot : Spot) : Spot :=
  { spot with list := false }

/-- Where the member of a key stands in an object of the name `parent`. -/
def member (spot : Spot) (parent : Option String) (key child : String) : Spot :=
  ⟨child, returnsList key, spot.type = "__Schema" && key = "queryType", parent⟩

end Spot

/-- The type that a type reference names, inside any wrappers. -/
inductive Names : Json → String → Prop
  | named {members : Json.Members} {name : String} :
      nameOf members = .named name → Names (.object members) name
  | wrapper {members : Json.Members} {value : Json} {name : String} :
      knownName members = none → members.get? "ofType" = some value → Names value name →
      Names (.object members) name

/-- Types survive that are the query root, wrappers or shown; fields that belong to introspection or
are allowed on the type around them; arguments and input fields that name no hidden type; and
everything else. -/
def Survives (v : Verifier) (spot : Spot) (members : Json.Members) : Prop :=
  match spot.type with
  | "__Type" => spot.root = true ∨ nameOf members = .unnamed ∨
      ∃ name, nameOf members = .named name ∧ v.showsType name = true
  | "__Field" => ∃ name, nameOf members = .named name ∧
      (isMeta name = true ∨ ∃ parent, spot.parent = some parent ∧ v.allows parent name = true)
  | "__InputValue" => ∀ value name, members.get? "type" = some value → Names value name →
      v.showsType name = true
  | _ => True

mutual

/-- What is shown of a value at a spot. -/
inductive Shown (v : Verifier) : Spot → Json → Json → Prop
  | scalar {spot : Spot} {value : Json} : isScalar value = true → Shown v spot value value
  /-- An array where a single object belongs is not looked into. -/
  | array {spot : Spot} {items : List Json} :
      spot.list = false → Shown v spot (.array items) (.array items)
  | list {spot : Spot} {items left : List Json} :
      spot.list = true → ShownItems v spot.item items left →
      Shown v spot (.array items) (.array left)
  | object {spot : Spot} {members left : Json.Members} :
      Survives v spot members → ShownMembers v spot (knownName members) members left →
      Shown v spot (.object members) (.object left)
  | hidden {spot : Spot} {members : Json.Members} :
      ¬ Survives v spot members → Shown v spot (.object members) .null

inductive ShownItems (v : Verifier) : Spot → List Json → List Json → Prop
  | nil {spot : Spot} : ShownItems v spot [] []
  | keep {spot : Spot} {members kept : Json.Members} {items left : List Json} :
      Survives v spot members → ShownMembers v spot (knownName members) members kept →
      ShownItems v spot items left →
      ShownItems v spot (.object members :: items) (.object kept :: left)
  | drop {spot : Spot} {members : Json.Members} {items left : List Json} :
      ¬ Survives v spot members → ShownItems v spot items left →
      ShownItems v spot (.object members :: items) left

inductive ShownMembers (v : Verifier) :
    Spot → (parent : Option String) → Json.Members → Json.Members → Prop
  | nil {spot : Spot} {parent : Option String} : ShownMembers v spot parent [] []
  | name {spot : Spot} {parent : Option String} {members left : Json.Members} {value : Json} :
      isNamed spot.type = true → ShownMembers v spot parent members left →
      ShownMembers v spot parent ((nameKey, value) :: members) left
  | leaf {spot : Spot} {parent : Option String} {members left : Json.Members} {key : String}
      {value : Json} :
      ¬ (key = nameKey ∧ isNamed spot.type = true) → childType? spot.type key = none →
      ShownMembers v spot parent members left →
      ShownMembers v spot parent ((key, value) :: members) ((key, value) :: left)
  | member {spot : Spot} {parent : Option String} {members left : Json.Members}
      {key child : String} {value kept : Json} :
      childType? spot.type key = some child →
      Shown v (spot.member parent key child) value kept →
      ShownMembers v spot parent members left →
      ShownMembers v spot parent ((key, value) :: members) ((key, kept) :: left)

end

section Inversion

variable {v : Verifier} {spot : Spot} {parent : Option String} {members : Json.Members}
  {items : List Json} {key child : String} {value left : Json}

private theorem shown_scalar_iff (hscalar : isScalar value = true) :
    Shown v spot value left ↔ left = value := by
  constructor
  · intro h
    cases h with
    | scalar => rfl
    | array | list | object | hidden => cases hscalar
  · rintro rfl
    exact .scalar hscalar

private theorem shown_single_array_iff (hlist : spot.list = false) :
    Shown v spot (.array items) left ↔ left = .array items := by
  constructor
  · intro h
    cases h with
    | scalar hscalar => cases hscalar
    | array => rfl
    | list h => simp [hlist] at h
  · rintro rfl
    exact .array hlist

private theorem shown_list_iff (hlist : spot.list = true) : Shown v spot (.array items) left ↔
    ∃ kept, left = .array kept ∧ ShownItems v spot.item items kept := by
  constructor
  · intro h
    cases h with
    | scalar hscalar => cases hscalar
    | array h => simp [hlist] at h
    | list _ hitems => exact ⟨_, rfl, hitems⟩
  · rintro ⟨kept, rfl, hitems⟩
    exact .list hlist hitems

private theorem shown_object_iff (hsurvives : Survives v spot members) :
    Shown v spot (.object members) left ↔
      ∃ kept, left = .object kept ∧ ShownMembers v spot (knownName members) members kept := by
  constructor
  · intro h
    cases h with
    | scalar hscalar => cases hscalar
    | object _ hmembers => exact ⟨_, rfl, hmembers⟩
    | hidden h => exact absurd hsurvives h
  · rintro ⟨kept, rfl, hmembers⟩
    exact .object hsurvives hmembers

private theorem shown_hidden_iff (hsurvives : ¬ Survives v spot members) :
    Shown v spot (.object members) left ↔ left = .null := by
  constructor
  · intro h
    cases h with
    | scalar hscalar => cases hscalar
    | object h => exact absurd h hsurvives
    | hidden => rfl
  · rintro rfl
    exact .hidden hsurvives

private theorem shownItems_nil_iff {left : List Json} : ShownItems v spot [] left ↔ left = [] := by
  constructor
  · rintro ⟨⟩
    rfl
  · rintro rfl
    exact .nil

private theorem shownItems_keep_iff {left : List Json} (hsurvives : Survives v spot members) :
    ShownItems v spot (.object members :: items) left ↔ ∃ kept rest, left = .object kept :: rest ∧
      ShownMembers v spot (knownName members) members kept ∧ ShownItems v spot items rest := by
  constructor
  · intro h
    cases h with
    | keep _ hmembers hitems => exact ⟨_, _, rfl, hmembers, hitems⟩
    | drop h => exact absurd hsurvives h
  · rintro ⟨kept, rest, rfl, hmembers, hitems⟩
    exact .keep hsurvives hmembers hitems

private theorem shownItems_drop_iff {left : List Json} (hsurvives : ¬ Survives v spot members) :
    ShownItems v spot (.object members :: items) left ↔ ShownItems v spot items left := by
  constructor
  · intro h
    cases h with
    | keep h => exact absurd h hsurvives
    | drop _ hitems => exact hitems
  · exact .drop hsurvives

private theorem shownMembers_nil_iff {left : Json.Members} :
    ShownMembers v spot parent [] left ↔ left = [] := by
  constructor
  · rintro ⟨⟩
    rfl
  · rintro rfl
    exact .nil

private theorem shownMembers_name_iff {left : Json.Members} (hnamed : isNamed spot.type = true) :
    ShownMembers v spot parent ((nameKey, value) :: members) left ↔
      ShownMembers v spot parent members left := by
  constructor
  · intro h
    cases h with
    | name _ hmembers => exact hmembers
    | leaf h => exact absurd ⟨rfl, hnamed⟩ h
    | member h =>
      have hmem := mem_of_childType?_eq_some h
      simp [nameKey] at hmem
  · exact .name hnamed

private theorem shownMembers_leaf_iff {left : Json.Members}
    (hname : ¬ (key = nameKey ∧ isNamed spot.type = true))
    (hchild : childType? spot.type key = none) :
    ShownMembers v spot parent ((key, value) :: members) left ↔
      ∃ rest, left = (key, value) :: rest ∧ ShownMembers v spot parent members rest := by
  constructor
  · intro h
    cases h with
    | name hnamed => exact absurd ⟨rfl, hnamed⟩ hname
    | leaf _ _ hmembers => exact ⟨_, rfl, hmembers⟩
    | member h => simp [hchild] at h
  · rintro ⟨rest, rfl, hmembers⟩
    exact .leaf hname hchild hmembers

private theorem shownMembers_member_iff {left : Json.Members}
    (hname : ¬ (key = nameKey ∧ isNamed spot.type = true))
    (hchild : childType? spot.type key = some child) :
    ShownMembers v spot parent ((key, value) :: members) left ↔
      ∃ kept rest, left = (key, kept) :: rest ∧
        Shown v (spot.member parent key child) value kept ∧
        ShownMembers v spot parent members rest := by
  constructor
  · intro h
    cases h with
    | name hnamed => exact absurd ⟨rfl, hnamed⟩ hname
    | leaf _ h => simp [hchild] at h
    | member h hkept hmembers =>
      obtain rfl := Option.some.inj (hchild.symm.trans h)
      exact ⟨_, _, rfl, hkept, hmembers⟩
  · rintro ⟨kept, rest, rfl, hkept, hmembers⟩
    exact .member hchild hkept hmembers

end Inversion

def isObjects : Json → Bool
  | .null => true
  | .array items => items.all fun
    | .object _ => true
    | _ => false
  | _ => false

mutual

/-- Whether every member that should hold a list is null or an array of objects, at every depth. -/
def isListed : Json → Bool
  | .array items => isListedItems items
  | .object members => isListedMembers members
  | _ => true

def isListedItems : List Json → Bool
  | [] => true
  | item :: rest => isListed item && isListedItems rest

def isListedMembers : List (String × Json) → Bool
  | [] => true
  | (key, value) :: rest =>
    isListed value && (!returnsList key || isObjects value) && isListedMembers rest

end

private theorem isListedMembers_cons {key : String} {value : Json} {members : Json.Members}
    (h : isListedMembers ((key, value) :: members) = true) :
    isListed value = true ∧ (returnsList key = true → isObjects value = true) ∧
      isListedMembers members = true := by
  simp only [isListedMembers, Bool.and_eq_true, Bool.or_eq_true, Bool.not_eq_true',
    ← Bool.not_eq_true] at h
  obtain ⟨⟨hvalue, hobjects⟩, hmembers⟩ := h
  exact ⟨hvalue, Or.neg_resolve_left hobjects, hmembers⟩

private theorem object_of_isObjects {items : List Json} (h : isObjects (.array items) = true)
    {item : Json} (hitem : item ∈ items) : ∃ members, item = .object members := by
  have hobject := List.all_eq_true.mp h item hitem
  cases item <;> cases hobject
  exact ⟨_, rfl⟩

variable {v : Verifier} {place : Place} {spot : Spot} {members : Json.Members}

theorem refersToHidden_eq_false_iff {value : Json} :
    refersToHidden v value = false ↔ ∀ name, Names value name → v.showsType name = true := by
  induction value using induct_value with
  | scalar value hscalar =>
    refine iff_of_true ?_ ?_
    · cases value <;> simp_all [refersToHidden, isScalar]
    · rintro name ⟨⟩ <;> simp [isScalar] at hscalar
  | array items ih =>
    refine iff_of_true (by simp [refersToHidden]) ?_
    rintro name ⟨⟩
  | object members ih =>
    cases hname : nameOf members with
    | named name =>
      simp only [refersToHidden, hname, Bool.not_eq_false']
      constructor
      · intro hshown other hnames
        cases hnames with
        | named h =>
          obtain rfl : name = other := by simpa [hname] using h
          exact hshown
        | wrapper h => simp [knownName, hname] at h
      · intro h
        exact h name (.named hname)
    | _ =>
      have hunknown : knownName members = none := by rw [knownName, hname]
      simp only [refersToHidden, hname, wrapsHidden_eq, Option.any_eq_false]
      constructor
      · intro h name hnames
        cases hnames with
        | named h => simp [hname] at h
        | wrapper _ hvalue hnames =>
          exact (ih _ _ (mem_of_get?_eq_some hvalue)).mp (h _ hvalue) name hnames
      · intro h value hvalue
        refine (ih _ _ (mem_of_get?_eq_some hvalue)).mpr fun name hnames => ?_
        exact h name (.wrapper hunknown hvalue hnames)

/-- The filter reads what stands at a spot by a place that says the same of it. -/
structure Place.Matches (place : Place) (spot : Spot) : Prop where
  holds : place.holds? = some (spot.type, spot.list)
  root : spot.root = true ↔ place = .queryRoot
  parent : ∀ parent, place = .field parent ∨ place = .fieldList parent → parent = spot.parent

def Place.isEntry : Place → Bool
  | .typeEntry | .field _ | .input | .directive => true
  | _ => false

private theorem matches_entry {field type : String} (h : entryType? field = some type) :
    (entryPlace field).Matches (.entry type) := by
  unfold entryType? at h
  split at h <;> cases h <;> exact ⟨rfl, by simp [Spot.entry, entryPlace], by simp [entryPlace]⟩

private theorem member?_eq_queryRoot (parent : Option String) {key : String} :
    place.member? parent key = some .queryRoot ↔ place = .schema ∧ key = "queryType" := by
  constructor
  · intro h
    unfold Place.member? typeMember at h
    grind
  · rintro ⟨rfl, rfl⟩
    rfl

namespace Place.Matches

private theorem items? (h : place.Matches spot) (hlist : spot.list = true) :
    ∃ entry, place.items? = some entry ∧ entry.isEntry = true ∧ entry.Matches spot.item := by
  have hholds := h.holds
  rw [hlist] at hholds
  obtain ⟨entry, hentry, hitem⟩ := items?_of_holds?_list hholds
  have hroot : ¬ spot.root = true := by
    rw [h.root]
    rintro rfl
    cases hentry
  refine ⟨entry, hentry, ?_, hitem, ?_, ?_⟩
  · cases place <;> cases hentry <;> rfl
  · refine iff_of_false hroot ?_
    cases place <;> cases hentry <;> nofun
  · intro parent hparent
    refine h.parent parent ?_
    cases place <;> cases hentry <;> simp_all

private theorem member (h : place.Matches spot) (hlist : spot.list = false) (parent : Option String)
    {key child : String} (hchild : childType? spot.type key = some child) :
    ∃ inner, place.member? parent key = some inner ∧ inner.isEntry = false ∧
      inner.Matches (spot.member parent key child) := by
  have hholds := h.holds
  rw [hlist] at hholds
  obtain ⟨inner, hinner, hmember⟩ := member?_of_childType? hholds parent hchild
  have hmem := mem_of_member?_eq_some hinner
  refine ⟨inner, hinner, ?_, hmember, ?_, ?_⟩
  · simp only [List.mem_cons, List.not_mem_nil, or_false] at hmem
    rcases hmem with rfl | rfl | rfl | rfl | rfl | rfl | rfl <;> rfl
  · have hschema : spot.type = "__Schema" ↔ place = .schema := by
      cases place <;> simp [Place.holds?] at hholds <;> simp [← hholds]
    simp only [Spot.member, Bool.and_eq_true, decide_eq_true_eq, hschema]
    rw [← member?_eq_queryRoot parent, hinner, Option.some.injEq]
  · intro other hother
    simp only [List.mem_cons, List.not_mem_nil, or_false] at hmem
    rcases hmem with rfl | rfl | rfl | rfl | rfl | rfl | rfl <;> simp_all [Spot.member]

private theorem admits_iff (h : place.Matches spot) (hlist : spot.list = false) (v : Verifier)
    (members : Json.Members) :
    admits v place members = true ↔ Survives v spot members := by
  obtain ⟨hholds, hroot, hparent⟩ := h
  rw [hlist] at hholds
  obtain ⟨type, list, root, parent⟩ := spot
  cases place <;> cases hholds
  case schema => simp [admits, Survives]
  case directive => simp [admits, Survives]
  case type | typeEntry =>
    have hnot : root = false := by simpa using hroot
    cases hname : nameOf members <;> simp [admits, Survives, isHidden, hname, hnot]
  case queryRoot => simp [admits, Survives, show root = true from hroot.mpr rfl]
  case field known =>
    obtain rfl : known = parent := hparent known (.inl rfl)
    cases hname : nameOf members <;> simp [admits, Survives, keepsField, hname, Option.any_eq_true]
  case input =>
    simp only [admits, Survives, Bool.not_eq_true', Option.any_eq_false,
      refersToHidden_eq_false_iff]
    refine forall_congr' fun value => ?_
    exact forall_comm

end Place.Matches

private theorem filterAt_array_of_single {type : String}
    (hholds : place.holds? = some (type, false)) (hentry : place.isEntry = false)
    (items : List Json) :
    filterAt v place (.array items) = some (.array items) := by
  cases place <;> cases hholds <;> cases hentry <;> rfl

private theorem filterAt_entry_object (hentry : place.isEntry = true) (members : Json.Members) :
    filterAt v place (.object members) = if admits v place members then
      some (.object (filterMembers v place (knownName members) members)) else none := by
  rw [filterAt]
  cases place <;> cases hentry <;> rfl

private theorem filterAt_single_object {type : String} (hholds : place.holds? = some (type, false))
    (hentry : place.isEntry = false) (members : Json.Members) :
    filterAt v place (.object members) = if admits v place members then
      some (.object (filterMembers v place (knownName members) members)) else some .null := by
  rw [filterAt]
  cases place <;> cases hholds <;> cases hentry <;> rfl

private theorem shown_scalar_iff_filterAt {value left : Json} (hentry : place.isEntry = false)
    (hscalar : isScalar value = true) :
    Shown v spot value left ↔ filterAt v place value = some left := by
  have hfield : ∀ parent, place ≠ .field parent := by
    rintro parent rfl
    cases hentry
  rw [shown_scalar_iff hscalar, filterAt_scalar hscalar hfield, Option.some.injEq, eq_comm]

mutual

private theorem shown_iff {place : Place} {spot : Spot} (hmatches : place.Matches spot)
    (hentry : place.isEntry = false) : ∀ {value : Json}, isListed value = true →
      (spot.list = true → isObjects value = true) →
      ∀ left, Shown v spot value left ↔ filterAt v place value = some left
  | .object members, hlisted, hobjects => by
    intro left
    have hlist : spot.list = false := by
      rw [← Bool.not_eq_true]
      intro hlist
      cases hobjects hlist
    have hholds := hmatches.holds
    rw [hlist] at hholds
    have hmembers := shownMembers_iff (knownName members) hmatches hlist hlisted
    have hsurvives := hmatches.admits_iff hlist v members
    rw [filterAt_single_object hholds hentry]
    by_cases hadmits : admits v place members = true
    · rw [shown_object_iff (hsurvives.mp hadmits), if_pos hadmits]
      simp [hmembers, eq_comm]
    · rw [shown_hidden_iff (mt hsurvives.mpr hadmits), if_neg hadmits, Option.some.injEq, eq_comm]
  | .array items, hlisted, hobjects => by
    intro left
    have hholds := hmatches.holds
    cases hlist : spot.list with
    | false =>
      rw [hlist] at hholds
      rw [shown_single_array_iff hlist, filterAt_array_of_single hholds hentry, Option.some.injEq,
        eq_comm]
    | true =>
      obtain ⟨entry, hitem, hisEntry, hmatch⟩ := hmatches.items? hlist
      have hitems := shownItems_iff hmatch hisEntry rfl hlisted fun item hitem =>
        object_of_isObjects (hobjects hlist) hitem
      rw [shown_list_iff hlist, filterAt_array hitem]
      simp [hitems, eq_comm]
  | .null, _, _ => fun _ => shown_scalar_iff_filterAt hentry rfl
  | .boolean _, _, _ => fun _ => shown_scalar_iff_filterAt hentry rfl
  | .number _, _, _ => fun _ => shown_scalar_iff_filterAt hentry rfl
  | .text _, _, _ => fun _ => shown_scalar_iff_filterAt hentry rfl

theorem shownItems_iff {place : Place} {spot : Spot} (hmatches : place.Matches spot)
    (hentry : place.isEntry = true) (hlist : spot.list = false) : ∀ {items : List Json},
      isListedItems items = true → (∀ item ∈ items, ∃ members, item = .object members) →
      ∀ left, ShownItems v spot items left ↔ filterItems v place items = left
  | [], _, _ => by
    intro left
    rw [shownItems_nil_iff, filterItems, eq_comm]
  | .object members :: rest, hlisted, hitems => by
    intro left
    rw [isListedItems, Bool.and_eq_true] at hlisted
    have hmembers := shownMembers_iff (knownName members) hmatches hlist hlisted.1
    have hrest := shownItems_iff hmatches hentry hlist hlisted.2 fun item hitem =>
      hitems item (List.mem_cons_of_mem _ hitem)
    have hsurvives := hmatches.admits_iff hlist v members
    rw [filterItems, filterAt_entry_object hentry]
    by_cases hadmits : admits v place members = true
    · rw [shownItems_keep_iff (hsurvives.mp hadmits), if_pos hadmits]
      simp [hmembers, hrest, eq_comm]
    · rw [shownItems_drop_iff (mt hsurvives.mpr hadmits), if_neg hadmits, hrest]
  | .null :: _, _, hitems | .boolean _ :: _, _, hitems | .number _ :: _, _, hitems
  | .text _ :: _, _, hitems | .array _ :: _, _, hitems => by
    obtain ⟨_, ⟨⟩⟩ := hitems _ List.mem_cons_self

theorem shownMembers_iff {place : Place} {spot : Spot} (parent : Option String)
    (hmatches : place.Matches spot) (hlist : spot.list = false) : ∀ {members : Json.Members},
      isListedMembers members = true →
      ∀ left, ShownMembers v spot parent members left ↔ filterMembers v place parent members = left
  | [], _ => by
    intro left
    rw [shownMembers_nil_iff, filterMembers, eq_comm]
  | (key, value) :: rest, hlisted => by
    intro left
    obtain ⟨hvalue, hobjects, hrest⟩ := isListedMembers_cons hlisted
    have hmembers := shownMembers_iff parent hmatches hlist hrest
    have hholds := hmatches.holds
    rw [hlist] at hholds
    rw [filterMembers]
    by_cases hname : key = nameKey ∧ isNamed spot.type = true
    · obtain ⟨rfl, hnamed⟩ := hname
      rw [shownMembers_name_iff hnamed, member?_nameKey hholds hnamed, hmembers]
    · cases hchild : childType? spot.type key with
      | none =>
        rw [shownMembers_leaf_iff hname hchild]
        simp [member?_leaf hholds parent hchild hname, filterAt_other, hmembers, eq_comm]
      | some child =>
        obtain ⟨inner, hinner, hsingle, hmember⟩ := hmatches.member hlist parent hchild
        obtain ⟨kept, hkept⟩ := exists_filterAt_member hinner v value
        have hshown := shown_iff hmember hsingle hvalue hobjects
        rw [shownMembers_member_iff hname hchild]
        simp [hinner, hkept, hshown, hmembers, eq_comm]

end

/-- Of a value of an entry field in which every list is one of objects, the filter leaves the
visible part: the types and fields that the caller may see, without the key of added names, and all
else but arguments and input fields of hidden types, as it was. -/
theorem filter_eq_iff_shown {field type : String} {value left : Json}
    (hentry : entryType? field = some type) (hlisted : isListed value = true) :
    filter v field value = left ↔ Shown v (.entry type) value left := by
  have hmatches := matches_entry hentry
  have hsingle : (entryPlace field).isEntry = false := by
    unfold entryPlace
    split <;> rfl
  obtain ⟨kept, hkept⟩ := exists_filterAt_entry field v value
  rw [shown_iff hmatches hsingle hlisted nofun, filter, hkept, Option.getD_some, Option.some.injEq]

section Witness

private def userReader : Verifier :=
  ⟨["reader"], ⟨.ofList [⟨"Query", "user"⟩, ⟨"User", "name"⟩] compare,
    .ofList ["Query", "User"] compare⟩⟩

private def vault : Json :=
  .object [("name", .text "Vault")]

private def userField (arguments : List Json) : Json :=
  .object [("name", .text "user"), ("args", .array arguments),
    ("type", .object [("name", .null), ("ofType", .object [("name", .text "User")])])]

/-- The names of the two fields of the query root stand under different keys. -/
private def vaultSchema : Json :=
  .object [("description", .text "all there is"), ("mutationType", vault),
    ("types", .array [vault, .object [(nameKey, .text "Query"), ("name", .text "Root"),
      ("fields", .array [.object [(nameKey, .text "vault"), ("name", .text "user")],
        userField [.object [("type", .object [("name", .null), ("ofType", vault)])]]])]])]

private def userSchema : Json :=
  .object [("description", .text "all there is"), ("mutationType", .null),
    ("types", .array [.object [("name", .text "Root"), ("fields", .array [userField []])]])]

/-- The hidden type is dropped, set to null, and taken away with what refers to it. -/
theorem filter_eq_iff_shown_of_vault :
    isListed vaultSchema = true ∧ Shown userReader (.entry "__Schema") vaultSchema userSchema := by
  have hlisted : isListed vaultSchema = true := by rfl
  have hfilter : filter userReader "__schema" vaultSchema = userSchema := by rfl
  exact ⟨hlisted, (filter_eq_iff_shown rfl hlisted).mp hfilter⟩

end Witness

end FieldAuthorization.Introspection
