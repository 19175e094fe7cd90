import FieldAuthorization.Proofs.Introspection.References

/-!
Filtering a filtered value.

What the filter decides about an object, it reads off the name of the object and the type that it
refers to. Where no name has been added, what is left of an object has the name that the object had,
and refers to no more hidden types; so whatever has been kept once is kept again, as it is.
-/

set_option autoImplicit false
set_option relaxedAutoImplicit false

namespace FieldAuthorization

namespace Json

mutual

/-- Whether an object in a value, at any depth, has a member of the key. -/
def hasKey (key : String) : Json → Bool
  | .array items => itemsHaveKey key items
  | .object members => membersHaveKey key members
  | _ => false

def itemsHaveKey (key : String) : List Json → Bool
  | [] => false
  | item :: rest => item.hasKey key || itemsHaveKey key rest

def membersHaveKey (key : String) : List (String × Json) → Bool
  | [] => false
  | (first, value) :: rest => first == key || value.hasKey key || membersHaveKey key rest

end

variable {key : String}

private theorem hasKey_item {items : List Json} (h : hasKey key (.array items) = false)
    {item : Json} (hitem : item ∈ items) : item.hasKey key = false := by
  rw [hasKey] at h
  induction items with
  | nil => cases hitem
  | cons first rest ih =>
    rw [itemsHaveKey, Bool.or_eq_false_iff] at h
    rcases List.mem_cons.mp hitem with rfl | hitem
    · exact h.1
    · exact ih h.2 hitem

private theorem hasKey_member {members : Members} (h : hasKey key (.object members) = false)
    {first : String} {value : Json} (hm : (first, value) ∈ members) :
    first ≠ key ∧ value.hasKey key = false := by
  rw [hasKey] at h
  induction members with
  | nil => cases hm
  | cons member rest ih =>
    obtain ⟨other, held⟩ := member
    simp only [membersHaveKey, Bool.or_eq_false_iff, beq_eq_false_iff_ne] at h
    obtain ⟨⟨hother, hheld⟩, hrest⟩ := h
    rcases List.mem_cons.mp hm with hfirst | hm
    · obtain ⟨rfl, rfl⟩ := Prod.mk.inj hfirst
      exact ⟨hother, hheld⟩
    · exact ih hrest hm

private theorem get?_eq_none_of_hasKey {members : Members}
    (h : hasKey key (.object members) = false) :
    members.get? key = none := by
  rw [Members.get?, List.lookup_eq_none_iff]
  intro member hm
  have hne := (hasKey_member h hm).1
  simpa using hne.symm

end Json

namespace Introspection

variable {v : Verifier} {place : Place} {members : Json.Members} {value left : Json}

private theorem nameOf_filterMembers (h : Json.hasKey nameKey (.object members) = false)
    (parent : Option String) :
    nameOf (filterMembers v place parent members) = nameOf members := by
  have hadded : Json.Members.get? (filterMembers v place parent members) nameKey = none := by
    rw [get?_filterMembers, Json.get?_eq_none_of_hasKey h]
    cases place.member? parent nameKey <;> rfl
  have hplace : place.member? parent "name" = some .other := by
    cases place <;> rfl
  have hname : Json.Members.get? (filterMembers v place parent members) "name" =
      members.get? "name" := by
    rw [get?_filterMembers, hplace, Option.bind_some]
    cases members.get? "name" with
    | none => rfl
    | some value => exact filterAt_other v value
  rw [nameOf, nameOf, hadded, hname, Json.get?_eq_none_of_hasKey h]

private theorem knownName_filterMembers (h : Json.hasKey nameKey (.object members) = false)
    (parent : Option String) :
    knownName (filterMembers v place parent members) = knownName members := by
  rw [knownName, knownName, nameOf_filterMembers h]

private theorem object_of_filterAt {kept : Json.Members}
    (h : filterAt v .type value = some (.object kept)) :
    ∃ members, value = .object members ∧ admits v .type members = true ∧
      filterMembers v .type (knownName members) members = kept := by
  cases value with
  | object members =>
    rw [filterAt] at h
    split at h
    · rename_i hadmits
      exact ⟨members, rfl, hadmits, by simpa using h⟩
    · simp at h
  | array items => simp [filterAt, Place.items?] at h
  | _ => simp [filterAt] at h

private theorem names_of_filterAt {name : String} (hnames : Names left name)
    (hkey : value.hasKey nameKey = false) (h : filterAt v .type value = some left) :
    Names value name := by
  induction hnames generalizing value with
  | @named kept name hname =>
    obtain ⟨members, rfl, -, rfl⟩ := object_of_filterAt h
    exact .named (nameOf_filterMembers hkey _ ▸ hname)
  | @wrapper kept inner name hknown hinner _ ih =>
    obtain ⟨members, rfl, -, rfl⟩ := object_of_filterAt h
    rw [knownName_filterMembers hkey] at hknown
    have hplace : Place.member? .type (knownName members) "ofType" = some .type := by rfl
    rw [get?_filterMembers, hplace, Option.bind_some] at hinner
    obtain ⟨held, hheld, hleft⟩ := Option.bind_eq_some_iff.mp hinner
    exact .wrapper hknown hheld
      (ih (Json.hasKey_member hkey (mem_of_get?_eq_some hheld)).2 hleft)

private theorem admits_input_filterMembers (hkey : Json.hasKey nameKey (.object members) = false)
    (parent : Option String) (h : admits v .input members = true) :
    admits v .input (filterMembers v .input parent members) = true := by
  have hplace : Place.member? .input parent "type" = some .type := by rfl
  simp only [admits, Bool.not_eq_true', Option.any_eq_false, get?_filterMembers, hplace,
    Option.bind_some, Option.bind_eq_some_iff] at h ⊢
  rintro left ⟨value, hvalue, hleft⟩
  have hshown := refersToHidden_eq_false_iff.mp (h value hvalue)
  refine refersToHidden_eq_false_iff.mpr fun name hnames => ?_
  exact hshown name <|
    names_of_filterAt hnames (Json.hasKey_member hkey (mem_of_get?_eq_some hvalue)).2 hleft

private theorem admits_filterMembers (hkey : Json.hasKey nameKey (.object members) = false)
    (parent : Option String) (h : admits v place members = true) :
    admits v place (filterMembers v place parent members) = true := by
  cases place with
  | input => exact admits_input_filterMembers hkey parent h
  | type | typeEntry => simpa only [admits, isHidden, nameOf_filterMembers hkey] using h
  | field known => simpa only [admits, keepsField, nameOf_filterMembers hkey] using h
  | _ => rfl

private theorem filterAt_filterAt (hkey : value.hasKey nameKey = false)
    (h : filterAt v place value = some left) : filterAt v place left = some left := by
  induction value using induct_value generalizing place left with
  | scalar value hscalar =>
    obtain rfl := eq_of_filterAt_scalar hscalar h
    exact h
  | array items ih =>
    cases hitems : place.items? with
    | none =>
      obtain rfl := filterAt_array_of_items?_eq_none hitems h
      exact h
    | some entry =>
      rw [filterAt_array hitems, Option.some.injEq] at h
      subst h
      rw [filterAt_array hitems, filterItems_eq_filterMap v entry (filterItems v entry items),
        filterMap_eq_self]
      intro kept hkept
      obtain ⟨item, hitem, hleft⟩ := mem_filterItems.mp hkept
      exact ih item hitem (Json.hasKey_item hkey hitem) hleft
  | object members ih =>
    rw [filterAt] at h
    split at h
    · rename_i hadmits
      rw [Option.some.injEq] at h
      subst h
      rw [filterAt, if_pos (admits_filterMembers hkey _ hadmits), knownName_filterMembers hkey,
        filterMembers_eq_filterMap v place _ (filterMembers v place _ members), filterMap_eq_self]
      rintro ⟨key, kept⟩ hkept
      obtain ⟨value, inner, hm, hinner, hleft⟩ := mem_filterMembers.mp hkept
      rw [hinner, Option.bind_some, ih key value hm (Json.hasKey_member hkey hm).2 hleft,
        Option.map_some]
    · split at h
      · rename_i hplace
        rw [Option.some.injEq] at h
        rw [← h, hplace]
        rfl
      · cases h

/-- To filter a filtered value changes nothing, if no object in the value has a member under the key
of added names. -/
theorem filter_filter (v : Verifier) (field : String) {value : Json}
    (h : value.hasKey nameKey = false) :
    filter v field (filter v field value) = filter v field value := by
  obtain ⟨left, hleft⟩ := exists_filterAt_entry field v value
  have hfilter : filter v field value = left := by rw [filter, hleft, Option.getD_some]
  rw [hfilter, filter, filterAt_filterAt h hleft, Option.getD_some]

section Witness

private def idReader : Verifier :=
  ⟨["reader"], ⟨.ofList [⟨"User", "id"⟩] compare, .ofList ["User"] compare⟩⟩

private def hiddenAccount : Json :=
  .object [("name", .text "Account")]

/-- A type with a field whose first argument is of a hidden type and whose second is of no known
one, and with lists that are none. -/
private def userType (arguments : List Json) (inmost : Json) (fields : List Json) : Json :=
  .object [("interfaces", .text "none"), ("name", .text "User"),
    ("fields", .array (.object [("name", .text "id"), ("args", .array arguments),
      ("type", .object [("name", .null), ("ofType", inmost)])] :: fields))]

private def wideType : Json :=
  userType [.object [("type", .object [("name", .null), ("ofType", hiddenAccount)])],
    .object [("type", .object [("kind", .text "ENUM")])]] hiddenAccount
    [.object [("name", .text "account")], .null, .array []]

private def narrowType : Json :=
  userType [.object [("type", .null)]] .null []

/-- Types that have become null, entries that are gone and lists that are none stay so. -/
theorem filter_filter_of_user :
    wideType.hasKey nameKey = false ∧ filter idReader "__type" wideType = narrowType ∧
      filter idReader "__type" narrowType = narrowType := by
  have hkey : wideType.hasKey nameKey = false := by rfl
  have hfilter : filter idReader "__type" wideType = narrowType := by rfl
  exact ⟨hkey, hfilter, hfilter ▸ filter_filter idReader "__type" hkey⟩

end Witness

end Introspection

end FieldAuthorization
