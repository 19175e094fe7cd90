import FieldAuthorization.Proofs.Introspection.VisiblePart

/-!
Type references of arguments and input fields.

A reference is hidden if it is to a hidden type, to a type of unknown name, or to a wrapper of
either. Entries of a hidden reference are to be dropped, and the references of all others are to
stay whole. The filter looks for the name of a hidden type when it drops entries, and for a known
name when it cuts references, so the two fall apart just where a reference ends in an object of
unknown name that leads to no hidden type.
-/

set_option autoImplicit false
set_option relaxedAutoImplicit false

namespace FieldAuthorization.Introspection

variable {v : Verifier} {place : Place} {members : Json.Members} {value left : Json}

theorem get?_filterMembers (parent : Option String) (members : Json.Members) (key : String) :
    Json.Members.get? (filterMembers v place parent members) key =
      (place.member? parent key).bind fun inner => (members.get? key).bind (filterAt v inner) := by
  induction members with
  | nil => cases hinner : place.member? parent key <;> simp [filterMembers, Json.Members.get?]
  | cons member rest ih =>
    obtain ⟨first, value⟩ := member
    rw [filterMembers]
    by_cases hkey : key = first
    · subst hkey
      cases hfirst : place.member? parent key with
      | none => simpa only [hfirst, Option.bind_none] using ih
      | some inner =>
        obtain ⟨kept, hkept⟩ := exists_filterAt_member hfirst v value
        simp [hkept, Json.Members.get?]
    · have hne : (key == first) = false := by simpa using hkey
      cases hfirst : place.member? parent first with
      | none => simpa only [Json.Members.get?, List.lookup_cons, hne] using ih
      | some inner =>
        obtain ⟨kept, hkept⟩ := exists_filterAt_member hfirst v value
        simpa only [hkept, Json.Members.get?, List.lookup_cons, hne] using ih

/-- A type reference is hidden: it is of a hidden type, its name is unknown, or it is a wrapper of a
hidden one. -/
inductive HiddenReference (v : Verifier) : Json → Prop
  | named {members : Json.Members} {name : String} :
      nameOf members = .named name → v.showsType name = false → HiddenReference v (.object members)
  | unknown {members : Json.Members} :
      nameOf members = .unknown → HiddenReference v (.object members)
  | wrapper {members : Json.Members} {value : Json} :
      nameOf members = .unnamed → members.get? "ofType" = some value → HiddenReference v value →
      HiddenReference v (.object members)

/-- Inside its wrappers, a type reference is an object of unknown name that leads to no hidden
type. -/
inductive Anonymous (v : Verifier) : Json → Prop
  | unknown {members : Json.Members} :
      nameOf members = .unknown →
      (∀ name, Names (.object members) name → v.showsType name = true) →
      Anonymous v (.object members)
  | wrapper {members : Json.Members} {value : Json} :
      nameOf members = .unnamed → members.get? "ofType" = some value → Anonymous v value →
      Anonymous v (.object members)

/-- An argument or an input field is of a hidden type. -/
def OfHiddenType (v : Verifier) (members : Json.Members) : Prop :=
  ∃ value, members.get? "type" = some value ∧ HiddenReference v value

private theorem hiddenReference_of_names {name : String} (hnames : Names value name)
    (hhidden : v.showsType name = false) : HiddenReference v value := by
  induction hnames with
  | named hname => exact .named hname hhidden
  | @wrapper members inner name hknown hinner _ ih =>
    cases hname : nameOf members with
    | named other => simp [knownName, hname] at hknown
    | unnamed => exact .wrapper hname hinner (ih hhidden)
    | unknown => exact .unknown hname

private theorem hiddenReference_of_refersToHidden (h : refersToHidden v value = true) :
    HiddenReference v value := by
  refine Classical.byContradiction fun hvisible => ?_
  have hshown : ∀ name, Names value name → v.showsType name = true := by
    intro name hnames
    cases hshows : v.showsType name with
    | true => rfl
    | false => exact absurd (hiddenReference_of_names hnames hshows) hvisible
  simp [refersToHidden_eq_false_iff.mpr hshown] at h

private theorem anonymous_iff : Anonymous v value ↔
    HiddenReference v value ∧ refersToHidden v value = false := by
  constructor
  · intro h
    induction h with
    | unknown hname hshown => exact ⟨.unknown hname, refersToHidden_eq_false_iff.mpr hshown⟩
    | wrapper hname hvalue _ ih =>
      refine ⟨.wrapper hname hvalue ih.1, ?_⟩
      simp [refersToHidden, hname, wrapsHidden_eq, hvalue, ih.2]
  · rintro ⟨hhidden, hrefers⟩
    induction hhidden with
    | named hname hnot => simp [refersToHidden, hname, hnot] at hrefers
    | unknown hname => exact .unknown hname (refersToHidden_eq_false_iff.mp hrefers)
    | wrapper hname hvalue _ ih =>
      refine .wrapper hname hvalue (ih ?_)
      simpa [refersToHidden, hname, wrapsHidden_eq, hvalue] using hrefers

/-- What is left of a type reference is whole: an object is left of an object, all along its
wrappers. -/
inductive Whole : Json → Json → Prop
  | other {value : Json} : (∀ members, value ≠ .object members) → Whole value value
  | inmost {members kept : Json.Members} :
      (nameOf members = .unnamed → members.get? "ofType" = none) →
      Whole (.object members) (.object kept)
  | wrapper {members kept : Json.Members} {value left : Json} :
      nameOf members = .unnamed → members.get? "ofType" = some value →
      kept.get? "ofType" = some left → Whole value left → Whole (.object members) (.object kept)

private theorem whole_of_filterAt (hvisible : ¬ HiddenReference v value)
    (h : filterAt v .type value = some left) : Whole value left := by
  induction value using induct_value generalizing left with
  | scalar value hscalar =>
    rw [eq_of_filterAt_scalar hscalar h]
    exact .other (by rintro members rfl; simp [isScalar] at hscalar)
  | array items ih =>
    rw [filterAt_array_of_items?_eq_none rfl h]
    exact .other (by simp)
  | object members ih =>
    have hadmits : admits v .type members = true := by
      cases hname : nameOf members with
      | named name =>
        cases hshown : v.showsType name with
        | true => simp [admits, isHidden, hname, hshown]
        | false => exact absurd (.named hname hshown) hvisible
      | unnamed => simp [admits, isHidden, hname]
      | unknown => exact absurd (.unknown hname) hvisible
    rw [filterAt, if_pos hadmits, Option.some.injEq] at h
    subst h
    by_cases hname : nameOf members = .unnamed
    · cases hinner : members.get? "ofType" with
      | none => exact .inmost fun _ => hinner
      | some inner =>
        obtain ⟨kept, hkept⟩ : ∃ kept, filterAt v .type inner = some kept :=
          exists_filterAt (by simp) (by simp) (by simp) v inner
        have hget : Json.Members.get? (filterMembers v .type (knownName members) members) "ofType" =
            (members.get? "ofType").bind (filterAt v .type) :=
          get?_filterMembers (knownName members) members "ofType"
        rw [hinner] at hget
        refine .wrapper hname hinner (hget.trans hkept) ?_
        exact ih _ _ (mem_of_get?_eq_some hinner)
          (fun hhidden => hvisible (.wrapper hname hinner hhidden)) hkept
    · exact .inmost fun hunnamed => absurd hunnamed hname

structure KeepsEntry (members kept : Json.Members) : Prop where
  type : ∀ value, members.get? "type" = some value →
    ∃ left, kept.get? "type" = some left ∧ Whole value left
  others : ∀ key, key ≠ "type" → kept.get? key = members.get? key

private theorem keepsEntry_filterMembers (h : ¬ OfHiddenType v members) :
    KeepsEntry members (filterMembers v .input (knownName members) members) where
  type value hvalue := by
    obtain ⟨left, hleft⟩ : ∃ left, filterAt v .type value = some left :=
      exists_filterAt (by simp) (by simp) (by simp) v value
    have hget : Json.Members.get? (filterMembers v .input (knownName members) members) "type" =
        (members.get? "type").bind (filterAt v .type) :=
      get?_filterMembers (knownName members) members "type"
    rw [hvalue] at hget
    exact ⟨left, hget.trans hleft, whole_of_filterAt (fun hhidden => h ⟨value, hvalue, hhidden⟩)
      hleft⟩
  others key hkey := by
    have hother : Place.member? .input (knownName members) key = some .other := by
      simp [Place.member?, hkey]
    rw [get?_filterMembers, hother, Option.bind_some]
    cases members.get? key with
    | none => rfl
    | some value => exact filterAt_other v value

/-- Of a list of arguments or input fields, those of a hidden type are dropped and the others are
kept. -/
inductive DropsHidden (v : Verifier) : List Json.Members → List Json → Prop
  | nil : DropsHidden v [] []
  | drop {members : Json.Members} {entries : List Json.Members} {left : List Json} :
      OfHiddenType v members → DropsHidden v entries left →
      DropsHidden v (members :: entries) left
  | keep {members kept : Json.Members} {entries : List Json.Members} {left : List Json} :
      ¬ OfHiddenType v members → KeepsEntry members kept → DropsHidden v entries left →
      DropsHidden v (members :: entries) (.object kept :: left)

variable {entries : List Json.Members}

private theorem filterItems_input_cons (members : Json.Members) (entries : List Json.Members) :
    filterItems v .input ((members :: entries).map .object) =
      if (members.get? "type").any (refersToHidden v) then
        filterItems v .input (entries.map .object)
      else .object (filterMembers v .input (knownName members) members) ::
        filterItems v .input (entries.map .object) := by
  rw [List.map_cons, filterItems, filterAt]
  cases hhidden : (members.get? "type").any (refersToHidden v) <;> simp [admits, hhidden]

private theorem DropsHidden.length_le {kept : List Json} (h : DropsHidden v entries kept) :
    kept.length ≤ (filterItems v .input (entries.map .object)).length := by
  induction h with
  | nil => exact Nat.zero_le _
  | drop _ _ ih =>
    rw [filterItems_input_cons]
    split
    · exact ih
    · exact Nat.le_succ_of_le ih
  | keep hvisible _ _ ih =>
    rw [filterItems_input_cons, if_neg]
    · exact Nat.succ_le_succ ih
    · intro hany
      obtain ⟨value, hvalue, hrefers⟩ := (Option.any_eq_true _ _).mp hany
      exact hvisible ⟨value, hvalue, hiddenReference_of_refersToHidden hrefers⟩

/-- Of every list of arguments or input fields, the filter drops those of a hidden type, and of no
other, and leaves the type references of the others whole, just if none of them has a type reference
that ends in an object of unknown name and leads to no hidden type. -/
theorem dropsHidden_filterItems_iff (v : Verifier) (entries : List Json.Members) :
    DropsHidden v entries (filterItems v .input (entries.map .object)) ↔
      ∀ members ∈ entries, ∀ value, members.get? "type" = some value → ¬ Anonymous v value := by
  induction entries with
  | nil =>
    rw [List.map_nil, filterItems]
    exact iff_of_true .nil nofun
  | cons members entries ih =>
    rw [List.forall_mem_cons, ← ih, filterItems_input_cons]
    by_cases hany : (members.get? "type").any (refersToHidden v) = true
    · rw [if_pos hany]
      obtain ⟨value, hvalue, hrefers⟩ := (Option.any_eq_true _ _).mp hany
      have hhidden : OfHiddenType v members :=
        ⟨value, hvalue, hiddenReference_of_refersToHidden hrefers⟩
      constructor
      · intro h
        refine ⟨fun other hother hanonymous => ?_, ?_⟩
        · obtain rfl : value = other := Option.some.inj (hvalue.symm.trans hother)
          simp [(anonymous_iff.mp hanonymous).2] at hrefers
        · generalize filterItems v .input (entries.map .object) = left at h ⊢
          cases h with
          | drop _ hrest => exact hrest
          | keep hvisible => exact absurd hhidden hvisible
      · exact fun h => .drop hhidden h.2
    · rw [if_neg hany]
      have hnames : ∀ value, members.get? "type" = some value → refersToHidden v value = false := by
        intro value hvalue
        simpa [hvalue] using hany
      constructor
      · intro h
        cases h with
        | drop _ hrest => exact absurd hrest.length_le (by simp)
        | keep hvisible _ hrest =>
          exact ⟨fun value hvalue hanonymous =>
            hvisible ⟨value, hvalue, (anonymous_iff.mp hanonymous).1⟩, hrest⟩
      · rintro ⟨hclear, hrest⟩
        have hvisible : ¬ OfHiddenType v members := fun ⟨value, hvalue, hhidden⟩ =>
          hclear value hvalue (anonymous_iff.mpr ⟨hhidden, hnames value hvalue⟩)
        exact .keep hvisible (keepsEntry_filterMembers hvisible) hrest

/-- The type of the argument has neither name selected. -/
private def namelessArgument : Json.Members :=
  [("name", .text "by"), ("type", .object [("kind", .text "ENUM")])]

/-- An argument of unknown type stays, and its type becomes null. -/
theorem exists_not_dropsHidden :
    OfHiddenType .denyAll namelessArgument ∧
      filterItems .denyAll .input [.object namelessArgument] =
        [.object [("name", .text "by"), ("type", .null)]] ∧
      ¬ DropsHidden .denyAll [namelessArgument]
        (filterItems .denyAll .input [.object namelessArgument]) := by
  have hhidden : OfHiddenType .denyAll namelessArgument := ⟨_, rfl, .unknown rfl⟩
  have hleft : filterItems .denyAll .input [.object namelessArgument] =
      [.object [("name", .text "by"), ("type", .null)]] := by rfl
  refine ⟨hhidden, hleft, fun h => ?_⟩
  rw [hleft] at h
  cases h with
  | drop _ hrest => cases hrest
  | keep hvisible => exact hvisible hhidden

end FieldAuthorization.Introspection
