import FieldAuthorization.Proofs.Introspection.Disclosure

/-!
Values that show what a caller may not see.

A value leaks if the filter leaves something of an object in it that is not visible. A small host is
made to leak: everything that it returns leads to a hidden type or to a denied field.
-/

set_option autoImplicit false
set_option relaxedAutoImplicit false

namespace FieldAuthorization.Introspection

section Leaks

variable {Object : Type} {host : Host Object} {d : Document} {v : Verifier} {depth : Nat}
  {place inner : Place} {o : Object} {items below : List Selection} {head : Field}

/-- What the filter leaves of the value of an object at a place shows something that is not
visible. -/
def Host.Leaks (host : Host Object) (d : Document) (v : Verifier) (depth : Nat) (place : Place)
    (o : Object) (items : List Selection) : Prop :=
  ∃ left, filterAt v place (host.answer d depth o items) = some left ∧
    ¬ host.Safe d v depth (place = .queryRoot) o items left

private theorem firsts_unique {heads : List Field} {other : Field} (hhead : head ∈ firsts heads)
    (hother : other ∈ firsts heads) (hkey : other.responseKey = head.responseKey) :
    other = head := by
  induction heads with
  | nil => simp [firsts] at hhead
  | cons first rest ih =>
    rw [firsts, List.mem_cons, List.mem_filter] at hhead hother
    rcases hhead with rfl | ⟨hhead, hne⟩ <;> rcases hother with rfl | ⟨hother, hne'⟩
    · rfl
    · simp [hkey] at hne'
    · simp [hkey] at hne
    · exact ih hhead hother

private theorem selected_unique {type : String} {other : Field} {below' : List Selection}
    (h : (head, below) ∈ selected d type depth items)
    (h' : (other, below') ∈ selected d type depth items)
    (hkey : other.responseKey = head.responseKey) : other = head ∧ below' = below := by
  obtain ⟨first, hfirst, hsame⟩ := List.mem_map.mp h
  obtain ⟨first', hfirst', hsame'⟩ := List.mem_map.mp h'
  obtain ⟨rfl, rfl⟩ := Prod.mk.inj hsame
  obtain ⟨rfl, rfl⟩ := Prod.mk.inj hsame'
  obtain rfl := firsts_unique hfirst hfirst' hkey
  exact ⟨rfl, rfl⟩

theorem Host.not_safe_of_mem {exempt : Prop} {members : Json.Members} {kept : Json} (head : Field)
    (hselected : (head, below) ∈ selected d (host.origin o).typename depth items)
    (hm : (head.responseKey, kept) ∈ members)
    (hleaks : ¬ (host.member o head.name head.arguments).Leaves
      (host.Safe d v depth ((host.origin o).typename = "__Schema" ∧ head.name = "queryType"))
      below kept) :
    ¬ host.Safe d v (depth + 1) exempt o items (.object members) := by
  intro hsafe
  rw [Host.Safe] at hsafe
  rcases hsafe with hnull | ⟨-, members', hmembers, hall⟩
  · cases hnull
  · cases hmembers
    obtain ⟨other, below', hm', hkey, hleaves⟩ := hall _ _ hm
    obtain ⟨rfl, rfl⟩ := selected_unique hselected hm' hkey
    exact hleaks hleaves

theorem Host.Leaks.of_member {kept : Json}
    (hselected : (head, below) ∈ selected d (host.origin o).typename depth items)
    (hadmits : admits v place (host.answerMembers d depth o items) = true)
    (hinner : place.member? (knownName (host.answerMembers d depth o items)) head.responseKey =
      some inner)
    (hkept : filterAt v inner ((host.member o head.name head.arguments).project
      (host.answer d depth) below) = some kept)
    (hleaks : ¬ (host.member o head.name head.arguments).Leaves
      (host.Safe d v depth ((host.origin o).typename = "__Schema" ∧ head.name = "queryType"))
      below kept) :
    host.Leaks d v (depth + 1) place o items := by
  refine ⟨_, by rw [Host.answer_succ, filterAt, if_pos hadmits], ?_⟩
  refine Host.not_safe_of_mem head hselected
    (mem_filterMembers.mpr ⟨_, inner, ?_, hinner, hkept⟩) hleaks
  exact (host.mem_answerMembers d).mpr ⟨head, below, hselected, rfl, rfl⟩

theorem Member.not_leaves_list {safe : Object → List Selection → Json → Prop} {other : Object}
    {kept : Json} (h : ¬ safe other below kept) :
    ¬ (Member.list [other]).Leaves safe below (.array [kept]) := by
  rintro ⟨entries, hentries, hshown⟩
  cases hentries
  cases hshown with
  | cons hsafe _ => exact h hsafe
  | cons_right hnone => cases hnone

theorem Host.not_safe_of_not_visible {exempt : Prop} {members : Json.Members}
    (hvisible : ¬ host.Visible v o) (hexempt : ¬ exempt) :
    ¬ host.Safe d v depth exempt o items (.object members) := by
  intro hsafe
  cases depth with
  | zero => cases hsafe
  | succ depth =>
    rw [Host.Safe] at hsafe
    rcases hsafe with hnull | ⟨hex | hvis, -⟩
    · cases hnull
    · exact hexempt hex
    · exact hvisible hvis

end Leaks

/-- The objects of the host. There is a visible and a hidden type and a list type around the hidden
one; a field of the visible type is denied, or allowed and of either of the other types. An allowed
field has the name of the hidden type, which is let through where it is taken for a field. -/
inductive Thing
  | schema
  | seen
  | unseen
  | wrapper
  | denied
  | allowed
  | listed
  | input
  | directive

namespace Thing

def origin : Thing → Origin
  | .schema => .schema
  | .seen => .type (some "Seen")
  | .unseen => .type (some "Unseen")
  | .wrapper => .type none
  | .denied => .field "Seen" "Seen"
  | .allowed => .field "Seen" "Unseen"
  | .listed => .field "Seen" "Unseen"
  | .input => .input
  | .directive => .directive

def member (own : Thing) : Thing → String → Member Thing
  | .schema, "types" => .list [.unseen]
  | .schema, "queryType" => .object .seen
  | .schema, "mutationType" => .object .unseen
  | .schema, "subscriptionType" => .object .unseen
  | .schema, "directives" => .list [.directive]
  | .seen, "fields" => .list [own]
  | .seen, "interfaces" => .list [.unseen]
  | .seen, "possibleTypes" => .list [.unseen]
  | .seen, "inputFields" => .list [.input]
  | .wrapper, "ofType" => .object .unseen
  | .allowed, "type" => .object .unseen
  | .listed, "type" => .object .wrapper
  | .allowed, "args" => .list [.input]
  | .input, "type" => .object .unseen
  | .directive, "args" => .list [.input]
  | .seen, "name" => .leaf (.text "Seen")
  | .unseen, "name" => .leaf (.text "Unseen")
  | .denied, "name" => .leaf (.text "Seen")
  | .allowed, "name" => .leaf (.text "Unseen")
  | .listed, "name" => .leaf (.text "Unseen")
  | .input, "name" => .leaf (.text "Seen")
  | .directive, "name" => .leaf (.text "Seen")
  | _, _ => .leaf .null

def entry : String → Member Thing
  | "__schema" => .object .schema
  | "__type" => .object .seen
  | _ => .leaf .null

def IsOwn (own : Thing) : Prop :=
  own = .denied ∨ own = .allowed ∨ own = .listed

variable {own : Thing}

private theorem member_holds (hown : own.IsOwn) (o : Thing) (field child : String)
    (h : childType? o.origin.typename field = some child) :
    (member own o field).Holds (returnsList field) fun other =>
      o.origin.Returns field other.origin := by
  have hmem := mem_of_childType?_eq_some h
  cases o <;> simp [origin, Origin.typename] at hmem
  case schema =>
    rcases hmem with ⟨rfl, rfl⟩ | ⟨rfl, rfl⟩ | ⟨rfl, rfl⟩ | ⟨rfl, rfl⟩ | ⟨rfl, rfl⟩ <;>
      simp [member, Member.Holds, returnsList, Origin.Returns, origin, Origin.typename, childType?]
  case seen =>
    rcases hown with rfl | rfl | rfl <;>
      rcases hmem with ⟨rfl, rfl⟩ | ⟨rfl, rfl⟩ | ⟨rfl, rfl⟩ | ⟨rfl, rfl⟩ | ⟨rfl, rfl⟩ <;>
      simp [member, Member.Holds, returnsList, Origin.Returns, origin, Origin.typename, childType?]
  case unseen =>
    rcases hmem with ⟨rfl, rfl⟩ | ⟨rfl, rfl⟩ | ⟨rfl, rfl⟩ | ⟨rfl, rfl⟩ | ⟨rfl, rfl⟩ <;> rfl
  case wrapper =>
    rcases hmem with ⟨rfl, rfl⟩ | ⟨rfl, rfl⟩ | ⟨rfl, rfl⟩ | ⟨rfl, rfl⟩ | ⟨rfl, rfl⟩ <;>
      simp [member, Member.Holds, returnsList, Origin.Returns, origin, Origin.typename, childType?]
  case denied => rcases hmem with ⟨rfl, rfl⟩ | ⟨rfl, rfl⟩ <;> rfl
  case allowed =>
    rcases hmem with ⟨rfl, rfl⟩ | ⟨rfl, rfl⟩ <;>
      simp [member, Member.Holds, returnsList, Origin.Returns, origin, Origin.typename, childType?]
  case listed =>
    rcases hmem with ⟨rfl, rfl⟩ | ⟨rfl, rfl⟩ <;>
      simp [member, Member.Holds, returnsList, Origin.Returns, origin, Origin.typename, childType?]
  case input =>
    obtain ⟨rfl, rfl⟩ := hmem
    simp [member, Member.Holds, returnsList, Origin.Returns, origin, Origin.typename, childType?]
  case directive =>
    obtain ⟨rfl, rfl⟩ := hmem
    simp [member, Member.Holds, returnsList, Origin.Returns, origin, Origin.typename, childType?]

private theorem member_leaf (o : Thing) (field : String)
    (h : childType? o.origin.typename field = none) :
    ∃ value, member own o field = .leaf value := by
  unfold member
  split <;> simp_all [origin, Origin.typename, childType?]

def host (own : Thing) (hown : own.IsOwn) : Host Thing where
  origin := origin
  entry field _ := entry field
  member o field _ := member own o field
  entry_holds field _ type h := by
    unfold entryType? at h
    split at h <;> cases h <;> exact ⟨rfl, rfl⟩
  type_name o name _ h := by
    cases o <;> simp only [origin, Origin.type.injEq, reduceCtorEq] at h <;> subst h <;> rfl
  field_name o parent name _ h := by
    cases o <;> simp only [origin, Origin.field.injEq, reduceCtorEq] at h <;>
      obtain ⟨rfl, rfl⟩ := h <;> rfl
  member_leaf o field _ := member_leaf o field
  member_holds o field _ := member_holds hown o field

end Thing

end FieldAuthorization.Introspection
