import FieldAuthorization.Proofs.Introspection.Host
import FieldAuthorization.Proofs.Introspection.Keying

/-!
When introspection discloses nothing that its caller may not see.

The filter finds the objects in a value by the keys they stand under. A host puts them under the
keys that the client chose, so what they describe is kept from the client just where these keys are
read as the fields are.
-/

set_option autoImplicit false
set_option relaxedAutoImplicit false

namespace FieldAuthorization.Introspection

/-- Fields with another key under which the filter treats what they return no less strictly: a
query root is taken for a root that may be hidden, and input fields for fields, of which none is
kept unless its name is allowed. -/
def interchangeable : List (String × String) :=
  [("queryType", "mutationType"), ("queryType", "subscriptionType"),
    ("mutationType", "subscriptionType"), ("subscriptionType", "mutationType"),
    ("interfaces", "possibleTypes"), ("possibleTypes", "interfaces"), ("inputFields", "fields")]

/-- The filter finds what a field returns under the key. -/
def Harmless (field key : String) : Prop :=
  key = field ∨ (field, key) ∈ interchangeable

/-- The filter treats an object of an origin as such at a place. The fields at a place are those of
the type that it is known to belong to, if any. -/
def Place.Reads : Place → Origin → Prop
  | .schema, .schema => True
  | .type, .type _ => True
  | .queryRoot, .type _ => True
  | .typeEntry, .type _ => True
  | .field known, .field parent _ => known = none ∨ known = some parent
  | .field _, .input => True
  | .input, .input => True
  | .directive, .directive => True
  | _, _ => False

/-- The filter treats an object that a field returns as such at the place of the field's value. -/
def Place.Finds (place : Place) (origin : Origin) (field : String) (child : Origin) : Prop :=
  if returnsList field then
    ∃ entry, place.items? = some entry ∧ entry.Reads child ∧ entry ≠ .queryRoot
  else place.Reads child ∧
    (place = .queryRoot → origin.typename = "__Schema" ∧ field = "queryType")

section Finds

variable {field key : String} {child : Origin} {known : Option String} {place inner : Place}

private theorem finds_schema (hreturns : Origin.schema.Returns field child)
    (hkey : Harmless field key) (hinner : Place.schema.member? known key = some inner) :
    inner.Finds .schema field child := by
  rcases returns_schema hreturns with ⟨⟨name, rfl⟩, hfield⟩ | ⟨rfl, rfl⟩
  · simp only [List.mem_cons, List.not_mem_nil, or_false] at hfield
    rcases hfield with rfl | rfl | rfl | rfl <;> simp [Harmless, interchangeable] at hkey
    · subst hkey
      cases hinner
      exact ⟨.typeEntry, rfl, trivial, by simp⟩
    · rcases hkey with rfl | rfl | rfl <;> cases hinner <;>
        simp [Place.Finds, returnsList, Place.Reads, Origin.typename]
    · rcases hkey with rfl | rfl <;> cases hinner <;>
        simp [Place.Finds, returnsList, Place.Reads]
    · rcases hkey with rfl | rfl <;> cases hinner <;>
        simp [Place.Finds, returnsList, Place.Reads]
  · simp [Harmless, interchangeable] at hkey
    subst hkey
    cases hinner
    exact ⟨.directive, rfl, trivial, by simp⟩

private theorem finds_type {name : Option String}
    (hreturns : (Origin.type name).Returns field child)
    (hknown : known = none ∨ known = name) (hkey : Harmless field key)
    (hinner : some (typeMember known key) = some inner) : inner.Finds (.type name) field child := by
  cases hinner
  rcases returns_type hreturns with
    ⟨⟨parent, own, rfl, rfl⟩, rfl⟩ | ⟨⟨other, rfl⟩, hfield⟩ | ⟨rfl, rfl⟩
  · simp [Harmless, interchangeable] at hkey
    subst hkey
    exact ⟨.field known, rfl, hknown, by simp⟩
  · simp only [List.mem_cons, List.not_mem_nil, or_false] at hfield
    rcases hfield with rfl | rfl | rfl <;> simp [Harmless, interchangeable] at hkey
    · rcases hkey with rfl | rfl <;> exact ⟨.typeEntry, rfl, trivial, by simp⟩
    · rcases hkey with rfl | rfl <;> exact ⟨.typeEntry, rfl, trivial, by simp⟩
    · subst hkey
      exact ⟨trivial, by simp [typeMember]⟩
  · simp [Harmless, interchangeable] at hkey
    rcases hkey with rfl | rfl
    · exact ⟨.input, rfl, trivial, by simp⟩
    · exact ⟨.field known, rfl, trivial, by simp⟩

private theorem finds_field {parent name : String} {outer : Option String}
    (hreturns : (Origin.field parent name).Returns field child) (hkey : Harmless field key)
    (hinner : (Place.field outer).member? known key = some inner) :
    inner.Finds (.field parent name) field child := by
  rcases returns_field hreturns with ⟨⟨other, rfl⟩, rfl⟩ | ⟨rfl, rfl⟩ <;>
    simp [Harmless, interchangeable] at hkey <;> subst hkey <;> cases hinner
  · exact ⟨trivial, by simp⟩
  · exact ⟨.input, rfl, trivial, by simp⟩

private theorem finds_input (hreturns : Origin.input.Returns field child)
    (hkey : Harmless field key) (hplace : place = .input ∨ ∃ outer, place = .field outer)
    (hinner : place.member? known key = some inner) : inner.Finds .input field child := by
  obtain ⟨⟨other, rfl⟩, rfl⟩ := returns_input hreturns
  simp [Harmless, interchangeable] at hkey
  subst hkey
  rcases hplace with rfl | ⟨outer, rfl⟩ <;> cases hinner <;> exact ⟨trivial, by simp⟩

private theorem finds_directive (hreturns : Origin.directive.Returns field child)
    (hkey : Harmless field key) (hinner : Place.directive.member? known key = some inner) :
    inner.Finds .directive field child := by
  obtain ⟨rfl, rfl⟩ := returns_directive hreturns
  simp [Harmless, interchangeable] at hkey
  subst hkey
  cases hinner
  exact ⟨.input, rfl, trivial, by simp⟩

private theorem finds_member {origin : Origin} (hreads : place.Reads origin)
    (hknown : ∀ name, origin = .type name → known = none ∨ known = name)
    (hreturns : origin.Returns field child) (hkey : Harmless field key)
    (hinner : place.member? known key = some inner) : inner.Finds origin field child := by
  cases origin with
  | schema =>
    cases place <;> simp only [Place.Reads] at hreads
    exact finds_schema hreturns hkey hinner
  | type name =>
    have hmember : some (typeMember known key) = some inner := by
      cases place <;> simp only [Place.Reads] at hreads <;> simp only [Place.member?] at hinner <;>
        split at hinner <;> simp_all
    exact finds_type hreturns (hknown name rfl) hkey hmember
  | field parent name =>
    cases place <;> simp only [Place.Reads] at hreads
    exact finds_field hreturns hkey hinner
  | input =>
    refine finds_input hreturns hkey ?_ hinner
    cases place <;> simp_all [Place.Reads]
  | directive =>
    cases place <;> simp only [Place.Reads] at hreads
    exact finds_directive hreturns hkey hinner

end Finds

section Selected

variable {keying : Keying} {type : String} {d : Document} {depth : Nat}
  {items below : List Selection} {head : Field}

/-- A selected field keeps to a keying, and what is selected below it is ready. -/
structure ReadyField (keying : Keying) (type : String) (head : Field)
    (items : List Selection) : Prop where
  name_of_key : head.responseKey = nameKey → head.name = "name"
  keyed : ∀ child, childType? type head.name = some child → keying type head.name head.responseKey
  named : ∀ child, childType? type head.name = some child → Named child items
  ready : ∀ child, childType? type head.name = some child → ∀ x ∈ items, Ready keying child x

private theorem readyField_of_collectSelection {spread : String → List (Field × List Selection)}
    (hspread : ∀ name, ∀ p ∈ spread name, ReadyField keying type p.1 p.2)
    {x : Selection} (h : Ready keying type x) :
    ∀ p ∈ collectSelection type spread x, ReadyField keying type p.1 p.2 := by
  induction h with
  | field hname hkeying hitems _ =>
    intro p hp
    rw [collectSelection, List.mem_singleton] at hp
    subst hp
    exact ⟨hname, fun child hchild => (hkeying child hchild).1,
      fun child hchild => (hkeying child hchild).2, hitems⟩
  | spread head =>
    intro p hp
    rw [collectSelection] at hp
    exact hspread _ p hp
  | @inline type head items _ ih =>
    intro p hp
    rw [collectSelection] at hp
    by_cases hcondition : head.condition.getD type = type
    · rw [if_pos hcondition, collectSelections_eq_flatMap, List.mem_flatMap] at hp
      obtain ⟨y, hy, hp⟩ := hp
      rw [hcondition] at ih
      exact ih y hy hspread p hp
    · rw [if_neg hcondition] at hp
      cases hp

private theorem readyField_of_collectSelections {spread : String → List (Field × List Selection)}
    (hspread : ∀ name, ∀ p ∈ spread name, ReadyField keying type p.1 p.2)
    (h : ∀ x ∈ items, Ready keying type x) :
    ∀ p ∈ collectSelections type spread items, ReadyField keying type p.1 p.2 := by
  intro p hp
  rw [collectSelections_eq_flatMap, List.mem_flatMap] at hp
  obtain ⟨x, hx, hp⟩ := hp
  exact readyField_of_collectSelection hspread (h x hx) p hp

def ReadyFragments (keying : Keying) (d : Document) : Prop :=
  ∀ f ∈ d.fragments, isMeta f.condition = true → ∀ x ∈ f.items, Ready keying f.condition x

private theorem readyField_of_collectFragment (hd : ReadyFragments keying d)
    (hmeta : isMeta type = true) (name : String) :
    ∀ p ∈ collectFragment d type depth name, ReadyField keying type p.1 p.2 := by
  induction depth generalizing name with
  | zero => simp [collectFragment]
  | succ depth ih =>
    rw [collectFragment]
    cases hf : d.fragment? name with
    | none => simp
    | some f =>
      by_cases hcondition : f.condition = type
      · subst hcondition
        simp only [if_true]
        have hmem := (Document.mem_of_fragment?_eq_some hf).1
        exact readyField_of_collectSelections ih (hd f hmem hmeta)
      · simp [hcondition]

private theorem mem_of_mem_firsts {heads : List Field} (h : head ∈ firsts heads) :
    head ∈ heads := by
  induction heads with
  | nil => simp [firsts] at h
  | cons first rest ih =>
    rw [firsts, List.mem_cons, List.mem_filter] at h
    exact List.mem_cons.mpr (h.imp id fun hrest => ih hrest.1)

private theorem exists_mem_firsts {heads : List Field} (h : head ∈ heads) :
    ∃ other ∈ firsts heads, other.responseKey = head.responseKey := by
  induction heads with
  | nil => simp at h
  | cons first rest ih =>
    rw [firsts]
    by_cases hkey : first.responseKey = head.responseKey
    · exact ⟨first, List.mem_cons_self, hkey⟩
    · rcases List.mem_cons.mp h with rfl | hrest
      · exact absurd rfl hkey
      · obtain ⟨other, hother, hother_key⟩ := ih hrest
        refine ⟨other, List.mem_cons_of_mem _ (List.mem_filter.mpr ⟨hother, ?_⟩), hother_key⟩
        simpa [hother_key] using Ne.symm hkey

private theorem mem_merged {collected : List (Field × List Selection)} {x : Selection} :
    x ∈ merged collected head ↔ ∃ p ∈ collected,
      p.1.responseKey = head.responseKey ∧ p.1.name = head.name ∧ x ∈ p.2 := by
  simp only [merged, List.mem_flatMap]
  constructor
  · rintro ⟨p, hp, hx⟩
    split at hx
    · rename_i hsame
      exact ⟨p, hp, hsame.1, hsame.2, hx⟩
    · simp at hx
  · rintro ⟨p, hp, hkey, hname, hx⟩
    exact ⟨p, hp, by rwa [if_pos ⟨hkey, hname⟩]⟩

private theorem readyField_of_selected (hd : ReadyFragments keying d) (hmeta : isMeta type = true)
    (hitems : ∀ x ∈ items, Ready keying type x) (h : (head, below) ∈ selected d type depth items) :
    ReadyField keying type head below := by
  have hspread : ∀ name, ∀ p ∈ collectFragment d type depth name,
      ReadyField keying type p.1 p.2 := readyField_of_collectFragment hd hmeta
  have hcollected := readyField_of_collectSelections hspread hitems
  obtain ⟨other, hother, hsame⟩ := List.mem_map.mp h
  obtain ⟨rfl, rfl⟩ := Prod.mk.inj hsame
  obtain ⟨p, hp, rfl⟩ := List.mem_map.mp (mem_of_mem_firsts hother)
  refine ⟨(hcollected p hp).name_of_key, (hcollected p hp).keyed, ?_, ?_⟩
  · intro child hchild hnamed hne
    obtain ⟨x, hx⟩ := List.exists_mem_of_ne_nil _ hne
    obtain ⟨q, hq, hkey, hname, hx⟩ := mem_merged.mp hx
    obtain ⟨name, hm, hname_key⟩ :=
      (hcollected q hq).named child (hname ▸ hchild) hnamed (List.ne_nil_of_mem hx)
    exact ⟨name, mem_merged.mpr ⟨q, hq, hkey, hname, hm⟩, hname_key⟩
  · intro child hchild x hx
    obtain ⟨q, hq, hkey, hname, hx⟩ := mem_merged.mp hx
    exact (hcollected q hq).ready child (hname ▸ hchild) x hx

private theorem exists_selected_nameKey (hnamed : Named type items) (htype : isNamed type = true)
    (hne : items ≠ []) :
    ∃ head below, (head, below) ∈ selected d type depth items ∧ head.responseKey = nameKey := by
  obtain ⟨name, hm, hkey⟩ := hnamed htype hne
  have hcollected : (name, []) ∈ collectSelections type (collectFragment d type depth) items := by
    rw [collectSelections_eq_flatMap, List.mem_flatMap]
    exact ⟨_, hm, by simp [collectSelection]⟩
  obtain ⟨head, hhead, hsame⟩ := exists_mem_firsts (List.mem_map.mpr ⟨_, hcollected, rfl⟩)
  exact ⟨head, _, List.mem_map_of_mem hhead, hsame.trans hkey⟩

end Selected

private theorem lookup_eq_some {members : Json.Members} {key : String} {value : Json}
    (hexists : ∃ other, (key, other) ∈ members)
    (hall : ∀ other, (key, other) ∈ members → other = value) :
    members.lookup key = some value := by
  induction members with
  | nil => simp at hexists
  | cons member rest ih =>
    obtain ⟨key', value'⟩ := member
    by_cases hkey : key = key'
    · subst hkey
      simp [hall value' List.mem_cons_self]
    · have hrest : (key == key') = false := by simpa using hkey
      rw [List.lookup_cons, hrest]
      refine ih ?_ fun other hother => hall other (List.mem_cons_of_mem _ hother)
      obtain ⟨other, hother⟩ := hexists
      rcases List.mem_cons.mp hother with heq | hother
      · exact absurd (Prod.mk.inj heq).1 hkey
      · exact ⟨other, hother⟩

section Answer

variable {Object : Type} {host : Host Object} {d : Document} {v : Verifier}
  {keying : Keying} {depth : Nat} {o : Object} {items : List Selection}

private theorem isMeta_typename (origin : Origin) : isMeta origin.typename = true := by
  cases origin <;> simp only [Origin.typename] <;> decide

theorem get?_nameKey_answerMembers (hd : ReadyFragments keying d) {name : Json}
    (htype : isNamed (host.origin o).typename = true)
    (hname : ∀ arguments, host.member o "name" arguments = .leaf name)
    (hnamed : Named (host.origin o).typename items)
    (hitems : ∀ x ∈ items, Ready keying (host.origin o).typename x) (hne : items ≠ []) :
    (host.answerMembers d depth o items).get? nameKey = some name := by
  refine lookup_eq_some ?_ fun other hother => ?_
  · obtain ⟨head, below, hm, hkey⟩ := exists_selected_nameKey hnamed htype hne
    exact ⟨_, (host.mem_answerMembers d).mpr ⟨head, below, hm, hkey, rfl⟩⟩
  · obtain ⟨head, below, hm, hkey, rfl⟩ := (host.mem_answerMembers d).mp hother
    have hhead := (readyField_of_selected hd (isMeta_typename _) hitems hm).name_of_key hkey
    rw [hhead, hname]
    rfl

private theorem nameOf_answerMembers (hd : ReadyFragments keying d) (depth : Nat) {name : Json}
    (htype : isNamed (host.origin o).typename = true)
    (hname : ∀ arguments, host.member o "name" arguments = .leaf name)
    (hnamed : Named (host.origin o).typename items)
    (hitems : ∀ x ∈ items, Ready keying (host.origin o).typename x) :
    nameOf (host.answerMembers d depth o items) = .unknown ∨
      (host.answerMembers d depth o items).get? nameKey = some name := by
  by_cases hne : items = []
  · subst hne
    exact .inl rfl
  · exact .inr (get?_nameKey_answerMembers hd htype hname hnamed hitems hne)

theorem nameOf_eq_named {members : Json.Members} {name : String}
    (h : members.get? nameKey = some (.text name)) : nameOf members = .named name := by
  simp [nameOf, h]

theorem nameOf_eq_unnamed {members : Json.Members} (h : members.get? nameKey = some .null) :
    nameOf members = .unnamed := by
  simp [nameOf, h]

private theorem knownName_answerMembers (hd : ReadyFragments keying d) {name : Option String}
    (horigin : host.origin o = .type name)
    (hnamed : Named (host.origin o).typename items)
    (hitems : ∀ x ∈ items, Ready keying (host.origin o).typename x) :
    knownName (host.answerMembers d depth o items) = none ∨
      knownName (host.answerMembers d depth o items) = name := by
  have hname := fun arguments => host.type_name o name arguments horigin
  have htype : isNamed (host.origin o).typename = true := by rw [horigin]; rfl
  rcases nameOf_answerMembers hd depth htype hname hnamed hitems with hunknown | hget
  · exact .inl (by simp [knownName, hunknown])
  · cases name with
    | none => exact .inl (by simp [knownName, nameOf_eq_unnamed hget])
    | some name => exact .inr (by simp [knownName, nameOf_eq_named hget])

private theorem visible_of_admits (hd : ReadyFragments keying d) {place : Place}
    (hreads : place.Reads (host.origin o)) (hnamed : Named (host.origin o).typename items)
    (hitems : ∀ x ∈ items, Ready keying (host.origin o).typename x)
    (hadmits : admits v place (host.answerMembers d depth o items) = true) :
    place = .queryRoot ∨ host.Visible v o := by
  cases horigin : host.origin o with
  | schema => exact .inr (by simp [Host.Visible, horigin])
  | input => exact .inr (by simp [Host.Visible, horigin])
  | directive => exact .inr (by simp [Host.Visible, horigin])
  | type name =>
    cases name with
    | none => exact .inr (by simp [Host.Visible, horigin])
    | some name =>
      have hname := fun arguments => host.type_name o (some name) arguments horigin
      have htype : isNamed (host.origin o).typename = true := by rw [horigin]; rfl
      have hvisible : isHidden v (host.answerMembers d depth o items) = false →
          host.Visible v o := by
        intro hhidden
        rcases nameOf_answerMembers hd depth htype hname hnamed hitems with
          hunknown | hget
        · simp [isHidden, hunknown] at hhidden
        · simpa [isHidden, nameOf_eq_named hget, Host.Visible, horigin] using hhidden
      rw [horigin] at hreads
      cases place <;> simp only [Place.Reads] at hreads
      · exact .inr (hvisible (by simpa [admits] using hadmits))
      · exact .inl rfl
      · exact .inr (hvisible (by simpa [admits] using hadmits))
  | field parent name =>
    have hname := fun arguments => host.field_name o parent name arguments horigin
    have htype : isNamed (host.origin o).typename = true := by rw [horigin]; rfl
    rw [horigin] at hreads
    cases place <;> simp only [Place.Reads] at hreads
    rename_i known
    refine .inr ?_
    rcases nameOf_answerMembers hd depth htype hname hnamed hitems with hunknown | hget
    · simp [admits, keepsField, hunknown] at hadmits
    · simp only [admits, keepsField, nameOf_eq_named hget, Bool.or_eq_true] at hadmits
      simp only [Host.Visible, horigin]
      rcases hreads with rfl | rfl
      · exact hadmits.imp id (by simp)
      · simpa using hadmits

theorem Host.Safe.imp {p q : Prop} (hpq : p → q) {left : Json}
    (h : host.Safe d v depth p o items left) : host.Safe d v depth q o items left := by
  cases depth with
  | zero => exact h
  | succ depth =>
    rw [Host.Safe] at h ⊢
    exact h.imp id fun h => ⟨h.1.imp hpq id, h.2⟩

private theorem leaves_of_filterAt {place inner : Place} {known : Option String} {head : Field}
    {below : List Selection} {left : Json}
    (hsafe : ∀ place o left, place.Reads (host.origin o) → Named (host.origin o).typename below →
      (∀ x ∈ below, Ready keying (host.origin o).typename x) →
      filterAt v place (host.answer d depth o below) = some left →
      host.Safe d v depth (place = .queryRoot) o below left)
    (hreads : place.Reads (host.origin o))
    (hknown : ∀ name, host.origin o = .type name → known = none ∨ known = name)
    (hinner : place.member? known head.responseKey = some inner)
    (hready : ReadyField keying (host.origin o).typename head below)
    (hharmless : ∀ child, childType? (host.origin o).typename head.name = some child →
      Harmless head.name head.responseKey)
    (h : filterAt v inner ((host.member o head.name head.arguments).project (host.answer d depth)
      below) = some left) :
    (host.member o head.name head.arguments).Leaves
      (host.Safe d v depth ((host.origin o).typename = "__Schema" ∧ head.name = "queryType"))
      below left := by
  cases hchild : childType? (host.origin o).typename head.name with
  | none =>
    obtain ⟨value, hmember⟩ := host.member_leaf o head.name head.arguments hchild
    rw [hmember] at h ⊢
    exact filterAt_cut h
  | some child =>
    have hholds := host.member_holds o head.name head.arguments child hchild
    have hfinds {other : Object}
        (hreturns : (host.origin o).Returns head.name (host.origin other)) :=
      finds_member hreads hknown hreturns (hharmless child hchild) hinner
    -- what is selected below the field is ready for each object that it returns
    have hobject {other : Object} (hreturns : (host.origin o).Returns head.name (host.origin other))
        {entry : Place} {value : Json} (hentry : entry.Reads (host.origin other))
        (hvalue : filterAt v entry (host.answer d depth other below) = some value) :
        host.Safe d v depth (entry = .queryRoot) other below value :=
      hsafe entry other value hentry (hready.named _ hreturns.1) (hready.ready _ hreturns.1) hvalue
    cases hmember : host.member o head.name head.arguments with
    | leaf value =>
      rw [hmember] at h
      exact filterAt_cut h
    | object other =>
      rw [hmember] at h hholds
      obtain ⟨hlist, hreturns⟩ := hholds
      have hplace := hfinds hreturns
      rw [Place.Finds, hlist, if_neg Bool.false_ne_true] at hplace
      exact (hobject hreturns hplace.1 h).imp hplace.2
    | list others =>
      rw [hmember] at h hholds
      obtain ⟨hlist, hreturns⟩ := hholds
      -- the place is one of a list, since there is an object that the field returns
      have hplace : ∀ other ∈ others, ∃ entry, inner.items? = some entry ∧
          entry.Reads (host.origin other) ∧ entry ≠ .queryRoot := fun other hother => by
        simpa only [Place.Finds, hlist, if_true] using hfinds (hreturns other hother)
      cases hitems : inner.items? with
      | none =>
        cases others with
        | nil => exact ⟨_, filterAt_array_of_items?_eq_none hitems h, .nil⟩
        | cons other _ =>
          obtain ⟨entry, hentry, -⟩ := hplace other List.mem_cons_self
          simp [hitems] at hentry
      | some entry =>
        rw [Member.project, filterAt_array hitems, filterItems_eq_filterMap,
          List.filterMap_map] at h
        cases h
        refine ⟨_, rfl, sublistForall₂_filterMap fun other hother value hleft => ?_⟩
        obtain ⟨entry', hentry, hreads', hroot⟩ := hplace other hother
        obtain rfl := Option.some.inj (hitems.symm.trans hentry)
        exact (hobject (hreturns other hother) hreads' hleft).imp fun heq => absurd heq hroot

/-- What the filter leaves of the value of an object at a place that fits it shows nothing but
visible objects, if the client keeps to harmless keys. -/
theorem safe_of_filterAt (hd : ReadyFragments keying d)
    (hkeying : ∀ type field key child, childType? type field = some child → key ≠ nameKey →
      keying type field key → Harmless field key)
    {place : Place} {left : Json} (hreads : place.Reads (host.origin o))
    (hnamed : Named (host.origin o).typename items)
    (hitems : ∀ x ∈ items, Ready keying (host.origin o).typename x)
    (h : filterAt v place (host.answer d depth o items) = some left) :
    host.Safe d v depth (place = .queryRoot) o items left := by
  induction depth generalizing o items place left with
  | zero =>
    rw [Host.answer] at h
    rw [Host.Safe]
    cases place <;> simp_all [filterAt]
  | succ depth ih =>
    rw [Host.answer_succ, filterAt] at h
    rw [Host.Safe]
    by_cases hadmits : admits v place (host.answerMembers d depth o items) = true
    · rw [if_pos hadmits] at h
      cases h
      refine .inr ⟨visible_of_admits hd hreads hnamed hitems hadmits, _, rfl, ?_⟩
      intro key value hvalue
      obtain ⟨whole, inner, hwhole, hinner, hvalue⟩ := mem_filterMembers.mp hvalue
      obtain ⟨head, below, hm, rfl, rfl⟩ := (host.mem_answerMembers d).mp hwhole
      have hready := readyField_of_selected hd (isMeta_typename _) hitems hm
      refine ⟨head, below, hm, rfl, ?_⟩
      refine leaves_of_filterAt (fun _ _ _ => ih) hreads ?_ hinner hready ?_ hvalue
      · intro name horigin
        exact knownName_answerMembers hd horigin hnamed hitems
      · intro child hchild
        refine hkeying _ _ _ child hchild ?_ (hready.keyed child hchild)
        intro hkey
        rw [hready.name_of_key hkey, childType?_name] at hchild
        cases hchild
    · rw [if_neg hadmits] at h
      split at h
      · cases h
        exact .inl rfl
      · cases h

end Answer

end FieldAuthorization.Introspection
