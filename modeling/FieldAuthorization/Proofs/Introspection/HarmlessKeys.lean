import FieldAuthorization.Proofs.Introspection.Leak

/-!
Which keys disclose what a caller may not see.

A client that keeps to harmless keys learns nothing that it may not see. Every other key leaks: what
a field of introspection returns is left under it as it is, or taken for something else.
-/

set_option autoImplicit false
set_option relaxedAutoImplicit false

namespace FieldAuthorization.Introspection

def start : Position :=
  ⟨1, 1⟩

def plain (field : String) : Field :=
  ⟨start, start, start, none, field, [], []⟩

private def probe : (returned : String) → List Selection
  | "__InputValue" =>
    [.field (plain "name") [], .field (plain "type") [.field (plain "name") []]]
  | "__Directive" =>
    [.field (plain "name") [], .field (plain "args")
      [.field (plain "name") [], .field (plain "type") [.field (plain "name") []]]]
  | "__Type" =>
    [.field (plain "name") [], .field (plain "fields") [.field (plain "name") []]]
  | _ => [.field (plain "name") []]

private def renamed (key field returned : String) : Selection :=
  .field ⟨start, start, start, some key, field, [], []⟩ (probe returned)

section Probe

variable {keying : Keying} {type field key returned : String}

private theorem follows_plain (hplain : ∀ type field, keying type field field)
    {items : List Selection} (hne : field ≠ nameKey)
    (hitems : ∀ returned, childType? type field = some returned →
      ∀ x ∈ items, Follows keying returned x) :
    Follows keying type (.field (plain field) items) :=
  .field hne (fun _ _ => hplain type field) hitems

private theorem follows_name (hplain : ∀ type field, keying type field field) :
    Follows keying type (.field (plain "name") []) :=
  follows_plain hplain (by decide) (by simp)

private theorem follows_probe (hplain : ∀ type field, keying type field field) :
    ∀ x ∈ probe returned, Follows keying returned x := by
  have hname {type : String} : ∀ x ∈ [.field (plain "name") []], Follows keying type x := by
    simpa using follows_name hplain
  have hinput : ∀ x ∈ probe "__InputValue", Follows keying "__InputValue" x := by
    simp only [probe, List.forall_mem_cons]
    exact ⟨follows_name hplain, follows_plain hplain (by decide) fun _ _ => hname,
      List.forall_mem_nil _⟩
  unfold probe
  split
  · exact hinput
  · simp only [List.forall_mem_cons]
    refine ⟨follows_name hplain, follows_plain hplain (by decide) fun child hchild => ?_,
      List.forall_mem_nil _⟩
    obtain rfl : "__InputValue" = child := Option.some.inj hchild
    exact hinput
  · simp only [List.forall_mem_cons]
    exact ⟨follows_name hplain, follows_plain hplain (by decide) fun _ _ => hname,
      List.forall_mem_nil _⟩
  · exact hname

private theorem follows_renamed (hplain : ∀ type field, keying type field field)
    (hkey : key ≠ nameKey) (hkeying : keying type field key)
    (hreturned : childType? type field = some returned) :
    ∀ x ∈ [renamed key field returned], Follows keying type x := by
  intro x hx
  obtain rfl := List.mem_singleton.mp hx
  refine .field hkey (fun _ _ => hkeying) fun child hchild => ?_
  obtain rfl : returned = child := Option.some.inj (hreturned.symm.trans hchild)
  exact follows_probe hplain

private theorem mem_selected_withNames {d : Document} {depth : Nat} {head : Field}
    {items : List Selection} (hreturned : childType? type head.name = some returned)
    (hkey : head.responseKey ≠ nameKey) :
    (head, withNames returned head.closing items) ∈
      selected d type depth (withNames type start [.field head items]) := by
  have hnested : withNames type start [.field head items] =
      .field head (withNames returned head.closing items) :: missingName type start
        [.field head items] := by
    simp [withNames, withNestedNamesAll, withNestedNames_field, hreturned, withNamesOf]
  have hname : ∀ place, (⟨place, place, place, some nameKey, "name", [], []⟩ : Field).responseKey =
      nameKey := fun _ => rfl
  rw [hnested, missingName]
  split
  · simp [selected, collectSelections, collectSelection, nameSelection, firsts, merged, hname,
      Ne.symm hkey]
  · simp [selected, collectSelections, collectSelection, firsts, merged]

end Probe

/-- A caller who may see one type and a field of it that has the name of a hidden type. -/
def onlySeen : Verifier :=
  ⟨[], ⟨.ofList [⟨"Seen", "Unseen"⟩] compare, .ofList ["Seen"] compare⟩⟩

section Keys

variable {keying : Keying} {d : Document} {field key returned : String}
  {own : Thing} {hown : own.IsOwn}

theorem not_safe_unseen {depth : Nat} {exempt : Prop} {items : List Selection}
    {members : Json.Members} (hexempt : ¬ exempt) :
    ¬ (Thing.host own hown).Safe d onlySeen depth exempt .unseen items (.object members) := by
  refine Host.not_safe_of_not_visible ?_ hexempt
  simp only [Host.Visible, Thing.host, Thing.origin]
  decide

private theorem not_safe_denied {depth : Nat} {exempt : Prop} {items : List Selection}
    {members : Json.Members} (hexempt : ¬ exempt) :
    ¬ (Thing.host own hown).Safe d onlySeen depth exempt .denied items (.object members) := by
  refine Host.not_safe_of_not_visible ?_ hexempt
  simp only [Host.Visible, Thing.host, Thing.origin]
  decide

private theorem not_safe_seen {depth : Nat} {exempt : Prop} :
    ¬ (Thing.host .denied (.inl rfl)).Safe d onlySeen (depth + 2) exempt .seen
      (withNames "__Type" start (probe "__Type"))
      ((Thing.host .denied (.inl rfl)).answer d (depth + 2) .seen
        (withNames "__Type" start (probe "__Type"))) := by
  refine Host.not_safe_of_mem (plain "fields") (List.mem_cons_of_mem _ List.mem_cons_self)
    (List.mem_cons_of_mem _ List.mem_cons_self) ?_
  exact Member.not_leaves_list (not_safe_denied fun h => absurd h.2 (by decide))

private theorem not_safe_input {depth : Nat} {exempt : Prop} :
    ¬ (Thing.host own hown).Safe d onlySeen (depth + 2) exempt .input
      (withNames "__InputValue" start (probe "__InputValue"))
      ((Thing.host own hown).answer d (depth + 2) .input
        (withNames "__InputValue" start (probe "__InputValue"))) := by
  refine Host.not_safe_of_mem (plain "type") (List.mem_cons_of_mem _ List.mem_cons_self)
    (List.mem_cons_of_mem _ List.mem_cons_self) ?_
  exact not_safe_unseen fun h => absurd h.2 (by decide)

private theorem not_safe_directive {depth : Nat} {exempt : Prop} :
    ¬ (Thing.host own hown).Safe d onlySeen (depth + 3) exempt .directive
      (withNames "__Directive" start (probe "__Directive"))
      ((Thing.host own hown).answer d (depth + 3) .directive
        (withNames "__Directive" start (probe "__Directive"))) := by
  refine Host.not_safe_of_mem (plain "args") (List.mem_cons_of_mem _ List.mem_cons_self)
    (List.mem_cons_of_mem _ List.mem_cons_self) ?_
  exact Member.not_leaves_list not_safe_input

private def Free (type : String) (items : List Selection) : Prop :=
  ∀ x ∈ items, Follows (fun _ _ _ => True) type x

private theorem free_renamed {type : String} (hreturned : childType? type field = some returned)
    (hkey : key ≠ nameKey) : Free type [renamed key field returned] :=
  follows_renamed (fun _ _ => trivial) hkey trivial hreturned

private theorem get?_nameKey_withNames (hd : d.fragments = []) {depth : Nat} {o : Thing}
    {name : Json} {x : Selection}
    (htype : isNamed o.origin.typename = true) (hname : Thing.member own o "name" = .leaf name)
    (hfree : Free o.origin.typename [x]) :
    ((Thing.host own hown).answerMembers d depth o
      (withNames o.origin.typename start [x])).get? nameKey = some name := by
  have hfragments : ReadyFragments (fun _ _ _ => True) d := by
    simp [ReadyFragments, hd]
  exact get?_nameKey_answerMembers hfragments htype (fun _ => hname) (named_withNames hfree)
    (ready_withNames hfree) (by simp [withNames, withNestedNamesAll])

section Objects

variable {depth : Nat} {x : Selection}

private theorem nameOf_seen (hd : d.fragments = []) (hfree : Free "__Type" [x]) :
    nameOf ((Thing.host own hown).answerMembers d depth .seen (withNames "__Type" start [x])) =
      .named "Seen" :=
  nameOf_eq_named (get?_nameKey_withNames hd rfl rfl hfree)

private theorem admits_seen (hd : d.fragments = []) (hfree : Free "__Type" [x]) :
    admits onlySeen .type ((Thing.host own hown).answerMembers d depth .seen
      (withNames "__Type" start [x])) = true := by
  simp only [admits, isHidden, nameOf_seen hd hfree]
  decide

private theorem knownName_seen (hd : d.fragments = []) (hfree : Free "__Type" [x]) :
    knownName ((Thing.host own hown).answerMembers d depth .seen
      (withNames "__Type" start [x])) = some "Seen" := by
  simp only [knownName, nameOf_seen hd hfree]

private theorem admits_wrapper (hd : d.fragments = []) (hfree : Free "__Type" [x]) :
    admits onlySeen .type ((Thing.host own hown).answerMembers d depth .wrapper
      (withNames "__Type" start [x])) = true := by
  have hname : nameOf ((Thing.host own hown).answerMembers d depth .wrapper
      (withNames "__Type" start [x])) = .unnamed :=
    nameOf_eq_unnamed (get?_nameKey_withNames hd rfl rfl hfree)
  simp only [admits, isHidden, hname]
  decide

private theorem admits_field (hd : d.fragments = []) {o : Thing} (ho : o = .allowed ∨ o = .listed)
    (hfree : Free "__Field" [x]) :
    admits onlySeen (.field (some "Seen")) ((Thing.host own hown).answerMembers d depth o
      (withNames "__Field" start [x])) = true := by
  have hname : nameOf ((Thing.host own hown).answerMembers d depth o
      (withNames "__Field" start [x])) = .named "Unseen" := by
    rcases ho with rfl | rfl <;>
      exact nameOf_eq_named (get?_nameKey_withNames hd rfl rfl hfree)
  simp only [admits, keepsField, hname]
  decide

private theorem admits_input {items : List Selection} (hne : key ≠ "type") :
    admits onlySeen .input ((Thing.host own hown).answerMembers d depth .input
      (withNames "__InputValue" start
        [.field ⟨start, start, start, some key, "type", [], []⟩ items])) = true := by
  obtain ⟨value, hvalue⟩ : ∃ value, (Thing.host own hown).answerMembers d depth .input
      (withNames "__InputValue" start
        [.field ⟨start, start, start, some key, "type", [], []⟩ items]) = [(key, value)] :=
    ⟨_, rfl⟩
  have htype : ("type" == key) = false := by simpa using Ne.symm hne
  rw [hvalue]
  simp [admits, Json.Members.get?, List.lookup_cons, htype]

end Objects

section Single

variable {depth : Nat}

private theorem mem_selected_renamed (d : Document) (depth : Nat) {type : String}
    (hreturned : childType? type field = some returned) (hkey : key ≠ nameKey) :
    ((⟨start, start, start, some key, field, [], []⟩ : Field),
        withNames returned start (probe returned)) ∈
      selected d type depth (withNames type start [renamed key field returned]) :=
  mem_selected_withNames hreturned hkey

private theorem schema_member (key : String) :
    key = "types" ∨ key = "queryType" ∨ key = "mutationType" ∨ key = "subscriptionType" ∨
      key = "directives" ∨ Place.schema.member? none key = some .other := by
  simp only [Place.member?]
  split <;> simp

private theorem leaks_schema (hreturned : childType? "__Schema" field = some returned)
    (hharm : ¬ Harmless field key) (hkey : key ≠ nameKey) :
    (Thing.host .denied (.inl rfl)).Leaks d onlySeen (depth + 4) .schema .schema
      (withNames "__Schema" start [renamed key field returned]) := by
  have hselected := mem_selected_renamed d (depth + 3) hreturned hkey
  have hmem := mem_of_childType?_eq_some hreturned
  simp only [List.mem_cons, Prod.mk.injEq, true_and, String.reduceEq, false_and, List.not_mem_nil,
    or_self, or_false] at hmem
  rcases hmem with ⟨rfl, rfl⟩ | ⟨rfl, rfl⟩ | ⟨rfl, rfl⟩ | ⟨rfl, rfl⟩ | ⟨rfl, rfl⟩
  · rcases schema_member key with rfl | rfl | rfl | rfl | rfl | hother
    · exact absurd (.inl rfl) hharm
    all_goals
      refine .of_member hselected rfl (by first | rfl | exact hother) rfl ?_
      exact Member.not_leaves_list (not_safe_unseen (by simp))
  · rcases schema_member key with rfl | rfl | rfl | rfl | rfl | hother
    · exact .of_member hselected rfl rfl rfl not_safe_seen
    · exact absurd (.inl rfl) hharm
    · exact absurd (.inr (by simp [interchangeable])) hharm
    · exact absurd (.inr (by simp [interchangeable])) hharm
    · exact .of_member hselected rfl rfl rfl not_safe_seen
    · exact .of_member hselected rfl hother rfl not_safe_seen
  · rcases schema_member key with rfl | rfl | rfl | rfl | rfl | hother
    · exact .of_member hselected rfl rfl rfl (not_safe_unseen (by simp))
    · exact .of_member hselected rfl rfl rfl (not_safe_unseen (by simp))
    · exact absurd (.inl rfl) hharm
    · exact absurd (.inr (by simp [interchangeable])) hharm
    · exact .of_member hselected rfl rfl rfl (not_safe_unseen (by simp))
    · exact .of_member hselected rfl hother rfl (not_safe_unseen (by simp))
  · rcases schema_member key with rfl | rfl | rfl | rfl | rfl | hother
    · exact .of_member hselected rfl rfl rfl (not_safe_unseen (by simp))
    · exact .of_member hselected rfl rfl rfl (not_safe_unseen (by simp))
    · exact absurd (.inr (by simp [interchangeable])) hharm
    · exact absurd (.inl rfl) hharm
    · exact .of_member hselected rfl rfl rfl (not_safe_unseen (by simp))
    · exact .of_member hselected rfl hother rfl (not_safe_unseen (by simp))
  · rcases schema_member key with rfl | rfl | rfl | rfl | rfl | hother
    · exact .of_member hselected rfl rfl rfl (Member.not_leaves_list not_safe_directive)
    · exact .of_member hselected rfl rfl rfl (Member.not_leaves_list not_safe_directive)
    · exact .of_member hselected rfl rfl rfl (Member.not_leaves_list not_safe_directive)
    · exact .of_member hselected rfl rfl rfl (Member.not_leaves_list not_safe_directive)
    · exact absurd (.inl rfl) hharm
    · exact .of_member hselected rfl hother rfl (Member.not_leaves_list not_safe_directive)

private theorem type_member (hkey : key ≠ nameKey) {known : Option String} :
    key = "fields" ∨ key = "inputFields" ∨ key = "possibleTypes" ∨ key = "interfaces" ∨
      key = "ofType" ∨ Place.type.member? known key = some .other := by
  simp only [Place.member?, typeMember, beq_iff_eq, hkey, if_false]
  split <;> simp

private theorem leaks_type (hd : d.fragments = [])
    (hreturned : childType? "__Type" field = some returned)
    (hfield : field ≠ "ofType") (hharm : ¬ Harmless field key) (hkey : key ≠ nameKey) :
    (Thing.host .denied (.inl rfl)).Leaks d onlySeen (depth + 4) .type .seen
      (withNames "__Type" start [renamed key field returned]) := by
  have hselected := mem_selected_renamed d (depth + 3) hreturned hkey
  have hadmits : admits onlySeen .type ((Thing.host .denied (.inl rfl)).answerMembers d (depth + 3)
      .seen (withNames "__Type" start [renamed key field returned])) = true :=
    admits_seen hd (free_renamed hreturned hkey)
  have hknown : knownName ((Thing.host .denied (.inl rfl)).answerMembers d (depth + 3) .seen
      (withNames "__Type" start [renamed key field returned])) = some "Seen" :=
    knownName_seen hd (free_renamed hreturned hkey)
  have hmem := mem_of_childType?_eq_some hreturned
  simp only [List.mem_cons, Prod.mk.injEq, String.reduceEq, false_and, true_and, hfield, and_false,
    List.not_mem_nil, or_self, or_false, false_or] at hmem
  -- the filter reads the key as one of the five members that it knows, or as none of them
  rcases hmem with ⟨rfl, rfl⟩ | ⟨rfl, rfl⟩ | ⟨rfl, rfl⟩ | ⟨rfl, rfl⟩
  · rcases type_member hkey with rfl | rfl | rfl | rfl | rfl | hother
    · exact absurd (.inl rfl) hharm
    all_goals
      refine .of_member hselected hadmits (by rw [hknown]; first | rfl | exact hother) rfl ?_
      exact Member.not_leaves_list (not_safe_denied (by simp))
  · rcases type_member hkey with rfl | rfl | rfl | rfl | rfl | hother
    case inr.inr.inl => exact absurd (.inr (by simp [interchangeable])) hharm
    case inr.inr.inr.inl => exact absurd (.inl rfl) hharm
    all_goals
      refine .of_member hselected hadmits (by rw [hknown]; first | rfl | exact hother) rfl ?_
      exact Member.not_leaves_list (not_safe_unseen (by simp))
  · rcases type_member hkey with rfl | rfl | rfl | rfl | rfl | hother
    case inr.inr.inl => exact absurd (.inl rfl) hharm
    case inr.inr.inr.inl => exact absurd (.inr (by simp [interchangeable])) hharm
    all_goals
      refine .of_member hselected hadmits (by rw [hknown]; first | rfl | exact hother) rfl ?_
      exact Member.not_leaves_list (not_safe_unseen (by simp))
  · rcases type_member hkey with rfl | rfl | rfl | rfl | rfl | hother
    · exact absurd (.inr (by simp [interchangeable])) hharm
    · exact absurd (.inl rfl) hharm
    all_goals
      refine .of_member hselected hadmits (by rw [hknown]; first | rfl | exact hother) rfl ?_
      exact Member.not_leaves_list not_safe_input

private theorem leaks_ofType (hd : d.fragments = []) (hharm : ¬ Harmless "ofType" key)
    (hkey : key ≠ nameKey) :
    (Thing.host own hown).Leaks d onlySeen (depth + 4) .type .wrapper
      (withNames "__Type" start [renamed key "ofType" "__Type"]) := by
  have hreturned : childType? "__Type" "ofType" = some "__Type" := rfl
  have hselected := mem_selected_renamed d (depth + 3) hreturned hkey
  have hfree := free_renamed hreturned hkey
  have hadmits := @admits_wrapper d own hown (depth + 3) _ hd hfree
  rcases type_member hkey with rfl | rfl | rfl | rfl | rfl | hother
  case inr.inr.inr.inr.inl => exact absurd (.inl rfl) hharm
  all_goals
    refine .of_member hselected hadmits (by first | rfl | exact hother) rfl ?_
    exact not_safe_unseen (by simp)

private theorem field_member (hkey : key ≠ nameKey) {known outer : Option String} :
    key = "args" ∨ key = "type" ∨ (Place.field outer).member? known key = some .other := by
  simp only [Place.member?, beq_iff_eq, hkey, if_false]
  split <;> simp

private theorem leaks_field (hd : d.fragments = [])
    (hreturned : childType? "__Field" field = some returned)
    (hharm : ¬ Harmless field key) (hkey : key ≠ nameKey) :
    (Thing.host own hown).Leaks d onlySeen (depth + 4) (.field (some "Seen")) .allowed
      (withNames "__Field" start [renamed key field returned]) := by
  have hselected := mem_selected_renamed d (depth + 3) hreturned hkey
  have hadmits := @admits_field d own hown (depth + 3) _ hd .allowed (.inl rfl)
    (free_renamed hreturned hkey)
  have hmem := mem_of_childType?_eq_some hreturned
  simp only [List.mem_cons, Prod.mk.injEq, String.reduceEq, false_and, true_and, List.not_mem_nil,
    or_self, or_false, false_or] at hmem
  rcases hmem with ⟨rfl, rfl⟩ | ⟨rfl, rfl⟩
  · rcases field_member hkey with rfl | rfl | hother
    · exact absurd (.inl rfl) hharm
    all_goals
      refine .of_member hselected hadmits (by first | rfl | exact hother) rfl ?_
      exact Member.not_leaves_list not_safe_input
  · rcases field_member hkey with rfl | rfl | hother
    · exact .of_member hselected hadmits rfl rfl (not_safe_unseen (by simp))
    · exact absurd (.inl rfl) hharm
    · exact .of_member hselected hadmits hother rfl (not_safe_unseen (by simp))

private theorem leaks_input (hharm : ¬ Harmless "type" key) (hkey : key ≠ nameKey) :
    (Thing.host own hown).Leaks d onlySeen (depth + 4) .input .input
      (withNames "__InputValue" start [renamed key "type" "__Type"]) := by
  have hne : key ≠ "type" := fun heq => hharm (.inl heq)
  have hother : ∀ known, Place.input.member? known key = some .other := by
    simp [Place.member?, hne]
  refine .of_member (mem_selected_renamed d (depth + 3) rfl hkey) (admits_input hne) (hother _)
    rfl ?_
  exact not_safe_unseen (by simp)

private theorem leaks_directive (hharm : ¬ Harmless "args" key) (hkey : key ≠ nameKey) :
    (Thing.host own hown).Leaks d onlySeen (depth + 4) .directive .directive
      (withNames "__Directive" start [renamed key "args" "__InputValue"]) := by
  have hne : key ≠ "args" := fun heq => hharm (.inl heq)
  have hother : ∀ known, Place.directive.member? known key = some .other := by
    simp [Place.member?, hne]
  refine .of_member (mem_selected_renamed d (depth + 3) rfl hkey) rfl (hother _) rfl ?_
  exact Member.not_leaves_list not_safe_input

end Single

section Below

variable {depth : Nat} {place inner entry : Place} {o other : Thing} {items : List Selection}

private theorem leaks_object (hreturned : childType? o.origin.typename field = some returned)
    (hmember : Thing.member own o field = .object other) (hne : field ≠ nameKey)
    (hroot : field ≠ "queryType")
    (hadmits : admits onlySeen place ((Thing.host own hown).answerMembers d depth o
      (withNames o.origin.typename start [.field (plain field) items])) = true)
    (hinner : place.member? (knownName ((Thing.host own hown).answerMembers d depth o
      (withNames o.origin.typename start [.field (plain field) items]))) field = some inner)
    (hleaks : (Thing.host own hown).Leaks d onlySeen depth inner other
      (withNames returned start items)) :
    (Thing.host own hown).Leaks d onlySeen (depth + 1) place o
      (withNames o.origin.typename start [.field (plain field) items]) := by
  obtain ⟨left, hleft, hunsafe⟩ := hleaks
  have hprojected : (Thing.host own hown).member o field [] = .object other := hmember
  have hkept : filterAt onlySeen inner (((Thing.host own hown).member o field []).project
      ((Thing.host own hown).answer d depth) (withNames returned start items)) = some left := by
    rw [hprojected]
    exact hleft
  refine .of_member (mem_selected_withNames hreturned hne) hadmits hinner hkept ?_
  change ¬ ((Thing.host own hown).member o field []).Leaves _ _ _
  rw [hprojected]
  exact fun hsafe => hunsafe (Host.Safe.imp (fun h => absurd h.2 hroot) hsafe)

private theorem leaks_list (hreturned : childType? o.origin.typename field = some returned)
    (hmember : Thing.member own o field = .list [other]) (hne : field ≠ nameKey)
    (hroot : field ≠ "queryType") (hentry : inner.items? = some entry)
    (hadmits : admits onlySeen place ((Thing.host own hown).answerMembers d depth o
      (withNames o.origin.typename start [.field (plain field) items])) = true)
    (hinner : place.member? (knownName ((Thing.host own hown).answerMembers d depth o
      (withNames o.origin.typename start [.field (plain field) items]))) field = some inner)
    (hleaks : (Thing.host own hown).Leaks d onlySeen depth entry other
      (withNames returned start items)) :
    (Thing.host own hown).Leaks d onlySeen (depth + 1) place o
      (withNames o.origin.typename start [.field (plain field) items]) := by
  obtain ⟨left, hleft, hunsafe⟩ := hleaks
  have hprojected : (Thing.host own hown).member o field [] = .list [other] := hmember
  have hkept : filterAt onlySeen inner (((Thing.host own hown).member o field []).project
      ((Thing.host own hown).answer d depth) (withNames returned start items)) =
        some (.array [left]) := by
    rw [hprojected, Member.project, filterAt_array hentry, filterItems_eq_filterMap]
    simp [hleft]
  refine .of_member (mem_selected_withNames hreturned hne) hadmits hinner hkept ?_
  change ¬ ((Thing.host own hown).member o field []).Leaves _ _ _
  rw [hprojected]
  exact Member.not_leaves_list
    fun hsafe => hunsafe (Host.Safe.imp (fun h => absurd h.2 hroot) hsafe)

private theorem follows_below {type : String} (field : String)
    (hplain : ∀ type field, keying type field field)
    (hreturned : childType? type field = some returned) (hne : field ≠ nameKey)
    (hitems : ∀ x ∈ items, Follows keying returned x) :
    ∀ x ∈ [.field (plain field) items], Follows keying type x := by
  intro x hx
  obtain rfl := List.mem_singleton.mp hx
  refine follows_plain hplain hne fun child hchild => ?_
  obtain rfl : returned = child := Option.some.inj (hreturned.symm.trans hchild)
  exact hitems

private theorem leaks_fields (hd : d.fragments = []) (hfree : Free "__Field" items)
    (hleaks : (Thing.host own hown).Leaks d onlySeen depth (.field (some "Seen")) own
      (withNames "__Field" start items)) :
    (Thing.host own hown).Leaks d onlySeen (depth + 1) .type .seen
      (withNames "__Type" start [.field (plain "fields") items]) := by
  have hall : Free "__Type" [.field (plain "fields") items] :=
    follows_below "fields" (fun _ _ => trivial) rfl (by decide) hfree
  have hknown : knownName ((Thing.host own hown).answerMembers d depth .seen
      (withNames "__Type" start [.field (plain "fields") items])) = some "Seen" :=
    knownName_seen hd hall
  have hinner : Place.type.member? (knownName ((Thing.host own hown).answerMembers d depth .seen
      (withNames "__Type" start [.field (plain "fields") items]))) "fields" =
        some (.fieldList (some "Seen")) := by
    rw [hknown]
    rfl
  exact leaks_list rfl rfl (by decide) (by decide) rfl (admits_seen hd hall) hinner hleaks

/-- Every key that is not harmless leaks below some entry into introspection. -/
theorem exists_leaks {type : String} (hplain : ∀ type field, keying type field field)
    (hreturned : childType? type field = some returned) (hkey : key ≠ nameKey)
    (hkeying : keying type field key) (hharm : ¬ Harmless field key) :
    ∃ (own : Thing) (hown : own.IsOwn) (name : String) (root : Thing) (depth : Nat)
      (items : List Selection),
      entryType? name = some root.origin.typename ∧ Thing.entry name = .object root ∧
      (∀ x ∈ items, Follows keying root.origin.typename x) ∧
      ∀ d : Document, d.fragments = [] →
        (Thing.host own hown).Leaks d onlySeen depth (entryPlace name) root
          (withNames root.origin.typename start items) := by
  have hcases : type = "__Schema" ∨ type = "__Type" ∧ field ≠ "ofType" ∨
      type = "__Type" ∧ field = "ofType" ∧ returned = "__Type" ∨ type = "__Field" ∨
      type = "__InputValue" ∧ field = "type" ∧ returned = "__Type" ∨
      type = "__Directive" ∧ field = "args" ∧ returned = "__InputValue" := by
    have hmem := mem_of_childType?_eq_some hreturned
    simp only [List.mem_cons, Prod.mk.injEq, List.not_mem_nil, or_false] at hmem
    grind
  have hfollows := follows_renamed hplain hkey hkeying hreturned
  have hfree := free_renamed hreturned hkey
  rcases hcases with rfl | ⟨rfl, hne⟩ | ⟨rfl, rfl, rfl⟩ | rfl | ⟨rfl, rfl, rfl⟩ | ⟨rfl, rfl, rfl⟩
  · exact ⟨.denied, .inl rfl, "__schema", .schema, 4, _, rfl, rfl, hfollows,
      fun d _ => leaks_schema hreturned hharm hkey⟩
  · exact ⟨.denied, .inl rfl, "__type", .seen, 4, _, rfl, rfl, hfollows,
      fun d hd => leaks_type hd hreturned hne hharm hkey⟩
  · have hbelow : Free "__Field" [.field (plain "type") [renamed key "ofType" "__Type"]] :=
      follows_below "type" (fun _ _ => trivial) rfl (by decide) hfree
    refine ⟨.listed, .inr (.inr rfl), "__type", .seen, 6, _, rfl, rfl,
      follows_below "fields" hplain rfl (by decide)
        (follows_below "type" hplain rfl (by decide) hfollows),
      fun d hd => leaks_fields hd hbelow ?_⟩
    exact leaks_object rfl rfl (by decide) (by decide) (admits_field hd (.inr rfl) hbelow) rfl
      (leaks_ofType hd hharm hkey)
  · exact ⟨.allowed, .inr (.inl rfl), "__type", .seen, 5, _, rfl, rfl,
      follows_below "fields" hplain rfl (by decide) hfollows,
      fun d hd => leaks_fields hd hfree (leaks_field hd hreturned hharm hkey)⟩
  · have hall : Free "__Type" [.field (plain "inputFields") [renamed key "type" "__Type"]] :=
      follows_below "inputFields" (fun _ _ => trivial) rfl (by decide) hfree
    refine ⟨.denied, .inl rfl, "__type", .seen, 5, _, rfl, rfl,
      follows_below "inputFields" hplain rfl (by decide) hfollows, fun d hd => ?_⟩
    exact leaks_list rfl rfl (by decide) (by decide) rfl (admits_seen hd hall) rfl
      (leaks_input hharm hkey)
  · refine ⟨.denied, .inl rfl, "__schema", .schema, 5, _, rfl, rfl,
      follows_below "directives" hplain rfl (by decide) hfollows, fun d hd => ?_⟩
    exact leaks_list rfl rfl (by decide) (by decide) rfl rfl rfl (leaks_directive hharm hkey)

end Below

end Keys

end FieldAuthorization.Introspection
