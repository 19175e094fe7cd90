import FieldAuthorization.Proofs.Introspection.HarmlessKeys

/-!
Who is shown nothing of introspection that it may not see.

Redaction, a host and the filter together decide what a client is shown. The clients that keep to a
keying are shown nothing but visible objects just if every key that the keying lets a field have is
harmless.
-/

set_option autoImplicit false
set_option relaxedAutoImplicit false

namespace FieldAuthorization

open Introspection

/-- Whatever a host answers at the entries of a document into introspection, the filter leaves
nothing of it but visible objects. What is selected below entries of one name may be merged. -/
def Document.Discreet (d : Document) (v : Verifier) : Prop :=
  ∀ field type, entryType? field = some type →
    ∀ sets : List (List Selection), (∀ items ∈ sets, d.Enters field items) →
      ∀ (Object : Type) (host : Host Object) (depth : Nat) (arguments : List (String × Value)),
        host.SafeEntry d v depth field arguments sets.flatten
          (filter v field (host.answerEntry d depth field arguments sets.flatten))

namespace Introspection

section Entry

variable {Object : Type} {host : Host Object} {d : Document} {v : Verifier} {keying : Keying}
  {depth : Nat} {items : List Selection}

private theorem reads_entryPlace {field type : String} {origin : Origin}
    (hentry : entryType? field = some type) (horigin : origin.typename = type) :
    (entryPlace field).Reads origin ∧ entryPlace field ≠ .queryRoot := by
  subst horigin
  unfold entryType? at hentry
  split at hentry
  · cases origin <;> simp [Origin.typename] at hentry
    exact ⟨trivial, by simp [entryPlace]⟩
  · cases origin <;> simp [Origin.typename] at hentry
    exact ⟨trivial, by simp [entryPlace]⟩
  · cases hentry

private theorem Host.safe_null {exempt : Prop} {o : Object} :
    host.Safe d v depth exempt o items .null := by
  cases depth with
  | zero => rfl
  | succ depth =>
    rw [Host.Safe]
    exact .inl rfl

private theorem safeEntry_filter (hd : ReadyFragments keying d)
    (hkeying : ∀ type field key child, childType? type field = some child → key ≠ nameKey →
      keying type field key → Harmless field key)
    {field type : String} (hentry : entryType? field = some type) (hnamed : Named type items)
    (hitems : ∀ x ∈ items, Ready keying type x) (arguments : List (String × Value)) :
    host.SafeEntry d v depth field arguments items
      (filter v field (host.answerEntry d depth field arguments items)) := by
  have hholds := host.entry_holds field arguments type hentry
  rw [Host.SafeEntry, Host.answerEntry, filter]
  cases hmember : host.entry field arguments with
  | leaf value =>
    rw [hmember] at hholds
    obtain rfl : value = .null := hholds
    have hleft : (filterAt v (entryPlace field) .null).getD .null = .null := by
      cases entryPlace field <;> rfl
    rw [Member.project, hleft]
    exact .null .null
  | object o =>
    rw [hmember] at hholds
    obtain ⟨-, rfl⟩ := hholds
    obtain ⟨hreads, hroot⟩ := reads_entryPlace hentry rfl
    rw [Member.project, Member.Leaves]
    cases hleft : filterAt v (entryPlace field) (host.answer d depth o items) with
    | none => exact host.safe_null
    | some left =>
      have hsafe := safe_of_filterAt hd hkeying hreads hnamed hitems hleft
      exact hsafe.imp fun heq => hroot heq
  | list objects =>
    rw [hmember] at hholds
    exact absurd hholds.1 Bool.false_ne_true

end Entry

end Introspection

namespace Redaction

variable {a : Authority} {policy : EmptySelections} {keying : Keying} {d : Document}
  {name : Option String} {r : Redaction}

def Discreet (keying : Keying) : Prop :=
  ∀ a policy d name r, redact a policy d name = .ok r → d.Follows keying →
    r.document.Discreet a.verifier

private theorem named_flatten {type : String} {sets : List (List Selection)}
    (h : ∀ items ∈ sets, Named type items) : Named type sets.flatten := by
  intro htype hne
  obtain ⟨x, hx⟩ := List.exists_mem_of_ne_nil _ hne
  obtain ⟨items, hitems, hx⟩ := List.mem_flatten.mp hx
  obtain ⟨head, hm, hkey⟩ := h items hitems htype (List.ne_nil_of_mem hx)
  exact ⟨head, List.mem_flatten_of_mem hitems hm, hkey⟩

private theorem discreet_of_harmless (h : redact a policy d name = .ok r) (hd : d.Follows keying)
    (hkeying : ∀ type field key child, childType? type field = some child → key ≠ nameKey →
      keying type field key → Harmless field key) : r.document.Discreet a.verifier := by
  intro field type hentry sets hsets Object host depth arguments
  have hready := fun items hitems => ready_entry h hd hentry (hsets items hitems)
  have hfragments : ReadyFragments keying r.document := fun f hf => ready_fragment h hd hf
  refine safeEntry_filter hfragments hkeying hentry
    (named_flatten fun items hitems => (hready items hitems).1) (fun x hx => ?_) arguments
  obtain ⟨items, hitems, hx⟩ := List.mem_flatten.mp hx
  exact (hready items hitems).2 x hx

private theorem not_discreet_of_leaks {own : Thing} {hown : own.IsOwn} {root : Thing} {depth : Nat}
    {field type : String} {items : List Selection} (hentry : entryType? field = some type)
    (hroot : Thing.entry field = .object root) (henters : d.Enters field items)
    (hleaks : (Thing.host own hown).Leaks d onlySeen depth (entryPlace field) root items) :
    ¬ d.Discreet onlySeen := by
  intro hdiscreet
  obtain ⟨left, hleft, hunsafe⟩ := hleaks
  have hsets : ∀ set ∈ [items], d.Enters field set := by
    simpa using henters
  have hsafe := hdiscreet field type hentry [items] hsets Thing (Thing.host own hown) depth []
  have hobject : (Thing.host own hown).entry field [] = .object root := hroot
  rw [Host.SafeEntry, Host.answerEntry, hobject, List.flatten_singleton, Member.project, filter,
    hleft] at hsafe
  exact hunsafe (Host.Safe.imp False.elim hsafe)

section Query

variable {field type : String} {items : List Selection}

private def query (field : String) (items : List Selection) : Document :=
  ⟨[.operation ⟨none, start, start, [.field (plain field) items]⟩]⟩

private theorem eq_of_enters_query {other : String} {inner : List Selection}
    (hmeta : isMeta field = true) (h : (query field items).Enters other inner) :
    other = field ∧ inner = items := by
  obtain ⟨x, hx, -, trail, head, hexposed, hoccurs, rfl⟩ := h
  obtain rfl := List.mem_singleton.mp hx
  have hhere : Occurs [.field (plain field) items] trail (.field head inner) := hoccurs
  cases hhere with
  | here hm =>
    obtain ⟨rfl, rfl⟩ := Selection.field.inj (List.mem_singleton.mp hm)
    exact ⟨rfl, rfl⟩
  | field hm _ =>
    obtain ⟨rfl, -⟩ := Selection.field.inj (List.mem_singleton.mp hm)
    have hplain : isMeta field = false := (exposed_field.mp hexposed).1
    exact absurd (hplain.symm.trans hmeta) Bool.false_ne_true
  | inline hm _ => cases List.mem_singleton.mp hm

private theorem enters_query : (query field items).Enters field items :=
  ⟨_, List.mem_singleton.mpr rfl, rfl, [], plain field, exposed_nil,
    .here (List.mem_singleton.mpr rfl), rfl⟩

private theorem follows_query (hentry : entryType? field = some type)
    (hitems : ∀ x ∈ items, Introspection.Follows keying type x) :
    (query field items).Follows keying where
  entries other type' inner hother henters := by
    have hmeta : isMeta field = true := @isMeta_of_entryType? (plain field) _ hentry
    obtain ⟨rfl, rfl⟩ := eq_of_enters_query hmeta henters
    obtain rfl : type = type' := Option.some.inj (hentry.symm.trans hother)
    exact hitems
  fragments f hf := by cases hf

private theorem redact_query (hentry : entryType? field = some type) :
    ∃ denials, redact ⟨peopleSchema, onlySeen, none⟩ .keep (query field items) none =
      .ok ⟨query field (withNames type start items), denials⟩ := by
  unfold entryType? at hentry
  split at hentry <;> cases hentry <;> exact ⟨_, rfl⟩

end Query

/-- The clients that keep to a keying are shown nothing of introspection but visible objects, just
if each key that the keying lets a field have is harmless. -/
theorem discreet_iff (hplain : ∀ type field, keying type field field) :
    Discreet keying ↔ ∀ type field key returned, childType? type field = some returned →
      key ≠ nameKey → keying type field key → Harmless field key := by
  constructor
  · intro hdiscreet type field key returned hreturned hkey hkeying
    refine Classical.byContradiction fun hharm => ?_
    obtain ⟨own, hown, entry, root, depth, items, hentry, hroot, hfollows, hleaks⟩ :=
      exists_leaks hplain hreturned hkey hkeying hharm
    obtain ⟨denials, hredact⟩ := redact_query hentry
    exact not_discreet_of_leaks hentry hroot enters_query (hleaks _ rfl)
      (hdiscreet _ _ _ _ _ hredact (follows_query hentry hfollows))
  · intro hkeying a policy d name r h hd
    exact discreet_of_harmless h hd fun type field key child => hkeying type field key child

section Witness

private def ownNames : Keying := fun _ field key => key = field

/-- A client that gives no aliases is shown nothing that it may not see. -/
theorem discreet_of_own_names :
    (∀ type field, ownNames type field field) ∧ Discreet ownNames := by
  have hplain : ∀ type field, ownNames type field field := fun _ _ => rfl
  exact ⟨hplain, (discreet_iff hplain).mpr fun _ _ _ _ _ _ hown => .inl hown⟩

/-- The client gives the types another key. -/
private def aliasedText : String :=
  "{ __schema { all: types { name } } }"

private def allTypes : Field :=
  ⟨⟨1, 14⟩, ⟨1, 25⟩, ⟨1, 32⟩, some "all", "types", [], []⟩

private def typeName : Field :=
  ⟨⟨1, 27⟩, ⟨1, 27⟩, ⟨1, 27⟩, none, "name", [], []⟩

private def aliasedEntry (items : List Selection) : Document :=
  ⟨[.operation ⟨none, ⟨1, 1⟩, ⟨1, 36⟩,
    [.field ⟨⟨1, 3⟩, ⟨1, 12⟩, ⟨1, 34⟩, none, "__schema", [], []⟩ items]⟩]⟩

/-- What redaction leaves below the entry: a name is added to the types. -/
private def aliasedItems : List Selection :=
  [.field allTypes [.field typeName [], nameSelection ⟨1, 32⟩]]

private def host : Host Thing :=
  Thing.host .denied (.inl rfl)

/-- The name of a hidden type is left under a key that the filter does not know. -/
theorem exists_not_discreet :
    ∃ d r, Document.parse aliasedText = .ok d ∧
      redact ⟨peopleSchema, onlySeen, none⟩ .prune d none = .ok r ∧
      r.document.Enters "__schema" aliasedItems ∧
      filter onlySeen "__schema" (host.answerEntry r.document 3 "__schema" [] aliasedItems) =
        .object [("all", .array [.object [("name", .text "Unseen"),
          ("_authzName", .text "Unseen")]])] ∧
      onlySeen.showsType "Unseen" = false ∧ ¬ r.document.Discreet onlySeen := by
  have hparse : Document.parse aliasedText =
      .ok (aliasedEntry [.field allTypes [.field typeName []]]) := by cbv
  have henters : (aliasedEntry aliasedItems).Enters "__schema" aliasedItems :=
    ⟨_, List.mem_singleton.mpr rfl, rfl, [], _, exposed_nil, .here (List.mem_singleton.mpr rfl),
      rfl⟩
  have hselected : (allTypes, [.field typeName [], nameSelection ⟨1, 32⟩]) ∈
      selected (aliasedEntry aliasedItems) "__Schema" 2 aliasedItems :=
    List.mem_singleton.mpr rfl
  have hleaks : host.Leaks (aliasedEntry aliasedItems) onlySeen 3 .schema .schema aliasedItems :=
    .of_member hselected rfl rfl rfl (Member.not_leaves_list
      (not_safe_unseen fun hroot => absurd hroot.2 (by decide)))
  exact ⟨_, ⟨aliasedEntry aliasedItems, []⟩, hparse, rfl, henters, rfl, by decide,
    not_discreet_of_leaks rfl rfl henters hleaks⟩

end Witness

end Redaction

end FieldAuthorization
