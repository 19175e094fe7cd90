import FieldAuthorization.Introspection.Filter
import FieldAuthorization.Proofs.Access.Union
import FieldAuthorization.Proofs.Introspection.Filtering
import FieldAuthorization.Proofs.Permissions.Coherence
import FieldAuthorization.Proofs.Redaction.Reach

/-!
What introspection lists is what redaction lets pass.

The filter decides on the fields that it lists by their names in a value, redaction on the fields of
a query by the schema. Asked about the fields of one type they agree, because a type of which any
field is permitted is shown.
-/

set_option autoImplicit false
set_option relaxedAutoImplicit false

namespace FieldAuthorization

private theorem ClientIndex.coherent_verifier {s : Schema} {clients : Clients} {x : ClientIndex}
    (h : build s clients = .ok x) (scopes : ScopeSet) :
    (x.verifier scopes).permissions.Coherent s := by
  refine Verifier.coherent_ofClients fun client hm => ?_
  obtain ⟨c, hc, rfl⟩ := List.mem_map.mp hm
  obtain ⟨_, -, hbuild⟩ := (mem_clients h).mp (List.mem_of_mem_filter hc)
  exact Declaration.coherent_of_compile (IndexedClient.build_eq_ok hbuild).2.2

namespace Introspection

def namedObject (name : String) : Json :=
  .object [("name", .text name)]

/-- What a host answers about a type with the names of its fields. -/
def typeObject (type : String) (fields : List String) : Json :=
  .object [("name", .text type), ("fields", .array (fields.map namedObject))]

def name? : Json → Option String
  | .object members =>
    match Json.Members.get? members "name" with
    | some (.text name) => some name
    | _ => none
  | _ => none

/-- The names of the fields that an answer about a type lists; null lists none. -/
def listedFields : Json → List String
  | .object members =>
    match Json.Members.get? members "fields" with
    | some (.array fields) => fields.filterMap name?
    | _ => []
  | _ => []

/-- The fields of a type that a caller is told of when it asks for their names. -/
def advertised (v : Verifier) (type : String) (d : TypeDef) : List String :=
  listedFields (filter v "__type" (typeObject type (d.fields.map FieldDef.name)))

def fieldQuery (opening closing : Position) (inline : InlineFragment) (head : Field) : Document :=
  ⟨[.operation ⟨none, opening, closing, [.inline inline [.field head []]]⟩]⟩

variable {v : Verifier} {type : String}

private theorem filterAt_namedObject (field : String) :
    filterAt v (.field (some type)) (namedObject field) =
      if isMeta field || v.allows type field then some (namedObject field) else none := by
  have hname : nameOf [("name", .text field)] = .named field := by rfl
  have hkey : ("name" == nameKey) = false := by rfl
  simp [namedObject, filterAt, admits, keepsField, hname, filterMembers, Place.member?, hkey]

private theorem filterItems_namedObject (fields : List String) :
    filterItems v (.field (some type)) (fields.map namedObject) =
      (fields.filter fun field => isMeta field || v.allows type field).map namedObject := by
  induction fields with
  | nil => rw [List.map_nil, filterItems, List.filter_nil, List.map_nil]
  | cons field rest ih =>
    rw [List.map_cons, filterItems, filterAt_namedObject, List.filter_cons, ih]
    cases isMeta field || v.allows type field <;> rfl

private theorem filterMap_name? (fields : List String) :
    (fields.map namedObject).filterMap name? = fields := by
  induction fields with
  | nil => rfl
  | cons field rest ih =>
    have hname : name? (namedObject field) = some field := by rfl
    rw [List.map_cons, List.filterMap_cons_some hname, ih]

private theorem advertised_eq (v : Verifier) (type : String) (d : TypeDef) :
    advertised v type d = if v.showsType type then
      (d.fields.map FieldDef.name).filter fun field => isMeta field || v.allows type field
      else [] := by
  let fields := d.fields.map FieldDef.name
  let members : Json.Members := [("name", .text type), ("fields", .array (fields.map namedObject))]
  have hname : nameOf members = .named type := by rfl
  have hknown : knownName members = some type := by rfl
  cases hshown : v.showsType type with
  | false =>
    have hnull : filter v "__type" (.object members) = .null := by
      simp [filter, entryPlace, filterAt, admits, isHidden, hname, hshown]
    exact congrArg listedFields hnull
  | true =>
    have hobject : filter v "__type" (.object members) =
        .object (filterMembers v .type (some type) members) := by
      simp [filter, entryPlace, filterAt, admits, isHidden, hname, hshown, hknown]
    have hleft : filterMembers v .type (some type) members =
        [("name", .text type), ("fields", .array (filterItems v (.field (some type))
          (fields.map namedObject)))] := by rfl
    calc listedFields (filter v "__type" (.object members))
        = (filterItems v (.field (some type)) (fields.map namedObject)).filterMap name? := by
          rw [hobject, hleft]
          rfl
      _ = fields.filter fun field => isMeta field || v.allows type field := by
          rw [filterItems_namedObject, filterMap_name?]

end Introspection

namespace Redaction

variable {s : Schema} {v : Verifier} {type : String}

private theorem exists_judge_eq_ok_iff {head : Field} (items : List Selection) :
    (∃ returned, Authority.judge ⟨s, v, none⟩ type head items = .ok returned) ↔
      v.allows type head.name = true ∧ (s.field? type head.name).isSome = true := by
  simp only [Authority.judge_eq_ok_iff, Option.isSome_iff_exists]
  constructor
  · rintro ⟨returned, hallows, -, d, hd, -⟩
    exact ⟨hallows, d, hd⟩
  · rintro ⟨hallows, d, hd⟩
    exact ⟨d.type, hallows, by simp, d, hd, rfl⟩

private theorem redact_fieldQuery (policy : EmptySelections) (opening closing : Position)
    (head : Field) {inline : InlineFragment} (htype : inline.condition = some type) :
    ∃ r, redact ⟨s, v, none⟩ policy (Introspection.fieldQuery opening closing inline head) none =
        .ok r ∧
      (r.denials = [] ↔ isMeta head.name = true ∨
        (v.allows type head.name = true ∧ (s.field? type head.name).isSome = true)) := by
  have hrestrict : (Introspection.fieldQuery opening closing inline head).restrict none =
      .ok (Introspection.fieldQuery opening closing inline head) := by rfl
  refine ⟨_, by rw [redact, hrestrict], ?_⟩
  rw [← exists_judge_eq_ok_iff []]
  simp only [Introspection.fieldQuery, List.flatMap_singleton, denialsInDefinition, denialsInAll,
    denialsIn, htype, Option.getD_some, List.append_nil]
  cases hmeta : isMeta head.name with
  | true => simp
  | false => cases hjudge : Authority.judge ⟨s, v, none⟩ type head [] <;> simp

end Redaction

namespace ClientIndex

private theorem mem_names_of_field? {s : Schema} {type field : String} {d : TypeDef}
    (hd : s.type? type = some d) (h : (s.field? type field).isSome = true) :
    field ∈ d.fields.map FieldDef.name := by
  obtain ⟨rule, hrule⟩ := Option.isSome_iff_exists.mp h
  rw [Schema.field?, hd, Option.bind_some, TypeDef.field?] at hrule
  have hname : rule.name = field := by simpa using List.find?_some hrule
  exact hname ▸ List.mem_map_of_mem (List.mem_of_find?_eq_some hrule)

/-- Of a type of the schema a caller is told just of the fields for which its query is redacted
without a denial, as long as they are not fields of introspection. -/
theorem advertised_iff_not_denied {s : Schema} {clients : Clients} {x : ClientIndex}
    (h : build s clients = .ok x) (scopes : ScopeSet) {type : String} {d : TypeDef}
    (hd : s.type? type = some d) (policy : EmptySelections)
    (opening closing : Position) :
    (Introspection.advertised (x.verifier scopes) type d).Sublist (d.fields.map FieldDef.name) ∧
      ∀ (inline : InlineFragment) (head : Field), inline.condition = some type →
        isMeta head.name = false →
        (head.name ∈ Introspection.advertised (x.verifier scopes) type d ↔
          ∃ r, Redaction.redact ⟨s, x.verifier scopes, none⟩ policy
            (Introspection.fieldQuery opening closing inline head) none =
              .ok r ∧ r.denials = []) := by
  have hcoherent := coherent_verifier h scopes
  rw [Introspection.advertised_eq]
  refine ⟨?_, fun inline head htype hmeta => ?_⟩
  · split
    · exact List.filter_sublist
    · exact List.nil_sublist _
  obtain ⟨r, hr, hdenials⟩ := Redaction.redact_fieldQuery (s := s) (v := x.verifier scopes)
    policy opening closing head htype
  rw [hmeta, or_iff_right Bool.false_ne_true] at hdenials
  constructor
  · intro hm
    split at hm
    · have hallows : (x.verifier scopes).allows type head.name = true := by
        simpa [hmeta] using (List.mem_filter.mp hm).2
      obtain ⟨rule, hrule, -⟩ := hcoherent type head.name hallows
      exact ⟨r, hr, hdenials.mpr ⟨hallows, by simp [hrule]⟩⟩
    · exact absurd hm List.not_mem_nil
  · rintro ⟨r', hr', hnone⟩
    obtain rfl := Except.ok.inj (hr.symm.trans hr')
    obtain ⟨hallows, hfield⟩ := hdenials.mp hnone
    -- the type is shown, since one of its fields is permitted
    obtain ⟨rule, -, hshown, -⟩ := hcoherent type head.name hallows
    have hshows : (x.verifier scopes).showsType type = true := by
      simp [Verifier.showsType, hshown]
    rw [if_pos hshows]
    exact List.mem_filter.mpr ⟨mem_names_of_field? hd hfield, by simp [hallows]⟩

section Witness

private def readersOnly : Clients :=
  .ofList [("readers", ⟨[readersQuery], []⟩)] compare

private def person : TypeDef :=
  ⟨"Person", .object, [⟨"id", "ID", []⟩, ⟨"mail", "String", []⟩], [], [], []⟩

private def onPerson : InlineFragment :=
  ⟨⟨1, 6⟩, ⟨1, 15⟩, ⟨1, 20⟩, some "Person", []⟩

private theorem build_readersOnly : build Redaction.peopleSchema readersOnly =
    .ok ⟨[⟨"readers", [], readersSet⟩]⟩ := by
  have hlist : readersOnly.toList = [("readers", ⟨[readersQuery], []⟩)] := by rfl
  have hsome : readersOnly.isEmpty = false := by rfl
  have hreaders : IndexedClient.build Redaction.peopleSchema "readers" ⟨[readersQuery], []⟩ =
      .ok ⟨"readers", [], readersSet⟩ := by
    simp only [IndexedClient.build, compile_readersQuery]
    rfl
  simp only [build, hsome, hlist, List.mapM_cons, hreaders]
  rfl

/-- Readers are told of the identifier of a person, which they may select, and not of the mail. -/
theorem advertised_iff_not_denied_of_readers :
    ∃ x, build Redaction.peopleSchema readersOnly = .ok x ∧
      Introspection.advertised (x.verifier (.ofScopes ["readers"])) "Person" person = ["id"] ∧
      (∃ r, Redaction.redact ⟨Redaction.peopleSchema, x.verifier (.ofScopes ["readers"]), none⟩
        .prune (Introspection.fieldQuery ⟨1, 1⟩ ⟨1, 22⟩ onPerson (Redaction.plainField "id"))
          none = .ok r ∧ r.denials = []) ∧
      ¬ ∃ r, Redaction.redact ⟨Redaction.peopleSchema, x.verifier (.ofScopes ["readers"]), none⟩
        .prune (Introspection.fieldQuery ⟨1, 1⟩ ⟨1, 22⟩ onPerson (Redaction.plainField "mail"))
          none = .ok r ∧ r.denials = [] := by
  refine ⟨_, build_readersOnly, ?_⟩
  have hadvertised : Introspection.advertised
      (verifier ⟨[⟨"readers", [], readersSet⟩]⟩ (.ofScopes ["readers"])) "Person" person =
        ["id"] := by rfl
  have hperson : Redaction.peopleSchema.type? "Person" = some person := by rfl
  have hiff := (advertised_iff_not_denied build_readersOnly (.ofScopes ["readers"]) hperson .prune
    ⟨1, 1⟩ ⟨1, 22⟩).2 onPerson
  rw [hadvertised] at hiff
  refine ⟨hadvertised, (hiff (Redaction.plainField "id") rfl (by decide)).mp (by decide), ?_⟩
  rw [← hiff (Redaction.plainField "mail") rfl (by decide)]
  decide

end Witness

end ClientIndex

end FieldAuthorization
