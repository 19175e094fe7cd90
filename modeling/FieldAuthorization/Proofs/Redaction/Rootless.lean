import FieldAuthorization.Access.ClientIndex
import FieldAuthorization.Proofs.Redaction.Denials
import FieldAuthorization.Proofs.Redaction.Entries
import FieldAuthorization.Proofs.Schema.Types

/-!
Operations whose root the schema lacks.

Redaction begins such an operation at the conventional name of its root. That name permits nothing,
so that nothing is left at the root, unless the schema has a type of that name all the same: a
schema block may pass over the type, and type conditions lead declarations to it.
-/

set_option autoImplicit false
set_option relaxedAutoImplicit false

namespace FieldAuthorization

/-- Whether the place is the top of an operation, or in inline fragments there that have no type
condition. -/
def Place.atRoot : Place → Bool
  | .root x => x.isOperation
  | .field _ _ _ => false
  | .inline outer head => outer.atRoot && head.condition.isNone

def Untyped (trail : List Enclosure) : Prop :=
  ∀ e ∈ trail, ∃ head, e = .inline head ∧ head.condition = none

namespace Untyped

variable {trail : List Enclosure}

private theorem exposed (h : Untyped trail) : Exposed trail := by
  intro e he
  obtain ⟨head, rfl, -⟩ := h e he
  rfl

private theorem typeAt (h : Untyped trail) (s : Schema) (parent : String) :
    s.typeAt parent trail = some parent := by
  induction trail with
  | nil => rfl
  | cons e rest ih =>
    obtain ⟨⟨head, rfl, hcondition⟩, hrest⟩ := List.forall_mem_cons.mp h
    rw [Schema.typeAt_inline, hcondition]
    exact ih hrest

end Untyped

private theorem Place.not_atRoot_of_mem {outer : Place} {items : List Selection}
    {p : Place × Selection} (h : outer.atRoot = false) (hp : p ∈ occurrencesInAll outer items) :
    p.1.atRoot = false :=
  inside_of_mem_occurrencesInAll (fun outer => outer.atRoot = false) (fun _ _ _ _ => rfl)
    (fun _ _ h => by simp [atRoot, h]) h p hp

private theorem exists_untyped_of_mem_occurrencesIn {outer : Place} {x : Selection}
    {p : Place × Selection} (hp : p ∈ occurrencesIn outer x) (hroot : p.1.atRoot = true) :
    ∃ trail, Untyped trail ∧ Occurs [x] trail p.2 := by
  have hhere {y : Selection} : ∃ trail, Untyped trail ∧ Occurs [y] trail y :=
    ⟨[], by simp [Untyped], .here (List.mem_singleton.mpr rfl)⟩
  induction x generalizing outer with
  | field head items ih =>
    rw [occurrencesIn] at hp
    rcases List.mem_cons.mp hp with rfl | hp
    · exact hhere
    · rw [Place.not_atRoot_of_mem rfl hp] at hroot
      cases hroot
  | spread head =>
    rw [occurrencesIn] at hp
    obtain rfl := List.mem_singleton.mp hp
    exact hhere
  | inline head items ih =>
    rw [occurrencesIn] at hp
    rcases List.mem_cons.mp hp with rfl | hp
    · exact hhere
    · cases hcondition : head.condition with
      | some type =>
        rw [Place.not_atRoot_of_mem (by simp [Place.atRoot, hcondition]) hp] at hroot
        cases hroot
      | none =>
        rw [occurrencesInAll_eq_flatMap] at hp
        obtain ⟨y, hy, hp⟩ := List.mem_flatMap.mp hp
        obtain ⟨trail, huntyped, hoccurs⟩ := ih y hy hp
        exact ⟨_, List.forall_mem_cons.mpr ⟨⟨head, rfl, hcondition⟩, huntyped⟩,
          hoccurs.below_inline hy⟩

namespace SchemaDocument

private theorem type?_conventionalType {d : SchemaDocument} {s : Schema} {kind : OperationKind}
    (hroots : d.roots? = none) (h : d.toSchema = .ok s) (hroot : s.root? kind = none) :
    s.type? kind.conventionalType = none := by
  simp only [toSchema, hroots, resolveByConvention] at h
  split at h
  · cases h
  · cases h
    cases kind with
    | query => cases hroot
    | mutation | subscription => simpa [Schema.root?, Schema.type?] using hroot

end SchemaDocument

namespace Redaction

/-- At the root of an operation nothing but introspection is left, and each other field there has a
report of its own among what is reported. -/
structure RootStripped (a : Authority) (chosen : Document) (o : Operation) (r : Redaction) :
    Prop where
  removed : ∀ outer head items, (outer, .field head items) ∈ r.document.occurrences →
    outer.atRoot = true → isMeta head.name = true
  reported : r.denials = chosen.occurrences.filterMap a.denial?
  denied : ∀ outer head items, (outer, .field head items) ∈ chosen.occurrences →
    outer.atRoot = true → isMeta head.name = false → a.denial? (outer, .field head items) =
      some ⟨.operation o.name, [head.responseKey], o.kind.conventionalType, head.name,
        head.position, a.refusal o.kind.conventionalType head items⟩

/-- Whatever is selected at the root of operations of a kind is taken out and reported. -/
def StripsRoot (s : Schema) (v : Verifier) (kind : OperationKind) : Prop :=
  ∀ (extension : Option Extension) (policy : EmptySelections) (d chosen : Document)
    (name : Option String) (o : Operation),
    d.restrict name = .ok chosen → .operation o ∈ chosen.definitions → o.kind = kind →
    ∃ r, redact ⟨s, v, extension⟩ policy d name = .ok r ∧ RootStripped ⟨s, v, extension⟩ chosen o r

variable {a : Authority} {policy : EmptySelections} {d chosen : Document} {o : Operation}

/-- The conventional type of an operation permits no field that is not of introspection. -/
def Barren (s : Schema) (v : Verifier) (type : String) : Prop :=
  ∀ field, isMeta field = false → (s.field? type field).isSome = true → v.allows type field = false

private theorem Barren.refuses {type : String} {head : Field} {items : List Selection}
    (h : Barren a.schema a.verifier type) (hmeta : isMeta head.name = false) :
    a.refuses type head items = true := by
  cases hfield : a.schema.field? type head.name with
  | none => simp [Authority.refuses, hfield]
  | some field => simp [Authority.refuses, h head.name hmeta (by simp [hfield])]

private theorem visits_of_atRoot {outer : Place} (hroot : a.schema.root? o.kind = none)
    (horigin : outer.origin = .operation o) (h : outer.atRoot = true) :
    a.Visits outer o.kind.conventionalType ∧ outer.path = [] := by
  induction outer with
  | root x =>
    obtain rfl : x = .operation o := horigin
    have hvisits : a.Visits (.root (.operation o)) ((a.schema.root? o.kind).getD _) := .root rfl
    rw [hroot] at hvisits
    exact ⟨hvisits, rfl⟩
  | field outer head items => cases h
  | inline outer head ih =>
    simp only [Place.atRoot, Bool.and_eq_true, Option.isNone_iff_eq_none] at h
    obtain ⟨hvisits, hpath⟩ := ih horigin h.1
    have hinside := hvisits.inline head
    rw [h.2] at hinside
    exact ⟨hinside, hpath⟩

private theorem judge_of_mem_occurrences {outer : Place} {head : Field} {left : List Selection}
    (h : (outer, .field head left) ∈ (redactDocument a policy chosen).occurrences)
    (hatRoot : outer.atRoot = true) (hmeta : isMeta head.name = false) :
    ∃ o inner type, .operation o ∈ chosen.definitions ∧
      a.judge (a.rootType o.kind) head inner = .ok type := by
  obtain ⟨y, hy, h⟩ := List.mem_flatMap.mp h
  obtain ⟨x, hx, -, rfl⟩ := mem_redactDocument.mp hy
  cases x with
  | fragment f =>
    rw [Place.not_atRoot_of_mem rfl h] at hatRoot
    cases hatRoot
  | operation o =>
    rw [Definition.items_withItems, occurrencesInAll_eq_flatMap] at h
    obtain ⟨z, hz, h⟩ := List.mem_flatMap.mp h
    obtain ⟨trail, huntyped, hoccurs⟩ := exists_untyped_of_mem_occurrencesIn h hatRoot
    obtain ⟨middle, hoccurs, -⟩ := of_occurs_remaining (hoccurs.of_mem hz)
    obtain ⟨inside, w, hreach, hw⟩ := reaches_of_occurs hoccurs huntyped.exposed
    obtain ⟨inner, rfl, ⟨hmeta', -⟩ | ⟨-, type, hjudge, -⟩⟩ := of_redactSelection_field hw
    · simp [hmeta] at hmeta'
    · have hinside : a.rootType o.kind = inside :=
        Option.some.inj ((huntyped.typeAt a.schema _).symm.trans hreach.typeAt)
      exact ⟨o, inner, type, hx, hinside ▸ hjudge⟩

private theorem rootStripped_of_barren (hroot : a.schema.root? o.kind = none)
    (hbarren : Barren a.schema a.verifier o.kind.conventionalType)
    (honly : chosen.operations = [o]) :
    RootStripped a chosen o ⟨redactDocument a policy chosen,
      chosen.definitions.flatMap (denialsInDefinition a)⟩ where
  removed := by
    intro outer head left h hatRoot
    by_contra hmeta
    rw [Bool.not_eq_true] at hmeta
    obtain ⟨o', inner, type, ho', hjudge⟩ := judge_of_mem_occurrences h hatRoot hmeta
    rw [← Document.mem_operations, honly, List.mem_singleton] at ho'
    subst ho'
    rw [Authority.rootType, hroot, Option.getD_none,
      Authority.judge_of_refuses (hbarren.refuses hmeta)] at hjudge
    cases hjudge
  reported := by
    rw [Document.occurrences, List.filterMap_flatMap]
    exact List.flatMap_congr fun x _ => denialsInDefinition_eq_filterMap x
  denied := by
    intro outer head items h hatRoot hmeta
    obtain ⟨x, hx, h⟩ := List.mem_flatMap.mp h
    have horigin : outer.origin = x := Place.origin_of_mem h
    cases x with
    | fragment f =>
      rw [Place.not_atRoot_of_mem rfl h] at hatRoot
      cases hatRoot
    | operation o' =>
      rw [← Document.mem_operations, honly, List.mem_singleton] at hx
      subst hx
      obtain ⟨hvisits, hpath⟩ := visits_of_atRoot hroot horigin hatRoot
      rw [hvisits.denial?_eq hmeta (hbarren.refuses hmeta), horigin, hpath]
      rfl

private def rootOperation (kind : OperationKind) (field : String) : Operation :=
  ⟨some ⟨⟨1, 1⟩, kind, none, [], []⟩, ⟨1, 1⟩, ⟨1, 1⟩, [.field (plainField field) []]⟩

private theorem redact_rootOperation {s : Schema} {v : Verifier} {kind : OperationKind}
    {field : String} (hroot : s.root? kind = none) (hmeta : isMeta field = false)
    (hfield : (s.field? kind.conventionalType field).isSome = true)
    (hallows : v.allows kind.conventionalType field = true) :
    redact ⟨s, v, none⟩ .keep ⟨[.operation (rootOperation kind field)]⟩ none =
      .ok ⟨⟨[.operation (rootOperation kind field)]⟩, []⟩ := by
  obtain ⟨d, hd⟩ := Option.isSome_iff_exists.mp hfield
  have htype : Authority.rootType ⟨s, v, none⟩ (rootOperation kind field).kind =
      kind.conventionalType := by
    rw [Authority.rootType]
    exact congrArg (Option.getD · _) hroot
  have hjudge : Authority.judge ⟨s, v, none⟩ kind.conventionalType (plainField field) [] =
      .ok d.type :=
    Authority.judge_eq_ok_iff.mpr ⟨hallows, by simp, d, hd, rfl⟩
  have hplain : isMeta (plainField field).name = false := hmeta
  have hrestrict : Document.restrict ⟨[.operation (rootOperation kind field)]⟩ none =
      .ok ⟨[.operation (rootOperation kind field)]⟩ := by rfl
  simp only [redact, hrestrict, redactDocument, redactDefinition, denialsInDefinition, htype,
    List.map_cons, List.map_nil, List.flatMap_cons, List.flatMap_nil]
  simp [rootOperation, redactSelections, redactSelection, denialsInAll, denialsIn, hplain, hjudge]

/-- Operations of a kind that the schema has no root for get nothing just if the verifier allows no
field that the schema gives to the type of conventional name. So it is for every verifier if the
schema comes without a schema block. -/
theorem stripsRoot_iff {s : Schema} {kind : OperationKind} (h : s.root? kind = none)
    (v : Verifier) :
    (StripsRoot s v kind ↔ Barren s v kind.conventionalType) ∧
      ∀ d : SchemaDocument, d.roots? = none → d.toSchema = .ok s → StripsRoot s v kind := by
  have hstrips : Barren s v kind.conventionalType → StripsRoot s v kind := by
    rintro hbarren extension policy d chosen name o hchosen ho rfl
    obtain ⟨o', honly, -⟩ := Document.executes_of_restrict hchosen
    rw [← Document.mem_operations, honly, List.mem_singleton] at ho
    subst ho
    exact ⟨_, by rw [redact, hchosen], rootStripped_of_barren h hbarren honly⟩
  refine ⟨⟨fun hall field hmeta hfield => ?_, hstrips⟩, fun d hroots hd => hstrips ?_⟩
  · by_contra hallows
    rw [Bool.not_eq_false] at hallows
    have hleft := redact_rootOperation h hmeta hfield hallows
    obtain ⟨r, hr, hstripped⟩ := hall none .keep ⟨[.operation (rootOperation kind field)]⟩
      ⟨[.operation (rootOperation kind field)]⟩ none (rootOperation kind field) rfl
      (List.mem_singleton.mpr rfl) rfl
    obtain rfl := Except.ok.inj (hleft.symm.trans hr)
    have hremoved := hstripped.removed (.root (.operation (rootOperation kind field)))
      (plainField field) [] (List.mem_singleton.mpr rfl) rfl
    rw [← Bool.not_eq_false] at hremoved
    exact hremoved hmeta
  · intro field _ hfield
    simp [Schema.field?, SchemaDocument.type?_conventionalType hroots hd h] at hfield

section Witness

/-- The schema block passes over a type of conventional name. -/
private def staleText : String :=
  "schema { query: Query } type Query { ping: String } type Mutation { wipe: String }"

private def staleTypes : List SchemaDefinition :=
  [.type "Query" (.object [] [⟨"ping", "String", []⟩]),
    .type "Mutation" (.object [] [⟨"wipe", "String", []⟩])]

private def staleSchema : Schema :=
  ⟨SchemaDocument.linkedTypes ⟨.roots ⟨some "Query", none, none⟩ :: staleTypes⟩, "Query", none,
    none⟩

private theorem parse_staleText : Schema.parse staleText = .ok staleSchema := by
  have hparse : SchemaDocument.parse staleText =
      .ok ⟨.roots ⟨some "Query", none, none⟩ :: staleTypes⟩ := by cbv
  exact Schema.parse_eq_ok.mpr ⟨_, hparse, by rfl⟩

private def pingOnly : Verifier :=
  ⟨["readers"], ⟨.ofList [⟨"Query", "ping"⟩] compare, ∅⟩⟩

/-- A declaration reaches the type of conventional name through a type condition. -/
private def wipeQuery : String :=
  "{ ... on Mutation { wipe } }"

private def wipeClients : Clients :=
  .ofList [("wipers", ⟨[wipeQuery], []⟩)] compare

private def wipeSet : PermissionSet :=
  ⟨.ofList [⟨"Mutation", "wipe"⟩] compare, .ofList ["Query", "Mutation", "String"] compare⟩

private theorem build_wipeClients :
    ClientIndex.build staleSchema wipeClients = .ok ⟨[⟨"wipers", [], wipeSet⟩]⟩ := by
  have hparse : Document.parse wipeQuery = .ok ⟨[.operation ⟨none, ⟨1, 1⟩, ⟨1, 28⟩,
      [.inline ⟨⟨1, 7⟩, ⟨1, 19⟩, ⟨1, 26⟩, some "Mutation", []⟩
        [.field ⟨⟨1, 21⟩, ⟨1, 21⟩, ⟨1, 21⟩, none, "wipe", [], []⟩ []]]⟩]⟩ := by cbv
  have hcompile : Declaration.compile staleSchema "wipers" [wipeQuery] = .ok wipeSet := by
    simp only [Declaration.compile, List.foldlM_cons, Declaration.grantText, hparse]
    rfl
  have hclient : IndexedClient.build staleSchema "wipers" ⟨[wipeQuery], []⟩ =
      .ok ⟨"wipers", [], wipeSet⟩ := by
    simp only [IndexedClient.build, hcompile]
    rfl
  have hsome : wipeClients.isEmpty = false := by rfl
  have hlist : wipeClients.toList = [("wipers", ⟨[wipeQuery], []⟩)] := by rfl
  simp only [ClientIndex.build, hsome, hlist, List.mapM_cons, hclient]
  rfl

/-- A caller who may only ping gets nothing from a mutation. Without a schema block the type of
conventional name would be the root, and then a subscription gets nothing from anyone. -/
theorem stripsRoot_of_ping :
    Schema.parse staleText = .ok staleSchema ∧ staleSchema.root? .mutation = none ∧
      StripsRoot staleSchema pingOnly .mutation ∧
      ∃ s, SchemaDocument.toSchema ⟨staleTypes⟩ = .ok s ∧ s.root? .mutation = some "Mutation" ∧
        s.root? .subscription = none ∧
        StripsRoot s ⟨["wipers"], wipeSet⟩ .subscription := by
  have hbarren : Barren staleSchema pingOnly "Mutation" := by
    intro field _ _
    simp [Verifier.allows, PermissionSet.permits, pingOnly]
  exact ⟨parse_staleText, rfl, (stripsRoot_iff rfl pingOnly).1.mpr hbarren,
    _, by rfl, by rfl, by rfl, (stripsRoot_iff (by rfl) _).2 ⟨staleTypes⟩ (by rfl) (by rfl)⟩

/-- A caller whose client declares the field through a type condition keeps it. -/
theorem exists_not_stripsRoot :
    ∃ s x, Schema.parse staleText = .ok s ∧ s.root? .mutation = none ∧
      ClientIndex.build s wipeClients = .ok x ∧
      ¬ StripsRoot s (x.verifier (.ofScopes ["wipers"])) .mutation := by
  refine ⟨staleSchema, _, parse_staleText, rfl, build_wipeClients, fun hstrips => ?_⟩
  have hleft := @redact_rootOperation staleSchema
    (ClientIndex.verifier ⟨[⟨"wipers", [], wipeSet⟩]⟩ (.ofScopes ["wipers"])) .mutation "wipe"
    rfl (by decide) (by rfl) (by rfl)
  obtain ⟨r, hr, hstripped⟩ := hstrips none .keep ⟨[.operation (rootOperation .mutation "wipe")]⟩
    _ none (rootOperation .mutation "wipe") (by rfl) (List.mem_singleton.mpr rfl) rfl
  obtain rfl := Except.ok.inj (hleft.symm.trans hr)
  exact absurd (hstripped.removed (.root (.operation (rootOperation .mutation "wipe")))
    (plainField "wipe") [] (List.mem_singleton.mpr rfl) rfl) (by decide)

end Witness

end Redaction

end FieldAuthorization
