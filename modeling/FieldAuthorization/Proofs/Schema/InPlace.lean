import FieldAuthorization.Proofs.Schema.Implementers

/-!
Extensions written in place.

What the extensions of a name add may as well stand in its last definition. If every extension is of
the kind of the type that it extends, a document describes the same schema, or none for the same
reason, once its extensions are moved into the definitions, wherever they stood.
-/

set_option autoImplicit false
set_option relaxedAutoImplicit false

namespace FieldAuthorization

namespace TypeBody

def append : TypeBody → TypeBody → TypeBody
  | .object interfaces fields, .object moreInterfaces moreFields =>
    .object (interfaces ++ moreInterfaces) (fields ++ moreFields)
  | .interface fields, .interface more => .interface (fields ++ more)
  | .union members, .union more => .union (members ++ more)
  | .inputObject fields, .inputObject more => .inputObject (fields ++ more)
  | body, _ => body

private theorem kind_append (body more : TypeBody) : (body.append more).kind = body.kind := by
  cases body <;> cases more <;> rfl

end TypeBody

namespace TypeDef

private theorem extend_append (type : TypeDef) {body more : TypeBody} (h : more.kind = body.kind) :
    type.extend (body.append more) = (type.extend body).extend more := by
  cases body <;> cases more <;> simp_all [TypeBody.kind, TypeBody.append, extend]

private theorem extend_foldl_append (type : TypeDef) {body : TypeBody} {l : List TypeBody}
    (h : ∀ more ∈ l, more.kind = body.kind) :
    type.extend (l.foldl TypeBody.append body) = l.foldl extend (type.extend body) := by
  induction l generalizing body with
  | nil => rfl
  | cons more rest ih =>
    obtain ⟨hmore, hrest⟩ := List.forall_mem_cons.mp h
    rw [List.foldl_cons, List.foldl_cons, ← extend_append type hmore]
    refine ih fun other hother => ?_
    rw [TypeBody.kind_append, hrest other hother]

private theorem foldl_extend_of_scalar (type : TypeDef) {l : List TypeBody}
    (h : ∀ body ∈ l, body.kind = .scalar) : l.foldl extend type = type := by
  induction l with
  | nil => rfl
  | cons body rest ih =>
    obtain ⟨hbody, hrest⟩ := List.forall_mem_cons.mp h
    cases body <;> simp only [TypeBody.kind, reduceCtorEq] at hbody
    exact ih hrest

private theorem kind_foldl_append (body : TypeBody) (l : List TypeBody) :
    (l.foldl TypeBody.append body).kind = body.kind := by
  induction l generalizing body with
  | nil => rfl
  | cons more rest ih => rw [List.foldl_cons, ih, TypeBody.kind_append]

private theorem ofBody_foldl_append (name : String) {body : TypeBody} {l : List TypeBody}
    (h : ∀ more ∈ l, more.kind = body.kind) :
    ofBody name (l.foldl TypeBody.append body) = l.foldl extend (ofBody name body) := by
  rw [ofBody, kind_foldl_append, extend_foldl_append _ h, ofBody]

end TypeDef

namespace SchemaDocument

/-- Definitions without the extensions among them, where the last definition of a name says also
what the additions to it say. -/
def withAdditions (additions : String → List TypeBody) :
    List SchemaDefinition → List SchemaDefinition
  | [] => []
  | .type name body :: rest =>
    let isLast := rest.all fun x => (x.body? name).isNone
    .type name (if isLast then (additions name).foldl TypeBody.append body else body) ::
      withAdditions additions rest
  | .extension _ _ :: rest => withAdditions additions rest
  | .roots block :: rest => .roots block :: withAdditions additions rest
  | .directive :: rest => .directive :: withAdditions additions rest

/-- The document with every extension moved into the last definition of its name. -/
def inPlace (d : SchemaDocument) : SchemaDocument :=
  ⟨withAdditions d.additions d.definitions⟩

/-- Every extension is of the kind of the type that it extends, which the last definition of the
name gives. -/
def ExtendsAlike (d : SchemaDocument) : Prop :=
  ∀ name body, .extension name body ∈ d.definitions →
    ∀ type, d.definedTypes[name]? = some type → body.kind = type.kind

variable {d : SchemaDocument} {name : String}

private theorem additions_inPlace (d : SchemaDocument) (name : String) :
    d.inPlace.additions name = [] := by
  have hnone (l : List SchemaDefinition) :
      (withAdditions d.additions l).filterMap (·.addition? name) = [] := by
    induction l with
    | nil => rfl
    | cons x rest ih => cases x <;> simpa [withAdditions, SchemaDefinition.addition?] using ih
  exact hnone d.definitions

private theorem body?_inPlace (d : SchemaDocument) (name : String) : d.inPlace.body? name =
    (d.body? name).map fun body => (d.additions name).foldl TypeBody.append body := by
  have hlast (l : List SchemaDefinition) :
      ((withAdditions d.additions l).filterMap (·.body? name)).getLast? =
        ((l.filterMap (·.body? name)).getLast?).map fun body =>
          (d.additions name).foldl TypeBody.append body := by
    induction l with
    | nil => rfl
    | cons x rest ih =>
      cases x with
      | roots _ | extension _ _ | directive =>
        simpa [withAdditions, SchemaDefinition.body?] using ih
      | type n body =>
        by_cases hn : n = name
        · subst hn
          have hself (said : TypeBody) :
              (SchemaDefinition.type n said).body? n = some said := if_pos rfl
          rw [withAdditions, List.filterMap_cons_some (hself _), List.filterMap_cons_some (hself _),
            List.getLast?_cons, List.getLast?_cons, ih]
          cases hrest : rest.filterMap (·.body? n) with
          | nil =>
            have hlast : (rest.all fun x => (x.body? n).isNone) = true := by
              simpa using List.filterMap_eq_nil_iff.mp hrest
            rw [hlast, if_pos rfl]
            rfl
          | cons other more => simp [List.getLast?_cons]
        · simpa [withAdditions, SchemaDefinition.body?, hn] using ih
  exact hlast d.definitions

private theorem roots?_inPlace (d : SchemaDocument) : d.inPlace.roots? = d.roots? := by
  unfold roots? inPlace
  generalize (none : Option RootTypes) = roots
  simp only
  induction d.definitions generalizing roots with
  | nil => rfl
  | cons x rest ih => cases x <;> exact ih _

private theorem extendedTypes_inPlace (h : d.ExtendsAlike) :
    d.inPlace.extendedTypes = d.extendedTypes := by
  refine Std.ExtTreeMap.ext_getElem? fun name => ?_
  have halike : ∀ type, d.definedTypes[name]? = some type →
      ∀ body ∈ d.additions name, body.kind = type.kind :=
    fun type htype body hbody => h name body (mem_additions.mp hbody) type htype
  rw [getElem?_extendedTypes, getElem?_extendedTypes, additions_inPlace]
  rw [getElem?_definedTypes] at halike ⊢
  rw [getElem?_definedTypes, body?_inPlace]
  cases hbody : d.body? name with
  | some body =>
    have hkinds : ∀ more ∈ d.additions name, more.kind = body.kind := by
      simpa [hbody] using halike
    simp [TypeDef.ofBody_foldl_append name hkinds]
  | none =>
    rw [getElem?_builtinTypes] at halike ⊢
    by_cases hbuiltin : name ∈ builtinScalars
    · have hkinds : ∀ more ∈ d.additions name, more.kind = .scalar := by
        simpa [hbody, hbuiltin, TypeDef.empty] using halike
      simp [hbuiltin, TypeDef.foldl_extend_of_scalar _ hkinds]
    · simp [hbuiltin]

private theorem extendsAlike_of_body? (h : ∀ name body, .extension name body ∈ d.definitions →
    ∃ last, d.body? name = some last ∧ body.kind = last.kind) : d.ExtendsAlike := by
  intro name body hm type htype
  obtain ⟨last, hlast, hkind⟩ := h name body hm
  rw [getElem?_definedTypes, hlast, Option.map_some, Option.some_or, Option.some.injEq] at htype
  rw [hkind, ← htype, TypeDef.kind_ofBody]

/-- A document whose extensions are of the kinds of the types that they extend gives the same
schema, or the same error, as with its extensions written in place; and so do texts that are read
as the two documents. -/
theorem toSchema_inPlace (h : d.ExtendsAlike) :
    d.inPlace.toSchema = d.toSchema ∧
      ∀ sdl moved, SchemaDocument.parse sdl = .ok d → SchemaDocument.parse moved = .ok d.inPlace →
        Schema.parse moved = Schema.parse sdl := by
  have hlinked : d.inPlace.linkedTypes = d.linkedTypes := by
    rw [linkedTypes, linkedTypes, extendedTypes_inPlace h]
  have hschema : d.inPlace.toSchema = d.toSchema := by
    rw [toSchema, toSchema, roots?_inPlace, hlinked]
  refine ⟨hschema, fun sdl moved hparse hmoved => ?_⟩
  rw [Schema.parse, Schema.parse, hparse, hmoved]
  exact hschema

section Witness

/-- A type is extended before it is defined again, with an interface that is defined later. -/
private def scatteredText : String :=
  "extend type User implements Node{mail:ID} type User{old:ID} extend union Any=User " ++
    "type Query{user:User} union Any=Query type User{id:ID} interface Node{id:ID}"

private def movedText : String :=
  "type User{old:ID} type Query{user:User} union Any=Query|User " ++
    "type User implements Node{id:ID mail:ID} interface Node{id:ID}"

private def scatteredDocument : SchemaDocument :=
  ⟨[.extension "User" (.object ["Node"] [⟨"mail", "ID", []⟩]),
    .type "User" (.object [] [⟨"old", "ID", []⟩]), .extension "Any" (.union ["User"]),
    .type "Query" (.object [] [⟨"user", "User", []⟩]), .type "Any" (.union ["Query"]),
    .type "User" (.object [] [⟨"id", "ID", []⟩]), .type "Node" (.interface [⟨"id", "ID", []⟩])]⟩

set_option maxRecDepth 2000 in
theorem toSchema_inPlace_of_scattered :
    SchemaDocument.parse scatteredText = .ok scatteredDocument ∧
      SchemaDocument.parse movedText = .ok scatteredDocument.inPlace ∧
      Schema.parse movedText = Schema.parse scatteredText ∧
      (∃ s, Schema.parse movedText = .ok s ∧
        (s.type? "User").map TypeDef.fields = some [⟨"id", "ID", []⟩, ⟨"mail", "ID", []⟩] ∧
        (s.type? "Node").map TypeDef.possible = some ["User"] ∧
        (s.type? "Any").map TypeDef.possible = some ["Query", "User"]) := by
  have hscattered : SchemaDocument.parse scatteredText = .ok scatteredDocument := by cbv
  have hmoved : SchemaDocument.parse movedText = .ok scatteredDocument.inPlace := by cbv
  have halike : scatteredDocument.ExtendsAlike := by
    refine extendsAlike_of_body? fun name body hm => ?_
    simp only [scatteredDocument, List.mem_cons, SchemaDefinition.extension.injEq, reduceCtorEq,
      List.not_mem_nil, or_false, false_or] at hm
    rcases hm with ⟨rfl, rfl⟩ | ⟨rfl, rfl⟩ <;> exact ⟨_, rfl, rfl⟩
  refine ⟨hscattered, hmoved, (toSchema_inPlace halike).2 _ _ hscattered hmoved, ?_⟩
  exact ⟨_, Schema.parse_eq_ok.mpr ⟨_, hmoved, rfl⟩, rfl, rfl, rfl⟩

end Witness

end SchemaDocument

end FieldAuthorization
