import Mathlib.Data.List.Sort
import FieldAuthorization.Proofs.Schema.Types

/-!
The object types that an interface knows.

The possible types of an interface are first what union extensions of its name add and then the
object types that list it, by ascending name, each as often as it lists the interface. So they are
the implementing object types without repetition just if nothing is added by a union extension and
no object type lists the interface twice.
-/

set_option autoImplicit false
set_option relaxedAutoImplicit false

namespace FieldAuthorization

namespace TypeBody

def members : TypeBody → List String
  | .union members => members
  | .scalar | .object _ _ | .interface _ | .enum | .inputObject _ => []

def interfaces : TypeBody → List String
  | .object interfaces _ => interfaces
  | .scalar | .interface _ | .union _ | .enum | .inputObject _ => []

end TypeBody

namespace TypeDef

@[simp] theorem kind_extend (type : TypeDef) (body : TypeBody) :
    (type.extend body).kind = type.kind := by
  cases body <;> rfl

@[simp] theorem kind_foldl_extend (type : TypeDef) (l : List TypeBody) :
    (l.foldl extend type).kind = type.kind := by
  induction l generalizing type with
  | nil => rfl
  | cons body rest ih => rw [List.foldl_cons, ih, kind_extend]

@[simp] theorem kind_ofBody (name : String) (body : TypeBody) :
    (ofBody name body).kind = body.kind :=
  kind_extend _ body

private theorem possible_extend (type : TypeDef) (body : TypeBody) :
    (type.extend body).possible = type.possible ++ body.members := by
  cases body <;> simp [extend, TypeBody.members]

private theorem possible_foldl_extend (type : TypeDef) (l : List TypeBody) :
    (l.foldl extend type).possible = type.possible ++ l.flatMap TypeBody.members := by
  induction l generalizing type with
  | nil => simp
  | cons body rest ih =>
    rw [List.foldl_cons, ih, possible_extend, List.flatMap_cons, List.append_assoc]

private theorem interfaces_extend (type : TypeDef) (body : TypeBody) :
    (type.extend body).interfaces = type.interfaces ++ body.interfaces := by
  cases body <;> simp [extend, TypeBody.interfaces]

private theorem interfaces_foldl_extend (type : TypeDef) (l : List TypeBody) :
    (l.foldl extend type).interfaces = type.interfaces ++ l.flatMap TypeBody.interfaces := by
  induction l generalizing type with
  | nil => simp
  | cons body rest ih =>
    rw [List.foldl_cons, ih, interfaces_extend, List.flatMap_cons, List.append_assoc]

end TypeDef

/-- The type of the name is an object type that lists the interface. -/
def Schema.Implements (s : Schema) (name interface : String) : Prop :=
  ∃ object, s.type? name = some object ∧ object.kind = .object ∧ interface ∈ object.interfaces

namespace SchemaDocument

variable {d : SchemaDocument} {types : TypeMap} {name interface : String} {type : TypeDef}

private theorem mem_implementers : name ∈ implementers types interface ↔
    ∃ object, types[name]? = some object ∧ object.kind = .object ∧
      interface ∈ object.interfaces := by
  unfold implementers
  rw [List.mem_flatMap]
  constructor
  · rintro ⟨⟨n, object⟩, hentry, hname⟩
    have hobject := Std.ExtTreeMap.mem_toList_iff_getElem?_eq_some.mp hentry
    simp only at hname
    split at hname
    · obtain ⟨hcount, rfl⟩ := List.mem_replicate.mp hname
      exact ⟨object, hobject, ‹_›, List.count_pos_iff.mp (Nat.pos_of_ne_zero hcount)⟩
    · exact absurd hname List.not_mem_nil
  · rintro ⟨object, hobject, hkind, hlists⟩
    refine ⟨(name, object), Std.ExtTreeMap.mem_toList_iff_getElem?_eq_some.mpr hobject, ?_⟩
    simp only [hkind, if_true]
    exact List.mem_replicate.mpr ⟨(List.count_pos_iff.mpr hlists).ne', rfl⟩

private theorem pairwise_implementers_iff : (implementers types interface).Pairwise (· < ·) ↔
    ∀ (name : String) (object : TypeDef), types[name]? = some object → object.kind = .object →
      object.interfaces.count interface ≤ 1 := by
  unfold implementers
  rw [List.pairwise_flatMap]
  constructor
  · rintro ⟨hsingle, -⟩ name object hobject hkind
    have hown := hsingle _ (Std.ExtTreeMap.mem_toList_iff_getElem?_eq_some.mpr hobject)
    simp only [hkind, if_true, List.pairwise_replicate] at hown
    exact hown.resolve_right (String.lt_irrefl name)
  · intro honce
    refine ⟨?single, ?apart⟩
    case single =>
      rintro ⟨name, object⟩ hentry
      have hobject := Std.ExtTreeMap.mem_toList_iff_getElem?_eq_some.mp hentry
      by_cases hkind : object.kind = .object
      · simp only [hkind, if_true, List.pairwise_replicate]
        exact .inl (honce name object hobject hkind)
      · simp [hkind]
    case apart =>
      have hordered : types.toList.Pairwise fun a b => compare a.1 b.1 = .lt :=
        Std.ExtTreeMap.ordered_keys_toList
      refine hordered.imp ?_
      rintro ⟨n, object⟩ ⟨m, other⟩ hlt x hx y hy
      have hnames {n : String} {object : TypeDef} {x : String}
          (hx : x ∈ if object.kind = .object then
            List.replicate (object.interfaces.count interface) n else []) : x = n := by
        split at hx
        · exact (List.mem_replicate.mp hx).2
        · exact absurd hx List.not_mem_nil
      rw [hnames hx, hnames hy]
      exact compareOfLessAndEq_eq_lt.mp hlt

private theorem object_linkedTypes_iff :
    d.linkedTypes[name]? = some type ∧ type.kind = .object ↔
      d.extendedTypes[name]? = some type ∧ type.kind = .object := by
  rw [getElem?_linkedTypes]
  cases d.extendedTypes[name]? with
  | none => simp
  | some extended =>
    by_cases hkind : extended.kind = .interface
    · simp only [Option.map_some, hkind, if_true, Option.some.injEq]
      constructor
      · rintro ⟨rfl, hobject⟩
        cases hobject
      · rintro ⟨rfl, hobject⟩
        cases hkind.symm.trans hobject
    · simp [hkind]

private theorem possible_of_linkedTypes (h : d.linkedTypes[interface]? = some type)
    (hkind : type.kind = .interface) :
    type.possible = (d.additions interface).flatMap TypeBody.members ++
      implementers d.extendedTypes interface := by
  rw [getElem?_linkedTypes, getElem?_extendedTypes, getElem?_definedTypes,
    getElem?_builtinTypes] at h
  obtain ⟨extended, hextended, hlinked⟩ := Option.map_eq_some_iff.mp h
  obtain ⟨defined, hdefined, rfl⟩ := Option.map_eq_some_iff.mp hextended
  have hinterface : defined.kind = .interface := by
    rw [← TypeDef.kind_foldl_extend defined (d.additions interface)]
    subst hlinked
    split at hkind <;> assumption
  rw [if_pos (by simpa using hinterface)] at hlinked
  have hnothing : defined.possible = [] := by
    rcases Option.or_eq_some_iff.mp hdefined with hbody | ⟨-, hbuiltin⟩
    · obtain ⟨body, -, rfl⟩ := Option.map_eq_some_iff.mp hbody
      rw [TypeDef.kind_ofBody] at hinterface
      cases body <;> simp [TypeBody.kind] at hinterface
      rfl
    · split at hbuiltin
      · cases hbuiltin
        cases hinterface
      · cases hbuiltin
  rw [← hlinked, TypeDef.possible_foldl_extend, hnothing, List.nil_append]

private theorem flatMap_members_eq_nil_iff : (d.additions interface).flatMap TypeBody.members = [] ↔
    ∀ members, .extension interface (.union members) ∈ d.definitions → members = [] := by
  simp only [List.flatMap_eq_nil_iff, mem_additions]
  constructor
  · intro h members hm
    exact h _ hm
  · intro h body hm
    cases body with
    | union members => exact h members hm
    | scalar | object _ _ | interface _ | enum | inputObject _ => rfl

def DefinesOnce (d : SchemaDocument) : Prop :=
  ∀ name, (d.definitions.filterMap (·.body? name)).length ≤ 1

variable {more : SchemaDocument}

private theorem eq_of_perm_of_length_le_one {α : Type} {l other : List α} (h : other.Perm l)
    (hl : l.length ≤ 1) : other = l := by
  rcases l with _ | ⟨x, _ | ⟨y, rest⟩⟩
  · exact List.perm_nil.mp h
  · exact List.perm_singleton.mp h
  · simp at hl

private theorem definedTypes_eq_of_perm (hperm : more.definitions.Perm d.definitions)
    (honce : d.DefinesOnce) : more.definedTypes = d.definedTypes := by
  refine Std.ExtTreeMap.ext_getElem? fun name => ?_
  have hbodies : more.definitions.filterMap (·.body? name) =
      d.definitions.filterMap (·.body? name) :=
    eq_of_perm_of_length_le_one (hperm.filterMap _) (honce name)
  rw [getElem?_definedTypes, getElem?_definedTypes, body?, body?, hbodies]

private theorem exists_object_of_perm (hperm : more.definitions.Perm d.definitions)
    (honce : d.DefinesOnce) (interface : String) {object : TypeDef}
    (hobject : more.extendedTypes[name]? = some object) :
    ∃ other, d.extendedTypes[name]? = some other ∧ other.kind = object.kind ∧
      other.interfaces.count interface = object.interfaces.count interface := by
  rw [getElem?_extendedTypes, definedTypes_eq_of_perm hperm honce] at hobject
  obtain ⟨defined, hdefined, rfl⟩ := Option.map_eq_some_iff.mp hobject
  refine ⟨_, by rw [getElem?_extendedTypes, hdefined, Option.map_some], by simp, ?_⟩
  have hadditions : (more.additions name).Perm (d.additions name) := hperm.filterMap _
  rw [TypeDef.interfaces_foldl_extend, TypeDef.interfaces_foldl_extend, List.count_append,
    List.count_append, (hadditions.flatMap_right TypeBody.interfaces).count_eq]

private theorem mem_implementers_of_perm (hperm : more.definitions.Perm d.definitions)
    (honce : d.DefinesOnce) (h : name ∈ implementers more.extendedTypes interface) :
    name ∈ implementers d.extendedTypes interface := by
  obtain ⟨object, hobject, hkind, hlists⟩ := mem_implementers.mp h
  obtain ⟨other, hother, hkind', hcount⟩ := exists_object_of_perm hperm honce interface hobject
  refine mem_implementers.mpr ⟨other, hother, hkind'.trans hkind, ?_⟩
  rw [← List.count_pos_iff, hcount]
  exact List.count_pos_iff.mpr hlists

private theorem DefinesOnce.of_perm (honce : d.DefinesOnce)
    (hperm : more.definitions.Perm d.definitions) : more.DefinesOnce := by
  intro name
  rw [(hperm.filterMap (·.body? name)).length_eq]
  exact honce name

private theorem implementers_eq_of_perm (hperm : more.definitions.Perm d.definitions)
    (honce : d.DefinesOnce)
    (hascends : (implementers d.extendedTypes interface).Pairwise (· < ·)) :
    implementers more.extendedTypes interface = implementers d.extendedTypes interface := by
  have hmore : (implementers more.extendedTypes interface).Pairwise (· < ·) := by
    rw [pairwise_implementers_iff] at hascends ⊢
    intro name object hobject hkind
    obtain ⟨other, hother, hkind', hcount⟩ := exists_object_of_perm hperm honce interface hobject
    exact hcount ▸ hascends name other hother (hkind'.trans hkind)
  refine hmore.eq_of_mem_iff hascends fun name => ⟨?_, ?_⟩
  · exact mem_implementers_of_perm hperm honce
  · exact mem_implementers_of_perm hperm.symm (honce.of_perm hperm)

private theorem exists_linked_of_perm (hperm : more.definitions.Perm d.definitions)
    (honce : d.DefinesOnce) (h : d.linkedTypes[interface]? = some type)
    (hkind : type.kind = .interface) :
    ∃ other, more.linkedTypes[interface]? = some other ∧ other.kind = .interface := by
  rw [getElem?_linkedTypes] at h
  obtain ⟨extended, hextended, rfl⟩ := Option.map_eq_some_iff.mp h
  obtain ⟨other, hother, hsame, -⟩ :=
    exists_object_of_perm hperm.symm (honce.of_perm hperm) interface hextended
  have hinterface : other.kind = .interface := by
    rw [hsame]
    split at hkind <;> assumption
  have hlinked := getElem?_linkedTypes more interface
  rw [hother, Option.map_some, if_pos hinterface] at hlinked
  exact ⟨_, hlinked, hinterface⟩

end SchemaDocument

namespace Schema

variable {s : Schema} {interface : String} {type : TypeDef}

/-- The possible types of the interface are the object types that list it, each once, by ascending
name. -/
def KnowsImplementers (s : Schema) (interface : String) (type : TypeDef) : Prop :=
  type.possible.Pairwise (· < ·) ∧ ∀ name, name ∈ type.possible ↔ s.Implements name interface

private theorem implements_iff {d : SchemaDocument} (h : d.toSchema = .ok s) {name : String} :
    s.Implements name interface ↔
      name ∈ SchemaDocument.implementers d.extendedTypes interface := by
  rw [SchemaDocument.mem_implementers, Implements]
  refine exists_congr fun object => ?_
  rw [← and_assoc, ← and_assoc, type?, SchemaDocument.types_of_toSchema h,
    SchemaDocument.object_linkedTypes_iff]

/-- The possible types of an interface are exactly the object types that list it, each once and by
ascending name, just if no union extension adds members to the interface and no object type lists
the interface twice. They are then the same however the definitions are ordered, if none of them
defines a name again. -/
theorem knowsImplementers_iff {sdl : String} (h : Schema.parse sdl = .ok s) :
    ∃ d, SchemaDocument.parse sdl = .ok d ∧
      ∀ interface type, s.type? interface = some type → type.kind = .interface →
        (s.KnowsImplementers interface type ↔
          (∀ members, .extension interface (.union members) ∈ d.definitions → members = []) ∧
          ∀ name object, s.type? name = some object → object.kind = .object →
            object.interfaces.count interface ≤ 1) ∧
        (s.KnowsImplementers interface type → d.DefinesOnce →
          ∀ (more : SchemaDocument) (s' : Schema), more.definitions.Perm d.definitions →
            more.toSchema = .ok s' →
            ∃ other, s'.type? interface = some other ∧ other.possible = type.possible) := by
  obtain ⟨d, hparse, hschema⟩ := Schema.parse_eq_ok.mp h
  refine ⟨d, hparse, fun interface type htype hkind => ?_⟩
  rw [type?, SchemaDocument.types_of_toSchema hschema] at htype
  have hpossible := SchemaDocument.possible_of_linkedTypes htype hkind
  have hobjects : (∀ (name : String) (object : TypeDef), s.type? name = some object →
      object.kind = .object → object.interfaces.count interface ≤ 1) ↔
        (SchemaDocument.implementers d.extendedTypes interface).Pairwise (· < ·) := by
    rw [SchemaDocument.pairwise_implementers_iff]
    refine forall₂_congr fun name object => ?_
    rw [← and_imp, ← and_imp, type?, SchemaDocument.types_of_toSchema hschema,
      SchemaDocument.object_linkedTypes_iff]
  have hiff : s.KnowsImplementers interface type ↔
      (d.additions interface).flatMap TypeBody.members = [] ∧
        (SchemaDocument.implementers d.extendedTypes interface).Pairwise (· < ·) := by
    unfold KnowsImplementers
    rw [hpossible]
    constructor
    · rintro ⟨hascends, hexact⟩
      obtain ⟨-, himplementers, happart⟩ := List.pairwise_append.mp hascends
      refine ⟨List.eq_nil_iff_forall_not_mem.mpr fun name hname => ?_, himplementers⟩
      -- a member that a union extension adds would stand in front of itself
      have hlisted := (implements_iff hschema).mp ((hexact name).mp (List.mem_append_left _ hname))
      exact absurd (happart name hname name hlisted) (String.lt_irrefl name)
    · rintro ⟨hnone, hascends⟩
      rw [hnone, List.nil_append]
      exact ⟨hascends, fun name => (implements_iff hschema).symm⟩
  refine ⟨?exact, ?order⟩
  case exact =>
    rw [hiff, SchemaDocument.flatMap_members_eq_nil_iff, hobjects]
  case order =>
    intro hknows honce more s' hperm hmore
    obtain ⟨hnone, hascends⟩ := hiff.mp hknows
    obtain ⟨other, hother, hkind'⟩ :=
      SchemaDocument.exists_linked_of_perm hperm honce htype hkind
    have hadditions : (more.additions interface).Perm (d.additions interface) :=
      hperm.filterMap _
    have hnone' : (more.additions interface).flatMap TypeBody.members = [] :=
      List.perm_nil.mp (hnone ▸ hadditions.flatMap_right TypeBody.members)
    refine ⟨other, by rw [type?, SchemaDocument.types_of_toSchema hmore, hother], ?_⟩
    rw [SchemaDocument.possible_of_linkedTypes hother hkind', hpossible, hnone, hnone',
      SchemaDocument.implementers_eq_of_perm hperm honce hascends]

section Witness

/-- The interface is listed in an extension before it is defined. -/
private def nodeText : String :=
  "extend type User implements Node type Query { node: Node } type User { id: ID } " ++
    "interface Node { id: ID } type Post implements Node { id: ID }"

/-- An object type lists its interface twice, and a union extension adds another to it. -/
private def strayText : String :=
  "type Query implements Node & Node { id: ID } interface Node { id: ID } " ++
    "type Stray { id: ID } extend union Node = Stray"

private def nodeDocument : SchemaDocument :=
  ⟨[.extension "User" (.object ["Node"] []), .type "Query" (.object [] [⟨"node", "Node", []⟩]),
    .type "User" (.object [] [⟨"id", "ID", []⟩]), .type "Node" (.interface [⟨"id", "ID", []⟩]),
    .type "Post" (.object ["Node"] [⟨"id", "ID", []⟩])]⟩

private theorem parse_nodeText : SchemaDocument.parse nodeText = .ok nodeDocument := by
  cbv

private theorem parse_strayText : SchemaDocument.parse strayText =
    .ok ⟨[.type "Query" (.object ["Node", "Node"] [⟨"id", "ID", []⟩]),
      .type "Node" (.interface [⟨"id", "ID", []⟩]), .type "Stray" (.object [] [⟨"id", "ID", []⟩]),
      .extension "Node" (.union ["Stray"])]⟩ := by
  cbv

private def nodeType (possible : List String) : TypeDef :=
  ⟨"Node", .interface, [⟨"id", "ID", []⟩], [], [], possible⟩

private theorem toList_nodeTypes : nodeDocument.linkedTypes.toList =
    [("Boolean", .empty "Boolean" .scalar), ("Float", .empty "Float" .scalar),
      ("ID", .empty "ID" .scalar), ("Int", .empty "Int" .scalar),
      ("Node", nodeType ["Post", "User"]),
      ("Post", ⟨"Post", .object, [⟨"id", "ID", []⟩], [], ["Node"], []⟩),
      ("Query", ⟨"Query", .object, [⟨"node", "Node", []⟩], [], [], []⟩),
      ("String", .empty "String" .scalar),
      ("User", ⟨"User", .object, [⟨"id", "ID", []⟩], [], ["Node"], []⟩)] := by
  rfl

theorem knowsImplementers_of_node :
    ∃ s, Schema.parse nodeText = .ok s ∧ s.type? "Node" = some (nodeType ["Post", "User"]) ∧
      s.KnowsImplementers "Node" (nodeType ["Post", "User"]) := by
  have hschema : nodeDocument.toSchema = .ok ⟨nodeDocument.linkedTypes, "Query", none, none⟩ := by
    rfl
  have h := Schema.parse_eq_ok.mpr ⟨_, parse_nodeText, hschema⟩
  obtain ⟨d, hparse, hknows⟩ := knowsImplementers_iff h
  obtain rfl : nodeDocument = d := Except.ok.inj (parse_nodeText.symm.trans hparse)
  have htype : Schema.type? ⟨nodeDocument.linkedTypes, "Query", none, none⟩ "Node" =
      some (nodeType ["Post", "User"]) := by rfl
  refine ⟨_, h, htype, (hknows "Node" _ htype rfl).1.mpr ⟨?_, ?_⟩⟩
  · intro members hm
    simp [nodeDocument] at hm
  · intro name object hobject hkind
    have honce : ∀ entry ∈ nodeDocument.linkedTypes.toList,
        entry.2.interfaces.count "Node" ≤ 1 := by
      rw [toList_nodeTypes]
      decide
    exact honce _ (Std.ExtTreeMap.mem_toList_iff_getElem?_eq_some.mpr hobject)

/-- An object type that lists the interface twice is twice among its possible types, after one that
does not list it at all. -/
theorem exists_not_knowsImplementers :
    ∃ s, Schema.parse strayText = .ok s ∧
      s.type? "Node" = some (nodeType ["Stray", "Query", "Query"]) ∧
      ¬ s.KnowsImplementers "Node" (nodeType ["Stray", "Query", "Query"]) := by
  refine ⟨_, Schema.parse_eq_ok.mpr ⟨_, parse_strayText, by rfl⟩, by rfl, fun hknows => ?_⟩
  exact absurd hknows.1 (by decide)

end Witness

end Schema

end FieldAuthorization
