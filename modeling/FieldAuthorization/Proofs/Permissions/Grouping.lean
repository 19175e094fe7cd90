import Mathlib.Algebra.GroupWithZero.Nat
import FieldAuthorization.Proofs.Permissions.Semilattice

/-!
Permissions kept type by type.

A table holds the permitted fields of each type together. It answers as the set of its rules does,
but two tables that answer alike could still differ, by a type that stands in one of them without
any field. No operation leaves such a type behind, so tables that are built by operations are equal
just if the sets are that the same operations build.
-/

set_option autoImplicit false
set_option relaxedAutoImplicit false

namespace FieldAuthorization

/-- Permissions with the fields of each type together. -/
structure PermissionTable where
  fields : Std.ExtTreeMap String (Std.ExtTreeSet String)
  types : Std.ExtTreeSet String
deriving DecidableEq

namespace PermissionTable

def empty : PermissionTable :=
  ⟨∅, ∅⟩

def fieldsOf (t : PermissionTable) (parent : String) : Std.ExtTreeSet String :=
  t.fields[parent]?.getD ∅

def permits (t : PermissionTable) (parent field : String) : Bool :=
  (t.fieldsOf parent).contains field

def shows (t : PermissionTable) (type : String) : Bool :=
  t.types.contains type

/-- Adds to the fields of a type, which gets a place in the table if it has none. -/
def extend (t : PermissionTable) (parent : String) (more : Std.ExtTreeSet String) :
    PermissionTable :=
  { t with fields := t.fields.insert parent (t.fieldsOf parent ∪ more) }

/-- Permits a field, and tells whether it was not permitted before. -/
def permit (t : PermissionTable) (parent field : String) : Bool × PermissionTable :=
  (!t.permits parent field, t.extend parent {field})

/-- Shows a type, and tells whether it was not shown before. -/
def markVisible (t : PermissionTable) (type : String) : Bool × PermissionTable :=
  (!t.shows type, { t with types := t.types.insert type })

/-- Adds the fields of every type of another table, and the types that it shows. -/
def merge (t u : PermissionTable) : PermissionTable :=
  let extended := u.fields.toList.foldl (fun t group => t.extend group.1 group.2) t
  { extended with types := t.types ∪ u.types }

def ruleList (t : PermissionTable) : List FieldRule :=
  t.fields.toList.flatMap fun group => group.2.toList.map (FieldRule.mk group.1)

def ruleCount (t : PermissionTable) : Nat :=
  (t.fields.toList.map fun group => group.2.size).sum

def isEmpty (t : PermissionTable) : Bool :=
  t.ruleCount == 0

def toSet (t : PermissionTable) : PermissionSet :=
  ⟨.ofList t.ruleList, t.types⟩

variable {t u : PermissionTable} {parent field type : String}

private theorem fieldsOf_extend (t : PermissionTable) (parent other : String)
    (more : Std.ExtTreeSet String) :
    (t.extend parent more).fieldsOf other =
      if parent = other then t.fieldsOf parent ∪ more else t.fieldsOf other := by
  simp only [fieldsOf, extend, Std.ExtTreeMap.getElem?_insert, Std.LawfulEqCmp.compare_eq_iff_eq]
  split <;> rfl

private theorem contains_singleton (field other : String) :
    ({field} : Std.ExtTreeSet String).contains other = (field == other) := by
  rw [Std.ExtTreeSet.singleton_eq_insert, Std.ExtTreeSet.contains_insert,
    Std.ExtTreeSet.contains_empty, Bool.or_false, Bool.eq_iff_iff, beq_iff_eq, beq_iff_eq,
    Std.LawfulEqCmp.compare_eq_iff_eq]

private theorem permits_extend (t : PermissionTable) (parent other field : String)
    (more : Std.ExtTreeSet String) :
    (t.extend parent more).permits other field =
      (t.permits other field || (parent == other && more.contains field)) := by
  simp only [permits, fieldsOf_extend]
  split
  · rename_i hparent
    simp [hparent, Std.ExtTreeSet.contains_union]
  · rename_i hparent
    simp [hparent]

private theorem permits_foldl_extend (t : PermissionTable)
    (groups : List (String × Std.ExtTreeSet String)) (parent field : String) :
    (groups.foldl (fun t group => t.extend group.1 group.2) t).permits parent field =
      (t.permits parent field ||
        groups.any fun group => group.1 == parent && group.2.contains field) := by
  induction groups generalizing t with
  | nil => simp
  | cons group rest ih => rw [List.foldl_cons, ih, permits_extend, List.any_cons, Bool.or_assoc]

private theorem permits_iff : t.permits parent field = true ↔
    ∃ held, (parent, held) ∈ t.fields.toList ∧ held.contains field = true := by
  simp only [permits, fieldsOf, Std.ExtTreeMap.mem_toList_iff_getElem?_eq_some]
  cases t.fields[parent]? <;> simp

private theorem any_fields (t : PermissionTable) (parent field : String) :
    (t.fields.toList.any fun group => group.1 == parent && group.2.contains field) =
      t.permits parent field := by
  rw [Bool.eq_iff_iff, permits_iff, List.any_eq_true]
  simp only [Prod.exists, Bool.and_eq_true, beq_iff_eq]
  constructor
  · rintro ⟨other, held, hgroup, rfl, hfield⟩
    exact ⟨held, hgroup, hfield⟩
  · rintro ⟨held, hgroup, hfield⟩
    exact ⟨parent, held, hgroup, rfl, hfield⟩

private theorem permits_merge (t u : PermissionTable) (parent field : String) :
    (t.merge u).permits parent field = (t.permits parent field || u.permits parent field) := by
  rw [← any_fields u, ← permits_foldl_extend]
  rfl

private theorem shows_merge (t u : PermissionTable) (type : String) :
    (t.merge u).shows type = (t.shows type || u.shows type) :=
  Std.ExtTreeSet.contains_union

private theorem mem_ruleList {rule : FieldRule} :
    rule ∈ t.ruleList ↔ t.permits rule.parent rule.field = true := by
  rw [permits_iff]
  simp only [ruleList, List.mem_flatMap, List.mem_map, Prod.exists, Std.ExtTreeSet.mem_toList]
  constructor
  · rintro ⟨parent, held, hgroup, field, hfield, rfl⟩
    exact ⟨held, hgroup, hfield⟩
  · rintro ⟨held, hgroup, hfield⟩
    exact ⟨rule.parent, held, hgroup, rule.field, hfield, rfl⟩

private theorem permits_toSet (t : PermissionTable) (parent field : String) :
    t.toSet.permits parent field = t.permits parent field := by
  have hlisted : ⟨parent, field⟩ ∈ t.ruleList ↔ t.permits parent field = true := mem_ruleList
  rw [Bool.eq_iff_iff, ← hlisted, toSet, PermissionSet.permits, Std.ExtTreeSet.contains_iff_mem,
    Std.ExtTreeSet.mem_ofList, List.contains_iff_mem]

private theorem ruleList_ascending (t : PermissionTable) :
    t.ruleList.Pairwise fun a b => compare a b = .lt := by
  have hgroups : t.fields.toList.Pairwise fun a b => compare a.1 b.1 = .lt :=
    Std.ExtTreeMap.ordered_keys_toList
  rw [ruleList, List.pairwise_flatMap]
  constructor
  · intro group _
    refine List.pairwise_map.mpr (Std.ExtTreeSet.ordered_toList.imp fun {a b} hlt => ?_)
    exact Ordering.then_eq_lt.mpr (.inr ⟨Std.ReflCmp.compare_self, hlt⟩)
  · refine hgroups.imp fun {a b} hlt rule hrule other hother => ?_
    obtain ⟨field, -, rfl⟩ := List.mem_map.mp hrule
    obtain ⟨field', -, rfl⟩ := List.mem_map.mp hother
    exact Ordering.then_eq_lt.mpr (.inl hlt)

private theorem ruleList_eq (t : PermissionTable) : t.ruleList = t.toSet.rules.toList := by
  have hset : t.toSet.rules.toList.Pairwise fun a b => compare a b = .lt :=
    Std.ExtTreeSet.ordered_toList
  have hnodup {l : List FieldRule} (h : l.Pairwise fun a b => compare a b = .lt) : l.Nodup :=
    h.imp fun {a b} hlt heq => by simp [heq] at hlt
  refine List.Perm.eq_of_pairwise (fun a b _ _ hlt hgt => ?_) t.ruleList_ascending hset ?_
  · exact absurd hgt (Std.OrientedCmp.not_lt_of_lt hlt)
  · refine (List.perm_ext_iff_of_nodup (hnodup t.ruleList_ascending) (hnodup hset)).mpr ?_
    intro rule
    rw [mem_ruleList, ← permits_toSet, PermissionSet.mem_rules_toList]

private theorem ruleCount_toSet (t : PermissionTable) : t.toSet.ruleCount = t.ruleCount := by
  rw [PermissionSet.ruleCount, ← Std.ExtTreeSet.length_toList, ← ruleList_eq, ruleList,
    List.length_flatMap, ruleCount]
  simp only [List.length_map, Std.ExtTreeSet.length_toList]

private theorem toSet_extend (t : PermissionTable) (parent field : String) :
    (t.extend parent {field}).toSet = (t.toSet.permit parent field).2 := by
  refine PermissionSet.eq_iff.mpr ⟨fun other field' => ?_, fun type => rfl⟩
  rw [permits_toSet, permits_extend, PermissionSet.permits_permit_eq, permits_toSet,
    contains_singleton]

private theorem toSet_merge (t u : PermissionTable) :
    (t.merge u).toSet = t.toSet.merge u.toSet := by
  refine PermissionSet.eq_iff.mpr ⟨fun parent field => ?_, fun type => ?_⟩
  · simp only [permits_toSet, permits_merge, PermissionSet.permits_merge]
  · exact (shows_merge t u type).trans (PermissionSet.shows_merge t.toSet u.toSet type).symm

/-- Every type of the table has a field. -/
def Filled (t : PermissionTable) : Prop :=
  ∀ (parent : String) (held : Std.ExtTreeSet String), t.fields[parent]? = some held → held ≠ ∅

/-- A type without fields makes a difference to a table, and none to what is permitted. -/
example : (⟨.ofList [("User", ∅)], ∅⟩ : PermissionTable).toSet = empty.toSet ∧
    (⟨.ofList [("User", ∅)], ∅⟩ : PermissionTable) ≠ empty := by
  decide

private theorem Filled.getElem?_fields (h : t.Filled) (parent : String) :
    t.fields[parent]? = if t.fieldsOf parent = ∅ then none else some (t.fieldsOf parent) := by
  rw [fieldsOf]
  cases hheld : t.fields[parent]? with
  | none => rfl
  | some held => rw [Option.getD_some, if_neg (h parent held hheld)]

private theorem Filled.eq_of_toSet_eq (ht : t.Filled) (hu : u.Filled) (h : t.toSet = u.toSet) :
    t = u := by
  have hfields (parent : String) : t.fieldsOf parent = u.fieldsOf parent := by
    refine Std.ExtTreeSet.ext_contains fun field => ?_
    have hpermits : t.toSet.permits parent field = u.toSet.permits parent field := by rw [h]
    rwa [permits_toSet, permits_toSet] at hpermits
  have hgroups : t.fields = u.fields := by
    refine Std.ExtTreeMap.ext_getElem? fun parent => ?_
    rw [ht.getElem?_fields, hu.getElem?_fields, hfields]
  have htypes : t.types = u.types := congrArg PermissionSet.types h
  cases t
  cases u
  exact congr (congrArg PermissionTable.mk hgroups) htypes

private theorem filled_empty : empty.Filled := by
  intro parent held h
  simp [empty] at h

private theorem exists_mem_of_ne_empty {held : Std.ExtTreeSet String} (h : held ≠ ∅) :
    ∃ field, field ∈ held :=
  Classical.byContradiction fun hnone =>
    h (Std.ExtTreeSet.eq_empty_iff_forall_not_mem.mpr fun field hfield => hnone ⟨field, hfield⟩)

private theorem Filled.extend (h : t.Filled) (parent : String) {more : Std.ExtTreeSet String}
    (hmore : more ≠ ∅) : (t.extend parent more).Filled := by
  intro other held hheld
  simp only [PermissionTable.extend, Std.ExtTreeMap.getElem?_insert] at hheld
  split at hheld
  · obtain ⟨field, hfield⟩ := exists_mem_of_ne_empty hmore
    rw [Option.some.injEq] at hheld
    rw [← hheld]
    exact Std.ExtTreeSet.ne_empty_of_mem (Std.ExtTreeSet.mem_union_of_right hfield)
  · exact h other held hheld

private theorem Filled.foldl_extend {groups : List (String × Std.ExtTreeSet String)}
    (hgroups : ∀ group ∈ groups, group.2 ≠ ∅) (h : t.Filled) :
    (groups.foldl (fun t group => t.extend group.1 group.2) t).Filled := by
  induction groups generalizing t with
  | nil => exact h
  | cons group rest ih =>
    exact ih (fun other hother => hgroups other (List.mem_cons_of_mem _ hother))
      (h.extend group.1 (hgroups group List.mem_cons_self))

private theorem Filled.merge (ht : t.Filled) (hu : u.Filled) : (t.merge u).Filled :=
  Filled.foldl_extend (t := t) (fun group hgroup =>
    hu group.1 group.2 (Std.ExtTreeMap.mem_toList_iff_getElem?_eq_some.mp hgroup)) ht

/-- The table answers every question, and tells of every change, as the set does. -/
structure AnswersAs (t : PermissionTable) (p : PermissionSet) : Prop where
  permits : ∀ parent field, t.permits parent field = p.permits parent field
  shows : ∀ type, t.shows type = p.shows type
  permit : ∀ parent field, (t.permit parent field).1 = (p.permit parent field).1
  markVisible : ∀ type, (t.markVisible type).1 = (p.markVisible type).1
  rules : t.ruleList = p.rules.toList
  ruleCount : t.ruleCount = p.ruleCount
  isEmpty : t.isEmpty = p.isEmpty

private theorem answersAs_toSet (t : PermissionTable) : t.AnswersAs t.toSet where
  permits parent field := (permits_toSet t parent field).symm
  shows _ := rfl
  permit parent field := congrArg Bool.not (permits_toSet t parent field).symm
  markVisible _ := rfl
  rules := t.ruleList_eq
  ruleCount := (ruleCount_toSet t).symm
  isEmpty := by
    rw [PermissionTable.isEmpty, ← ruleCount_toSet, PermissionSet.isEmpty,
      Std.ExtTreeSet.isEmpty_eq_size_beq_zero, PermissionSet.ruleCount]

end PermissionTable

inductive Building
  | empty
  | permit (built : Building) (parent field : String)
  | markVisible (built : Building) (type : String)
  | merge (built other : Building)

namespace Building

def set : Building → PermissionSet
  | empty => .empty
  | permit built parent field => (built.set.permit parent field).2
  | markVisible built type => (built.set.markVisible type).2
  | merge built other => built.set.merge other.set

def table : Building → PermissionTable
  | empty => .empty
  | permit built parent field => (built.table.permit parent field).2
  | markVisible built type => (built.table.markVisible type).2
  | merge built other => built.table.merge other.table

private theorem filled_table (b : Building) : b.table.Filled := by
  induction b with
  | empty => exact PermissionTable.filled_empty
  | permit built parent field ih =>
    exact ih.extend parent (Std.ExtTreeSet.insert_ne_empty)
  | markVisible built type ih => exact ih
  | merge built other ih ih' => exact ih.merge ih'

private theorem toSet_table (b : Building) : b.table.toSet = b.set := by
  induction b with
  | empty => rfl
  | permit built parent field ih =>
    rw [set, ← ih]
    exact PermissionTable.toSet_extend built.table parent field
  | markVisible built type ih =>
    rw [set, ← ih]
    rfl
  | merge built other ih ih' => rw [table, set, PermissionTable.toSet_merge, ih, ih']

private theorem table_eq_iff (a b : Building) : a.table = b.table ↔ a.set = b.set := by
  rw [← toSet_table, ← toSet_table]
  exact ⟨congrArg _, a.filled_table.eq_of_toSet_eq b.filled_table⟩

/-- Permissions that are built from none are a semilattice under merging, with faithful observers,
whether they are kept rule by rule or type by type: equal sets are those that permit and show the
same, an operation tells whether it changes the set, the rules are listed once each in ascending
order, and a verifier denies everything just if nothing is permitted. -/
theorem built_semilattice (a b c : Building) :
    (a.table.AnswersAs a.set ∧ (a.table = b.table ↔ a.set = b.set)) ∧
    (a.set = b.set ↔
      (∀ parent field, a.set.permits parent field = b.set.permits parent field) ∧
        ∀ type, a.set.shows type = b.set.shows type) ∧
    (a.set.merge b.set = b.set.merge a.set ∧
      (a.set.merge b.set).merge c.set = a.set.merge (b.set.merge c.set) ∧
      a.set.merge a.set = a.set) ∧
    ((∀ parent field, (a.set.merge b.set).permits parent field =
        (a.set.permits parent field || b.set.permits parent field)) ∧
      ∀ type, (a.set.merge b.set).shows type = (a.set.shows type || b.set.shows type)) ∧
    ((∀ parent field,
        (a.set.permit parent field).1 = true ↔ (a.set.permit parent field).2 ≠ a.set) ∧
      ∀ type, (a.set.markVisible type).1 = true ↔ (a.set.markVisible type).2 ≠ a.set) ∧
    (a.set.rules.toList.Pairwise (fun rule other =>
        rule.parent < other.parent ∨ rule.parent = other.parent ∧ rule.field < other.field) ∧
      (∀ parent field,
        ⟨parent, field⟩ ∈ a.set.rules.toList ↔ a.set.permits parent field = true) ∧
      a.set.rules.toList.length = a.set.ruleCount) ∧
    (a.set.isEmpty = true ↔ ∀ parent field, a.set.permits parent field = false) ∧
    ∀ clients, (Verifier.mk clients a.set).isDenyAll = true ↔
      ∀ parent field, (Verifier.mk clients a.set).allows parent field = false := by
  refine ⟨⟨?answers, a.table_eq_iff b⟩, PermissionSet.eq_iff, ?laws, ?joins, ?changes, ?rules,
    a.set.isEmpty_iff, fun _ => a.set.isEmpty_iff⟩
  case answers => exact a.toSet_table ▸ a.table.answersAs_toSet
  case laws =>
    exact ⟨PermissionSet.merge_comm _ _, PermissionSet.merge_assoc _ _ _,
      PermissionSet.merge_self _⟩
  case joins => exact ⟨PermissionSet.permits_merge _ _, PermissionSet.shows_merge _ _⟩
  case changes => exact ⟨a.set.permit_fst, a.set.markVisible_fst⟩
  case rules => exact ⟨a.set.rules_ascending, a.set.mem_rules_toList, Std.ExtTreeSet.length_toList⟩

end Building

end FieldAuthorization
