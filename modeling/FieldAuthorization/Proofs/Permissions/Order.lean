import Mathlib.Order.Basic
import FieldAuthorization.Access.Verifier
import FieldAuthorization.Permissions.Declaration

/-!
Permission sets ordered by what they permit and show.

Every step of compiling a declaration only adds to the permissions, and the verifier of several
clients permits and shows whatever each of them does.
-/

set_option autoImplicit false
set_option relaxedAutoImplicit false

namespace FieldAuthorization

namespace PermissionSet

/-- A set is below another that permits and shows at least as much. -/
instance : Preorder PermissionSet where
  le p q :=
    (∀ parent field, p.permits parent field = true → q.permits parent field = true) ∧
      ∀ type, p.shows type = true → q.shows type = true
  le_refl _ := ⟨fun _ _ h => h, fun _ h => h⟩
  le_trans _ _ _ h h' := ⟨fun parent field hp => h'.1 parent field (h.1 parent field hp),
    fun type hp => h'.2 type (h.2 type hp)⟩

/-- Sets that permit and show the same are equal. -/
instance : PartialOrder PermissionSet where
  le_antisymm p q h h' := by
    have hrules : p.rules = q.rules :=
      Std.ExtTreeSet.ext_mem fun rule => ⟨h.1 rule.parent rule.field, h'.1 rule.parent rule.field⟩
    have htypes : p.types = q.types := Std.ExtTreeSet.ext_mem fun type => ⟨h.2 type, h'.2 type⟩
    cases p
    cases q
    exact congr (congrArg PermissionSet.mk hrules) htypes

variable {p q : PermissionSet}

theorem permits_of_le (h : p ≤ q) {parent field : String} (hp : p.permits parent field = true) :
    q.permits parent field = true :=
  h.1 parent field hp

theorem shows_of_le (h : p ≤ q) {type : String} (hp : p.shows type = true) :
    q.shows type = true :=
  h.2 type hp

theorem permits_permit (p : PermissionSet) (parent field : String) :
    (p.permit parent field).2.permits parent field = true := by
  simp [permit, permits]

theorem shows_markVisible (p : PermissionSet) (type other : String) :
    (p.markVisible type).2.shows other = true ↔ other = type ∨ p.shows other = true := by
  simp only [markVisible, shows, Std.ExtTreeSet.contains_iff_mem, Std.ExtTreeSet.mem_insert,
    Std.LawfulEqCmp.compare_eq_iff_eq]
  rw [eq_comm]

private theorem le_permit (p : PermissionSet) (parent field : String) :
    p ≤ (p.permit parent field).2 := by
  refine ⟨fun parent' field' h => ?_, fun type h => h⟩
  simp only [permit, permits, Std.ExtTreeSet.contains_insert, Bool.or_eq_true] at h ⊢
  exact .inr h

theorem le_markVisible (p : PermissionSet) (type : String) : p ≤ (p.markVisible type).2 := by
  refine ⟨fun parent field h => h, fun type' h => ?_⟩
  simp only [markVisible, shows, Std.ExtTreeSet.contains_insert, Bool.or_eq_true] at h ⊢
  exact .inr h

private theorem le_foldl {α : Type} {f : PermissionSet → α → PermissionSet} (h : ∀ p x, p ≤ f p x)
    (p : PermissionSet) (l : List α) : p ≤ l.foldl f p := by
  induction l generalizing p with
  | nil => exact le_refl p
  | cons x l ih => exact (h p x).trans (ih (f p x))

theorem le_showInput (s : Schema) (depth : Nat) (type : String) (p : PermissionSet) :
    p ≤ showInput s depth type p := by
  induction depth generalizing type p with
  | zero => exact le_markVisible p type
  | succ depth ih =>
    have hmark := le_markVisible p type
    simp only [showInput]
    split
    · split
      · exact hmark.trans (le_foldl (fun q (input : InputDef) => ih input.type q) _ _)
      · exact hmark
    · exact hmark

theorem shows_showInput (s : Schema) (depth : Nat) (type : String) (p : PermissionSet) :
    (showInput s depth type p).shows type = true := by
  have hmark : (p.markVisible type).2.shows type = true :=
    (shows_markVisible p type type).mpr (.inl rfl)
  cases depth with
  | zero => exact hmark
  | succ depth =>
    simp only [showInput]
    split
    · split
      · exact shows_of_le
          (le_foldl (fun q (input : InputDef) => le_showInput s depth input.type q) _ _) hmark
      · exact hmark
    · exact hmark

theorem le_showInputs (s : Schema) (depth : Nat) (inputs : List InputDef) (p : PermissionSet) :
    p ≤ inputs.foldl (fun p input => showInput s depth input.type p) p :=
  le_foldl (fun q (input : InputDef) => le_showInput s depth input.type q) p inputs

theorem shows_showInputs (s : Schema) (depth : Nat) {inputs : List InputDef} {input : InputDef}
    (h : input ∈ inputs) (p : PermissionSet) :
    (inputs.foldl (fun p input => showInput s depth input.type p) p).shows input.type = true := by
  obtain ⟨before, after, rfl⟩ := List.append_of_mem h
  rw [List.foldl_append, List.foldl_cons]
  exact shows_of_le (le_showInputs s depth after _) (shows_showInput s depth input.type _)

theorem permits_permitField (p : PermissionSet) (s : Schema) (parent : String) (d : FieldDef) :
    (p.permitField s parent d).permits parent d.name = true := by
  refine permits_of_le ?_ (permits_permit p parent d.name)
  exact (le_markVisible _ d.type).trans (le_showInputs s _ d.arguments _)

theorem le_permitField (p : PermissionSet) (s : Schema) (parent : String) (d : FieldDef) :
    p ≤ p.permitField s parent d :=
  ((le_permit p parent d.name).trans (le_markVisible _ d.type)).trans
    (le_showInputs s _ d.arguments _)

theorem shows_permitField (p : PermissionSet) (s : Schema) (parent : String) (d : FieldDef) :
    (p.permitField s parent d).shows d.type = true :=
  shows_of_le (le_showInputs s _ d.arguments _) ((shows_markVisible _ d.type d.type).mpr (.inl rfl))

private theorem rules_foldl {α : Type} {f : PermissionSet → α → PermissionSet}
    (h : ∀ p x, (f p x).rules = p.rules) (p : PermissionSet) (l : List α) :
    (l.foldl f p).rules = p.rules := by
  induction l generalizing p with
  | nil => rfl
  | cons x l ih => exact (ih (f p x)).trans (h p x)

theorem rules_showInput (s : Schema) (depth : Nat) (type : String) (p : PermissionSet) :
    (showInput s depth type p).rules = p.rules := by
  induction depth generalizing type p with
  | zero => rfl
  | succ depth ih =>
    simp only [showInput]
    split
    · split
      · exact rules_foldl (fun q (input : InputDef) => ih input.type q) _ _
      · rfl
    · rfl

private theorem rules_permitField (p : PermissionSet) (s : Schema) (parent : String)
    (d : FieldDef) :
    (p.permitField s parent d).rules = p.rules.insert ⟨parent, d.name⟩ :=
  rules_foldl (fun q (argument : InputDef) => rules_showInput s _ argument.type q) _ _

theorem permits_merge (p q : PermissionSet) (parent field : String) :
    (p.merge q).permits parent field = (p.permits parent field || q.permits parent field) := by
  simp [merge, permits, Std.ExtTreeSet.contains_union]

theorem shows_merge (p q : PermissionSet) (type : String) :
    (p.merge q).shows type = (p.shows type || q.shows type) := by
  simp [merge, shows, Std.ExtTreeSet.contains_union]

theorem le_merge_left (p q : PermissionSet) : p ≤ p.merge q := by
  constructor <;> intros <;> simp_all [permits_merge, shows_merge]

theorem le_merge_right (p q : PermissionSet) : q ≤ p.merge q := by
  constructor <;> intros <;> simp_all [permits_merge, shows_merge]

theorem foldl_merge {α : Type} (held : α → PermissionSet) (asks : PermissionSet → Bool)
    (hmerge : ∀ p q : PermissionSet, asks (p.merge q) = (asks p || asks q)) (p : PermissionSet)
    (l : List α) :
    asks (l.foldl (fun p x => p.merge (held x)) p) = (asks p || l.any fun x => asks (held x)) := by
  induction l generalizing p with
  | nil => simp
  | cons x rest ih => rw [List.foldl_cons, ih, hmerge, List.any_cons, Bool.or_assoc]

/-- The second set permits what the first does and the rules, and nothing else. -/
def Gains (p : PermissionSet) (rules : List FieldRule) (q : PermissionSet) : Prop :=
  ∀ parent field, q.permits parent field = true ↔
    p.permits parent field = true ∨ ⟨parent, field⟩ ∈ rules

theorem Gains.refl (p : PermissionSet) : p.Gains [] p := by
  simp [Gains]

theorem Gains.trans {rules more : List FieldRule} {r : PermissionSet} (h : p.Gains rules q)
    (h' : q.Gains more r) : p.Gains (rules ++ more) r := by
  intro parent field
  rw [h', h, List.mem_append, or_assoc]

theorem gains_markVisible (p : PermissionSet) (type : String) :
    p.Gains [] (p.markVisible type).2 :=
  Gains.refl p

theorem gains_permitField (p : PermissionSet) (s : Schema) (parent : String) (d : FieldDef) :
    p.Gains [⟨parent, d.name⟩] (p.permitField s parent d) := by
  intro parent' field'
  simp only [permits, rules_permitField, Std.ExtTreeSet.contains_iff_mem, Std.ExtTreeSet.mem_insert,
    Std.LawfulEqCmp.compare_eq_iff_eq, List.mem_singleton]
  rw [or_comm, eq_comm]

end PermissionSet

end FieldAuthorization
