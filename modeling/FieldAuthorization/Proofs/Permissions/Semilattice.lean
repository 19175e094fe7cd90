import FieldAuthorization.Proofs.Permissions.Order

/-!
Permission sets as a semilattice.

What a set permits and shows is all that there is to it. To merge sets is to join what they permit
and show, in whatever order and however often; and an operation tells just whether it has added
anything.
-/

set_option autoImplicit false
set_option relaxedAutoImplicit false

namespace FieldAuthorization

namespace PermissionSet

variable {p q : PermissionSet}

/-- Sets are equal just if they permit and show the same. -/
theorem eq_iff : p = q ↔ (∀ parent field, p.permits parent field = q.permits parent field) ∧
    ∀ type, p.shows type = q.shows type := by
  constructor
  · rintro rfl
    exact ⟨fun _ _ => rfl, fun _ => rfl⟩
  · rintro ⟨hpermits, hshows⟩
    have hrules : p.rules = q.rules :=
      Std.ExtTreeSet.ext_contains fun rule => hpermits rule.parent rule.field
    have htypes : p.types = q.types := Std.ExtTreeSet.ext_contains hshows
    cases p
    cases q
    exact congr (congrArg PermissionSet.mk hrules) htypes

theorem merge_comm (p q : PermissionSet) : p.merge q = q.merge p := by
  refine eq_iff.mpr ⟨fun parent field => ?_, fun type => ?_⟩
  · rw [permits_merge, permits_merge, Bool.or_comm]
  · rw [shows_merge, shows_merge, Bool.or_comm]

theorem merge_assoc (p q r : PermissionSet) : (p.merge q).merge r = p.merge (q.merge r) := by
  refine eq_iff.mpr ⟨fun parent field => ?_, fun type => ?_⟩
  · simp only [permits_merge, Bool.or_assoc]
  · simp only [shows_merge, Bool.or_assoc]

theorem merge_self (p : PermissionSet) : p.merge p = p := by
  refine eq_iff.mpr ⟨fun parent field => ?_, fun type => ?_⟩
  · rw [permits_merge, Bool.or_self]
  · rw [shows_merge, Bool.or_self]

theorem permits_permit_eq (p : PermissionSet) (parent field other field' : String) :
    (p.permit parent field).2.permits other field' =
      (p.permits other field' || (parent == other && field == field')) := by
  rw [Bool.eq_iff_iff]
  simp only [permit, permits, Std.ExtTreeSet.contains_iff_mem, Std.ExtTreeSet.mem_insert,
    Std.LawfulEqCmp.compare_eq_iff_eq, FieldRule.mk.injEq, Bool.or_eq_true, Bool.and_eq_true,
    beq_iff_eq]
  exact or_comm

theorem permit_fst (p : PermissionSet) (parent field : String) :
    (p.permit parent field).1 = true ↔ (p.permit parent field).2 ≠ p := by
  rw [permit, Bool.not_eq_true', ← Bool.not_eq_true, not_iff_not]
  constructor
  · intro h
    refine eq_iff.mpr ⟨fun other field' => ?_, fun type => rfl⟩
    have hpermits := permits_permit_eq p parent field other field'
    rw [permit] at hpermits
    rw [hpermits, Bool.or_eq_left_iff_imp, Bool.and_eq_true, beq_iff_eq, beq_iff_eq]
    rintro ⟨rfl, rfl⟩
    exact h
  · intro h
    rw [← h]
    exact permits_permit p parent field

theorem markVisible_fst (p : PermissionSet) (type : String) :
    (p.markVisible type).1 = true ↔ (p.markVisible type).2 ≠ p := by
  have hshown := shows_markVisible p type
  rw [markVisible, Bool.not_eq_true', ← Bool.not_eq_true, not_iff_not]
  rw [markVisible] at hshown
  constructor
  · intro h
    refine eq_iff.mpr ⟨fun parent field => rfl, fun other => ?_⟩
    rw [Bool.eq_iff_iff, hshown, or_iff_right_iff_imp]
    rintro rfl
    exact h
  · intro h
    rw [← h]
    exact (hshown type).mpr (.inl rfl)

theorem rules_ascending (p : PermissionSet) : p.rules.toList.Pairwise fun rule other =>
    rule.parent < other.parent ∨ rule.parent = other.parent ∧ rule.field < other.field := by
  refine Std.ExtTreeSet.ordered_toList.imp fun {rule other} hlt => ?_
  rcases Ordering.then_eq_lt.mp hlt with hparent | ⟨hparent, hfield⟩
  · exact .inl (compareOfLessAndEq_eq_lt.mp hparent)
  · exact .inr ⟨Std.LawfulEqCmp.eq_of_compare hparent, compareOfLessAndEq_eq_lt.mp hfield⟩

theorem mem_rules_toList (p : PermissionSet) (parent field : String) :
    ⟨parent, field⟩ ∈ p.rules.toList ↔ p.permits parent field = true := by
  rw [Std.ExtTreeSet.mem_toList, permits, Std.ExtTreeSet.contains_iff_mem]

theorem isEmpty_iff (p : PermissionSet) :
    p.isEmpty = true ↔ ∀ parent field, p.permits parent field = false := by
  rw [isEmpty, Std.ExtTreeSet.isEmpty_iff, Std.ExtTreeSet.eq_empty_iff_forall_contains]
  exact ⟨fun h parent field => h ⟨parent, field⟩, fun h rule => h rule.parent rule.field⟩

end PermissionSet

end FieldAuthorization
