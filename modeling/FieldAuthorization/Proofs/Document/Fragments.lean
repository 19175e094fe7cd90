import FieldAuthorization.Proofs.Document.Occurrence

/-!
Fragments by name.

A run over fragments ends because it comes to no name twice: each name that it sees for the first
time leaves it fewer fragments that it has not seen.
-/

set_option autoImplicit false
set_option relaxedAutoImplicit false

namespace FieldAuthorization

theorem countP_lt {α : Type} {stronger weaker : α → Bool} {l : List α} {x : α} (hx : x ∈ l)
    (h : ∀ y ∈ l, stronger y = true → weaker y = true) (hstronger : stronger x = false)
    (hweaker : weaker x = true) : l.countP stronger < l.countP weaker := by
  obtain ⟨before, after, rfl⟩ := List.append_of_mem hx
  have hbefore := List.countP_mono_left fun y hy => h y (List.mem_append_left _ hy)
  have hafter := List.countP_mono_left fun y hy =>
    h y (List.mem_append_right _ (List.mem_cons_of_mem x hy))
  simp only [List.countP_append, List.countP_cons, hstronger, hweaker, Bool.false_eq_true, if_true,
    if_false]
  omega

/-- The number of fragments whose names have not been seen. -/
def unseen (seen : String → Bool) (fragments : List Fragment) : Nat :=
  fragments.countP (fun f => !seen f.name)

variable {seen more : String → Bool} {fragments : List Fragment}

theorem unseen_le_length (seen : String → Bool) (fragments : List Fragment) :
    unseen seen fragments ≤ fragments.length :=
  List.countP_le_length

theorem unseen_lt {f : Fragment} (h : ∀ name, seen name = true → more name = true)
    (hf : f ∈ fragments) (hseen : seen f.name = false) (hmore : more f.name = true) :
    unseen more fragments < unseen seen fragments := by
  refine countP_lt hf (fun g _ hg => ?_) (by simp [hmore]) (by simp [hseen])
  cases hg' : seen g.name with
  | false => rfl
  | true => simp [h g.name hg'] at hg

theorem seen_of_unseen_eq_zero (h : unseen seen fragments = 0) {f : Fragment}
    (hf : f ∈ fragments) : seen f.name = true := by
  simpa using List.countP_eq_zero.mp h f hf

namespace Document

variable {d : Document}

theorem fragment?_eq_some {f : Fragment} (hdistinct : (d.fragments.map Fragment.name).Nodup)
    (hf : f ∈ d.fragments) : d.fragment? f.name = some f := by
  unfold fragment?
  obtain ⟨before, after, hsplit⟩ := List.append_of_mem hf
  rw [hsplit, List.map_append, List.map_cons, List.nodup_append] at hdistinct
  have hafter : f.name ∉ after.map Fragment.name := (List.nodup_cons.mp hdistinct.2.1).1
  have hnone : after.reverse.find? (fun g => g.name == f.name) = none := by
    rw [List.find?_eq_none]
    intro g hg heq
    have hname : g.name = f.name := by simpa using heq
    exact hafter (hname ▸ List.mem_map_of_mem (List.mem_reverse.mp hg))
  rw [hsplit, List.reverse_append, List.reverse_cons, List.append_assoc, List.find?_append, hnone]
  simp

theorem unseen_cons_lt {names : List String} {name : String} {f : Fragment}
    (hf : d.fragment? name = some f) (hname : name ∉ names) :
    unseen (name :: names).contains d.fragments < unseen names.contains d.fragments := by
  obtain ⟨hmem, rfl⟩ := mem_of_fragment?_eq_some hf
  exact unseen_lt (by simp_all) hmem (by simpa using hname) (by simp)

end Document

end FieldAuthorization
