import Mathlib.Data.Finset.Card
import FieldAuthorization.Pattern.Regex

/-!
What a regular expression matches.

A match leads from one index of a text to another. The search for the ends of matches follows sets
of indices through the expression, and finds every index that some match leads to. A repetition
without bound is complete since each round but the last adds an index.
-/

set_option autoImplicit false
set_option relaxedAutoImplicit false

namespace FieldAuthorization

/-- A number of steps of a relation lead from one index to another. -/
inductive Rounds (step : Nat → Nat → Prop) : Nat → Nat → Nat → Prop
  | zero (i : Nat) : Rounds step 0 i i
  | succ {n i k j : Nat} : step i k → Rounds step n k j → Rounds step (n + 1) i j

namespace Rounds

variable {step : Nat → Nat → Prop} {n m i j k : Nat}

private theorem zero_iff : Rounds step 0 i j ↔ i = j := by
  constructor
  · intro h
    cases h
    rfl
  · rintro rfl
    exact .zero i

private theorem succ_iff : Rounds step (n + 1) i j ↔ ∃ k, step i k ∧ Rounds step n k j := by
  constructor
  · intro h
    cases h with
    | succ hstep hrest => exact ⟨_, hstep, hrest⟩
  · rintro ⟨k, hstep, hrest⟩
    exact .succ hstep hrest

private theorem trans (h : Rounds step n i k) (hrest : Rounds step m k j) :
    Rounds step (n + m) i j := by
  induction h with
  | zero i => simpa using hrest
  | succ hstep _ ih =>
    rw [Nat.add_right_comm]
    exact .succ hstep (ih hrest)

private theorem split (h : Rounds step (n + m) i j) :
    ∃ k, Rounds step n i k ∧ Rounds step m k j := by
  induction n generalizing i with
  | zero => exact ⟨i, .zero i, by simpa using h⟩
  | succ n ih =>
    rw [Nat.add_right_comm, succ_iff] at h
    obtain ⟨k, hstep, hrest⟩ := h
    obtain ⟨l, hfirst, hlast⟩ := ih hrest
    exact ⟨l, .succ hstep hfirst, hlast⟩

private theorem preserves (p : Nat → Prop) (hstep : ∀ i k, p i → step i k → p k)
    (h : Rounds step n i j) (hi : p i) : p j := by
  induction h with
  | zero _ => exact hi
  | succ hfirst _ ih => exact ih (hstep _ _ hi hfirst)

end Rounds

namespace Regex

/-- A match of the regex leads from one index of a text to another. -/
def Matches (t : Array Char) : Regex → Nat → Nat → Prop
  | .empty, i, j => i = j
  | .chars has, i, j => (∃ c, t[i]? = some c ∧ has c = true) ∧ j = i + 1
  | .assertion a, i, j => a.holdsAt t i = true ∧ i = j
  | .seq r s, i, j => ∃ k, Matches t r i k ∧ Matches t s k j
  | .alt r s, i, j => Matches t r i j ∨ Matches t s i j
  | .repeated r least most, i, j => ∃ more, (∀ bound, most = some bound → more ≤ bound - least) ∧
      Rounds (Matches t r) (least + more) i j

def MatchesWhole (r : Regex) (s : String) : Prop :=
  Matches s.toList.toArray r 0 s.toList.length

variable {t : Array Char} {r : Regex} {i j : Nat}

private theorem Matches.le_size (h : Matches t r i j) (hi : i ≤ t.size) : j ≤ t.size := by
  induction r generalizing i j with
  | empty =>
    obtain rfl : i = j := h
    exact hi
  | chars has =>
    obtain ⟨⟨c, hc, -⟩, rfl⟩ := h
    exact (Array.getElem?_eq_some_iff.mp hc).1
  | assertion a =>
    obtain ⟨-, rfl⟩ := h
    exact hi
  | seq r s ihr ihs =>
    obtain ⟨k, hr, hs⟩ := h
    exact ihs hs (ihr hr hi)
  | alt r s ihr ihs => exact h.elim (ihr · hi) (ihs · hi)
  | repeated r least most ih =>
    obtain ⟨more, -, hrounds⟩ := h
    exact hrounds.preserves (· ≤ t.size) (fun _ _ hi hstep => ih hstep hi) hi

section Rounds

variable {f : List Nat → List Nat} {step : Nat → Nat → Prop}

/-- The function gives the indices that one step leads to from the given ones, if these are at most
the bound. -/
def Follows (f : List Nat → List Nat) (step : Nat → Nat → Prop) (bound : Nat) : Prop :=
  ∀ places : List Nat, (∀ i ∈ places, i ≤ bound) → ∀ j, j ∈ f places ↔ ∃ i ∈ places, step i j

variable {bound n : Nat} {places : List Nat} (hf : Follows f step bound)
  (hstep : ∀ i j, i ≤ bound → step i j → j ≤ bound) (hplaces : ∀ i ∈ places, i ≤ bound)

include hf hstep hplaces

private theorem le_of_mem_follows {j : Nat} (h : j ∈ f places) : j ≤ bound := by
  obtain ⟨i, hi, hij⟩ := (hf places hplaces j).mp h
  exact hstep i j (hplaces i hi) hij

private theorem mem_times {j : Nat} : j ∈ times f n places ↔ ∃ i ∈ places, Rounds step n i j := by
  induction n generalizing places with
  | zero => simp [times, Rounds.zero_iff]
  | succ n ih =>
    rw [times]
    cases places with
    | nil => simp
    | cons i rest =>
      rw [List.isEmpty_cons, if_neg Bool.false_ne_true,
        ih fun j hj => le_of_mem_follows hf hstep hplaces hj]
      simp only [hf _ hplaces, Rounds.succ_iff]
      constructor
      · rintro ⟨k, ⟨i, hi, hik⟩, hkj⟩
        exact ⟨i, hi, k, hik, hkj⟩
      · rintro ⟨i, hi, k, hik, hkj⟩
        exact ⟨k, ⟨i, hi, hik⟩, hkj⟩

private theorem subset_within : places ⊆ within f n places := by
  induction n generalizing places with
  | zero => exact List.Subset.refl places
  | succ n ih =>
    simp only [within]
    split
    · exact List.Subset.refl places
    · refine List.Subset.trans (List.subset_append_left _ _) (ih fun i hi => ?_)
      rcases List.mem_append.mp hi with hi | hi
      · exact hplaces i hi
      · exact le_of_mem_follows hf hstep hplaces (List.mem_filter.mp hi).1

private theorem mem_within {j : Nat} :
    j ∈ within f n places ↔ ∃ m ≤ n, ∃ i ∈ places, Rounds step m i j := by
  induction n generalizing places with
  | zero => simp [within, Rounds.zero_iff]
  | succ n ih =>
    simp only [within]
    have hfresh : ∀ k, k ∈ (f places).filter (fun i => !places.contains i) ↔
        k ∉ places ∧ ∃ i ∈ places, step i k := by
      intro k
      simp [hf places hplaces k, and_comm]
    split
    · rename_i hnone
      have hclosed : ∀ i k, i ∈ places → step i k → k ∈ places := by
        intro i k hi hik
        by_contra hk
        have hmem := (hfresh k).mpr ⟨hk, i, hi, hik⟩
        rw [List.isEmpty_iff.mp hnone] at hmem
        exact List.not_mem_nil hmem
      constructor
      · intro hj
        exact ⟨0, Nat.zero_le _, j, hj, .zero j⟩
      · rintro ⟨m, -, i, hi, hrounds⟩
        exact hrounds.preserves (· ∈ places) hclosed hi
    · have hmore : ∀ i ∈ places ++ (f places).filter (fun i => !places.contains i), i ≤ bound := by
        intro i hi
        rcases List.mem_append.mp hi with hi | hi
        · exact hplaces i hi
        · exact le_of_mem_follows hf hstep hplaces (List.mem_filter.mp hi).1
      rw [ih hmore]
      constructor
      · rintro ⟨m, hm, i, hi, hrounds⟩
        rcases List.mem_append.mp hi with hi | hi
        · exact ⟨m, Nat.le_succ_of_le hm, i, hi, hrounds⟩
        · obtain ⟨-, k, hk, hki⟩ := (hfresh i).mp hi
          exact ⟨m + 1, Nat.succ_le_succ hm, k, hk, .succ hki hrounds⟩
      · rintro ⟨m, hm, i, hi, hrounds⟩
        cases hrounds with
        | zero _ => exact ⟨0, Nat.zero_le _, j, List.mem_append_left _ hi, .zero j⟩
        | @succ m _ k _ hik hkj =>
          refine ⟨m, Nat.le_of_succ_le_succ hm, k, ?_, hkj⟩
          by_cases hk : k ∈ places
          · exact List.mem_append_left _ hk
          · exact List.mem_append_right _ ((hfresh k).mpr ⟨hk, i, hi, hik⟩)

/-- With as many rounds as there are indices left to reach, nothing is left to reach. -/
private theorem within_closed (hn : bound + 1 ≤ n + places.toFinset.card) {i j : Nat}
    (hi : i ∈ within f n places) (hij : step i j) : j ∈ within f n places := by
  induction n generalizing places with
  | zero =>
    have hall : places.toFinset = Finset.range (bound + 1) := by
      refine Finset.eq_of_subset_of_card_le (fun k hk => ?_) (by simpa using hn)
      exact Finset.mem_range.mpr (Nat.lt_succ_of_le (hplaces k (List.mem_toFinset.mp hk)))
    have hj := hstep i j (hplaces i hi) hij
    exact List.mem_toFinset.mp (hall ▸ Finset.mem_range.mpr (Nat.lt_succ_of_le hj))
  | succ n ih =>
    simp only [within] at hi ⊢
    split at hi
    · rename_i hnone
      rw [if_pos hnone]
      have hmem := (hf places hplaces j).mpr ⟨i, hi, hij⟩
      by_contra hj
      have hfresh : j ∈ (f places).filter (fun i => !places.contains i) := by simp [hmem, hj]
      rw [List.isEmpty_iff.mp hnone] at hfresh
      exact List.not_mem_nil hfresh
    · rename_i hsome
      rw [if_neg hsome]
      refine ih (fun k hk => ?_) ?_ hi
      · rcases List.mem_append.mp hk with hk | hk
        · exact hplaces k hk
        · exact le_of_mem_follows hf hstep hplaces (List.mem_filter.mp hk).1
      · obtain ⟨k, hk⟩ := List.exists_mem_of_ne_nil _ (mt List.isEmpty_iff.mpr hsome)
        have hnew : k ∉ places := by simpa using (List.mem_filter.mp hk).2
        have hgrows : places.toFinset.card <
            (places ++ (f places).filter (fun i => !places.contains i)).toFinset.card := by
          refine Finset.card_lt_card (Finset.ssubset_iff_of_subset ?_ |>.mpr ⟨k, ?_, ?_⟩)
          · intro l hl
            simpa using Or.inl (List.mem_toFinset.mp hl)
          · exact List.mem_toFinset.mpr (List.mem_append_right _ hk)
          · simpa using hnew
        omega

end Rounds

private theorem follows_ends (t : Array Char) (r : Regex) :
    Follows (ends t r) (Matches t r) t.size := by
  induction r with
  | empty =>
    intro places _ j
    simp [ends, Matches]
  | chars has =>
    intro places _ j
    simp only [ends, Matches, List.mem_map, List.mem_filter, Option.any_eq_true]
    constructor
    · rintro ⟨i, ⟨hi, hc⟩, rfl⟩
      exact ⟨i, hi, hc, rfl⟩
    · rintro ⟨i, hi, hc, rfl⟩
      exact ⟨i, ⟨hi, hc⟩, rfl⟩
  | assertion a =>
    intro places _ j
    simp only [ends, Matches, List.mem_filter]
    constructor
    · rintro ⟨hj, hholds⟩
      exact ⟨j, hj, hholds, rfl⟩
    · rintro ⟨i, hi, hholds, rfl⟩
      exact ⟨hi, hholds⟩
  | seq r s ihr ihs =>
    intro places hplaces j
    have hmiddle : ∀ k ∈ ends t r places, k ≤ t.size :=
      fun k hk => le_of_mem_follows ihr (fun _ _ hi h => h.le_size hi) hplaces hk
    simp only [ends, Matches, ihs _ hmiddle j, ihr _ hplaces]
    constructor
    · rintro ⟨k, ⟨i, hi, hik⟩, hkj⟩
      exact ⟨i, hi, k, hik, hkj⟩
    · rintro ⟨i, hi, k, hik, hkj⟩
      exact ⟨k, ⟨i, hi, hik⟩, hkj⟩
  | alt r s ihr ihs =>
    intro places hplaces j
    have hor : j ∈ ends t (.alt r s) places ↔ j ∈ ends t r places ∨ j ∈ ends t s places := by
      by_cases hj : j ∈ ends t r places <;> simp [ends, hj]
    rw [hor, ihr _ hplaces, ihs _ hplaces]
    simp only [Matches, and_or_left, exists_or]
  | repeated r least most ih =>
    intro places hplaces j
    have hstep : ∀ i k, i ≤ t.size → Matches t r i k → k ≤ t.size :=
      fun _ _ hi h => h.le_size hi
    have htimes : ∀ k, k ∈ times (ends t r) least places ↔
        ∃ i ∈ places, Rounds (Matches t r) least i k :=
      fun k => mem_times ih hstep hplaces
    have hmiddle : ∀ k ∈ times (ends t r) least places, k ≤ t.size := by
      intro k hk
      obtain ⟨i, hi, hrounds⟩ := (htimes k).mp hk
      exact hrounds.preserves (· ≤ t.size) hstep (hplaces i hi)
    simp only [ends, Matches]
    cases most with
    | some most =>
      rw [mem_within ih hstep hmiddle]
      simp only [Option.some.injEq, forall_eq']
      constructor
      · rintro ⟨more, hmore, k, hk, hkj⟩
        obtain ⟨i, hi, hik⟩ := (htimes k).mp hk
        exact ⟨i, hi, more, hmore, hik.trans hkj⟩
      · rintro ⟨i, hi, more, hmore, hij⟩
        obtain ⟨k, hik, hkj⟩ := hij.split
        exact ⟨more, hmore, k, (htimes k).mpr ⟨i, hi, hik⟩, hkj⟩
    | none =>
      constructor
      · intro hj
        obtain ⟨more, -, k, hk, hkj⟩ := (mem_within ih hstep hmiddle).mp hj
        obtain ⟨i, hi, hik⟩ := (htimes k).mp hk
        exact ⟨i, hi, more, by simp, hik.trans hkj⟩
      · rintro ⟨i, hi, more, -, hij⟩
        obtain ⟨k, hik, hkj⟩ := hij.split
        have hk := (htimes k).mpr ⟨i, hi, hik⟩
        refine hkj.preserves (· ∈ within (ends t r) (t.size + 1) (times (ends t r) least places))
          (fun _ _ => within_closed ih hstep hmiddle (Nat.le_add_right _ _)) ?_
        exact subset_within ih hstep hmiddle hk

private theorem isMatch_iff {s : String} :
    r.isMatch s = true ↔ ∃ i ≤ s.toList.length, ∃ j, Matches s.toList.toArray r i j := by
  have hplaces : ∀ i ∈ List.range (s.toList.toArray.size + 1), i ≤ s.toList.toArray.size :=
    fun i hi => Nat.le_of_lt_succ (List.mem_range.mp hi)
  have hends := follows_ends s.toList.toArray r _ hplaces
  rw [isMatch, Bool.not_eq_true', List.isEmpty_eq_false_iff_exists_mem, exists_congr hends]
  simp only [List.mem_range, Nat.lt_succ_iff, List.size_toArray]
  constructor
  · rintro ⟨j, i, hi, hij⟩
    exact ⟨i, hi, j, hij⟩
  · rintro ⟨i, hi, j, hij⟩
    exact ⟨j, i, hi, hij⟩

instance (r : Regex) (s : String) : Decidable (r.MatchesWhole s) :=
  decidable_of_iff (s.toList.length ∈ ends s.toList.toArray r [0]) (by
    rw [follows_ends _ r [0] (by simp)]
    simp [MatchesWhole])

private theorem textStart_holdsAt_iff (hi : i ≤ t.size) :
    Assertion.textStart.holdsAt t i = true ↔ i = 0 := by
  cases i with
  | zero => simp [Assertion.holdsAt, Assertion.holds]
  | succ i => simp [Assertion.holdsAt, Assertion.holds, Array.getElem?_eq_getElem hi]

private theorem textEnd_holdsAt_iff (hi : i ≤ t.size) :
    Assertion.textEnd.holdsAt t i = true ↔ i = t.size := by
  simp only [Assertion.holdsAt, Assertion.holds, Option.isNone_iff_eq_none,
    Array.getElem?_eq_none_iff]
  omega

/-- Between the assertions of start and end a search finds just the matches of a whole text. -/
theorem isMatch_between_iff {s : String} :
    (Regex.seq (.assertion .textStart) (.seq r (.assertion .textEnd))).isMatch s = true ↔
      r.MatchesWhole s := by
  rw [isMatch_iff]
  simp only [Matches, MatchesWhole]
  constructor
  · rintro ⟨i, hi, j, k, ⟨hstart, rfl⟩, l, hmatch, hend, rfl⟩
    have hl := hmatch.le_size (by simpa using hi)
    rw [textStart_holdsAt_iff (by simpa using hi)] at hstart
    rw [textEnd_holdsAt_iff hl] at hend
    subst hstart hend
    simpa using hmatch
  · intro hmatch
    refine ⟨0, Nat.zero_le _, s.toList.length, 0, ⟨?_, rfl⟩, s.toList.length, hmatch, ?_, rfl⟩
    · exact (textStart_holdsAt_iff (Nat.zero_le _)).mpr rfl
    · exact (textEnd_holdsAt_iff (by simp)).mpr (by simp)

end Regex

end FieldAuthorization
