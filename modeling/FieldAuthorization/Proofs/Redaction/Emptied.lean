import FieldAuthorization.Proofs.Document.Filled
import FieldAuthorization.Proofs.Document.Fragments
import FieldAuthorization.Proofs.Redaction.Pruning

/-!
Which fragments pruning finds emptied.

Rounds go on until one adds nothing, so the names that they end with are closed: a fragment that
would be emptied without the fragments of those names is among them. They hold no name that such
reasoning does not force. So a document that has been pruned has nothing to prune.
-/

set_option autoImplicit false
set_option relaxedAutoImplicit false

namespace FieldAuthorization.Prune

variable {fragments : List Fragment} {emptied : Emptied}

theorem insert_eq_self {name : String} (h : name ∈ emptied) : emptied.insert name = emptied := by
  refine Std.ExtTreeSet.ext_mem fun other => ?_
  rw [Std.ExtTreeSet.mem_insert]
  constructor
  · rintro (heq | hother)
    · exact Std.LawfulEqCmp.eq_of_compare heq ▸ h
    · exact hother
  · exact .inr

private theorem round_induction {good : String → Prop}
    (hstep : ∀ emptied f, f ∈ fragments → (∀ name ∈ emptied, good name) →
      pruneSelections emptied f.items = [] → good f.name)
    (hstart : ∀ name ∈ emptied, good name) : ∀ name ∈ round fragments emptied, good name := by
  unfold round
  induction fragments generalizing emptied with
  | nil => exact hstart
  | cons f rest ih =>
    rw [List.foldl_cons]
    refine ih (fun emptied g hg => hstep emptied g (List.mem_cons_of_mem f hg)) ?_
    split
    · rename_i hempty
      intro name hname
      rcases Std.ExtTreeSet.mem_insert.mp hname with heq | hname
      · obtain rfl := Std.LawfulEqCmp.eq_of_compare heq
        exact hstep emptied f List.mem_cons_self hstart (List.isEmpty_iff.mp hempty)
      · exact hstart name hname
    · exact hstart

theorem mem_round_of_mem {name : String} (h : name ∈ emptied) : name ∈ round fragments emptied := by
  unfold round
  induction fragments generalizing emptied with
  | nil => exact h
  | cons f rest ih =>
    rw [List.foldl_cons]
    refine ih ?_
    split
    · exact Std.ExtTreeSet.mem_insert.mpr (.inr h)
    · exact h

private theorem round_eq_self_iff :
    round fragments emptied = emptied ↔
      ∀ f ∈ fragments, pruneSelections emptied f.items = [] → f.name ∈ emptied := by
  constructor
  · intro h
    induction fragments with
    | nil => simp
    | cons f rest ih =>
      have hfirst : round rest
          (if (pruneSelections emptied f.items).isEmpty then emptied.insert f.name else emptied) =
          emptied := h
      have hf : pruneSelections emptied f.items = [] → f.name ∈ emptied := by
        intro hempty
        rw [if_pos (List.isEmpty_iff.mpr hempty)] at hfirst
        rw [← hfirst]
        exact mem_round_of_mem (by simp)
      have hrest : round rest emptied = emptied := by
        split at hfirst
        · rename_i hempty
          rwa [insert_eq_self (hf (List.isEmpty_iff.mp hempty))] at hfirst
        · exact hfirst
      exact List.forall_mem_cons.mpr ⟨hf, ih hrest⟩
  · intro h
    unfold round
    induction fragments with
    | nil => rfl
    | cons f rest ih =>
      obtain ⟨hf, hrest⟩ := List.forall_mem_cons.mp h
      rw [List.foldl_cons]
      split
      · rename_i hempty
        rw [insert_eq_self (hf (List.isEmpty_iff.mp hempty))]
        exact ih hrest
      · exact ih hrest

theorem exists_fragment_of_round_ne (h : round fragments emptied ≠ emptied) :
    ∃ f ∈ fragments, f.name ∈ round fragments emptied ∧ f.name ∉ emptied := by
  obtain ⟨name, hnew, hold⟩ : ∃ name, name ∈ round fragments emptied ∧ name ∉ emptied := by
    refine Classical.byContradiction fun hnone => h (Std.ExtTreeSet.ext_mem fun name => ?_)
    refine ⟨fun hnew => Classical.byContradiction fun hold => ?_, mem_round_of_mem⟩
    exact hnone ⟨name, hnew, hold⟩
  have hfragment : ∀ name ∈ round fragments emptied,
      name ∈ emptied ∨ ∃ f ∈ fragments, f.name = name :=
    round_induction (fun _ f hf _ _ => .inr ⟨f, hf, rfl⟩) (fun _ => .inl)
  obtain ⟨f, hf, rfl⟩ := (hfragment name hnew).resolve_left hold
  exact ⟨f, hf, hnew, hold⟩

private theorem unseen_round_lt (h : round fragments emptied ≠ emptied) :
    unseen (round fragments emptied).contains fragments < unseen emptied.contains fragments := by
  obtain ⟨f, hf, hnew, hold⟩ := exists_fragment_of_round_ne h
  have hold : emptied.contains f.name = false := by
    simpa only [Std.ExtTreeSet.mem_iff_contains, Bool.not_eq_true] using hold
  refine unseen_lt (fun name hname => ?_) hf hold hnew
  exact Std.ExtTreeSet.contains_iff_mem.mpr (mem_round_of_mem hname)

private theorem round_settle {bound : Nat} (h : unseen emptied.contains fragments ≤ bound) :
    round fragments (settle fragments bound emptied) = settle fragments bound emptied := by
  induction bound generalizing emptied with
  | zero =>
    refine round_eq_self_iff.mpr fun f hf _ => ?_
    exact seen_of_unseen_eq_zero (Nat.le_zero.mp h) hf
  | succ bound ih =>
    rw [settle]
    split
    · rename_i hstable
      exact hstable
    · rename_i hchanged
      exact ih (Nat.le_of_lt_succ (Nat.lt_of_lt_of_le (unseen_round_lt hchanged) h))

theorem mem_emptiedFragments {d : Document} {f : Fragment} (hf : f ∈ d.fragments)
    (hempty : pruneSelections (emptiedFragments d) f.items = []) :
    f.name ∈ emptiedFragments d :=
  round_eq_self_iff.mp (round_settle (unseen_le_length _ _)) f hf hempty

/-- A property holds of all fragments found emptied, if it holds of each that is emptied without
fragments with the property. -/
theorem emptiedFragments_induction {d : Document} {good : String → Prop}
    (hstep : ∀ emptied f, f ∈ d.fragments → (∀ name ∈ emptied, good name) →
      pruneSelections emptied f.items = [] → good f.name) :
    ∀ name ∈ emptiedFragments d, good name := by
  have hsettle : ∀ (bound : Nat) (emptied : Emptied), (∀ name ∈ emptied, good name) →
      ∀ name ∈ settle d.fragments bound emptied, good name := by
    intro bound
    induction bound with
    | zero => exact fun emptied h => h
    | succ bound ih =>
      intro emptied h
      rw [settle]
      split
      · exact h
      · exact ih _ (round_induction hstep h)
  exact hsettle _ ∅ (by simp)

private theorem pruneSelection_of_filled {x : Selection} (h : x.Filled) :
    pruneSelection ∅ x = some x := by
  induction h with
  | @field head items _ ih =>
    cases items with
    | nil => exact pruneSelection_leaf head
    | cons y rest => simp [pruneSelection, pruneSelections_eq_filterMap, filterMap_eq_self ih]
  | spread => simp [pruneSelection]
  | @inline head items hne _ ih =>
    simp [pruneSelection, pruneSelections_eq_filterMap, filterMap_eq_self ih, hne]

private theorem pruneSelections_of_filled {items : List Selection} (h : ∀ x ∈ items, x.Filled) :
    pruneSelections ∅ items = items := by
  rw [pruneSelections_eq_filterMap]
  exact filterMap_eq_self fun x hx => pruneSelection_of_filled (h x hx)

private theorem pruneDocument_eq_self {d : Document} (hfragments : ∀ f ∈ d.fragments, f.items ≠ [])
    (hfilled : ∀ x ∈ d.definitions, ∀ y ∈ x.items, y.Filled) : pruneDocument d = d := by
  have hemptied : emptiedFragments d = ∅ := by
    have hround : round d.fragments ∅ = ∅ := round_eq_self_iff.mpr fun f hf hempty =>
      have hitems : pruneSelections ∅ f.items = f.items :=
        pruneSelections_of_filled (hfilled _ (Document.mem_fragments.mp hf))
      absurd (hitems ▸ hempty) (hfragments f hf)
    unfold emptiedFragments
    cases d.fragments.length with
    | zero => rfl
    | succ bound => simp [settle, hround]
  unfold pruneDocument
  rw [hemptied, filterMap_eq_self]
  intro x hx
  have hitems := pruneSelections_of_filled (hfilled x hx)
  cases x with
  | operation o => simp_all [pruneDefinition, Definition.items]
  | fragment f => simp_all [pruneDefinition, Definition.items]

private theorem filled_of_pruneSelection {x y : Selection} (h : pruneSelection emptied x = some y) :
    y.Filled := by
  have hinner {items : List Selection}
      (ih : ∀ z ∈ items, ∀ y, pruneSelection emptied z = some y → y.Filled) :
      ∀ y ∈ pruneSelections emptied items, y.Filled := by
    intro y hy
    obtain ⟨z, hz, hzy⟩ := mem_pruneSelections.mp hy
    exact ih z hz y hzy
  induction x generalizing y with
  | field head items ih =>
    obtain rfl := eq_of_pruneSelection_field h
    exact .field (hinner fun z hz y hzy => ih z hz hzy)
  | spread head =>
    obtain rfl := eq_of_pruneSelection_spread h
    exact .spread
  | inline head items ih =>
    obtain rfl := eq_of_pruneSelection_inline h
    exact .inline (pruneSelections_ne_nil_of_inline h) (hinner fun z hz y hzy => ih z hz hzy)

theorem items_ne_nil_of_mem_pruneDocument {d : Document} {f : Fragment}
    (hf : f ∈ (pruneDocument d).fragments) : f.items ≠ [] := by
  intro hempty
  obtain ⟨x, hx, hkept, hfx⟩ := mem_pruneDocument.mp (Document.mem_fragments.mp hf)
  cases x with
  | operation o => cases hfx
  | fragment g =>
    obtain rfl := Definition.fragment.inj hfx
    have hmem := mem_emptiedFragments (Document.mem_fragments.mpr hx) hempty
    rw [Std.ExtTreeSet.mem_iff_contains, hkept g rfl] at hmem
    exact absurd hmem Bool.false_ne_true

theorem filled_of_mem_pruneDocument {d : Document} {y : Definition}
    (hy : y ∈ (pruneDocument d).definitions) : ∀ z ∈ y.items, z.Filled := by
  intro z hz
  obtain ⟨x, -, -, rfl⟩ := mem_pruneDocument.mp hy
  obtain ⟨w, -, hwz⟩ := mem_pruneSelections.mp (by simpa using hz)
  exact filled_of_pruneSelection hwz

theorem pruneDocument_pruneDocument (d : Document) :
    pruneDocument (pruneDocument d) = pruneDocument d :=
  pruneDocument_eq_self (fun _ hf => items_ne_nil_of_mem_pruneDocument hf)
    fun _ hy => filled_of_mem_pruneDocument hy

end FieldAuthorization.Prune
