import FieldAuthorization.Proofs.Document.Occurrence

/-!
The operation to execute.

Restricted to one operation, a document keeps that operation in its place among the fragments, and
to restrict it once more changes nothing.
-/

set_option autoImplicit false
set_option relaxedAutoImplicit false

namespace FieldAuthorization.Document

variable {d chosen : Document} {name : Option String} {o : Operation}
  {before after : List Definition}

/-- The operation is the only one of the document, and has the name if one is given. -/
def Executes (d : Document) (name : Option String) (o : Operation) : Prop :=
  d.operations = [o] ∧ ∀ n, name = some n → o.name = some n

private theorem findIdx_append_cons {p : Definition → Bool} {x : Definition}
    (hbefore : ∀ y ∈ before, p y = false) (hx : p x = true) :
    (before ++ x :: after).findIdx p = before.length := by
  rw [List.findIdx_append, List.findIdx_eq_length_of_false hbefore, List.findIdx_cons, hx]
  simp

private theorem filter_zipIdx_fragments {l : List Definition} {start index : Nat}
    (h : ∀ i, start ≤ i → i < start + l.length → i ≠ index) :
    ((l.zipIdx start).filter (fun (x, i) => !x.isOperation || i == index)).map Prod.fst =
      l.filter (!·.isOperation) := by
  induction l generalizing start with
  | nil => rfl
  | cons x rest ih =>
    have hrest := @ih (start + 1) fun i hi hlt =>
      h i (by omega) (by simp only [List.length_cons]; omega)
    have hstart : (start == index) = false := by
      simpa using h start (Nat.le_refl start) (by simp)
    rw [List.zipIdx_cons, List.filter_cons, List.filter_cons]
    simp only [hstart, Bool.or_false]
    split
    · rw [List.map_cons, hrest]
    · exact hrest

theorem withoutOthers_append {x : Definition} (h : d.definitions = before ++ x :: after) :
    (d.withoutOthers before.length).definitions =
      before.filter (!·.isOperation) ++ x :: after.filter (!·.isOperation) := by
  have hbefore := @filter_zipIdx_fragments before 0 before.length
    fun i _ hlt heq => by omega
  have hafter := @filter_zipIdx_fragments after (before.length + 1) before.length
    fun i hle _ heq => by omega
  simp only [withoutOthers, h, List.zipIdx_append, List.filter_append, List.map_append, hbefore,
    Nat.zero_add, List.zipIdx_cons, List.filter_cons]
  simp only [beq_self_eq_true, Bool.or_true, if_true, List.map_cons, hafter]

private theorem operations_eq_singleton :
    d.operations = [o] ↔ ∃ before after, d.definitions = before ++ .operation o :: after ∧
      (∀ x ∈ before, x.isOperation = false) ∧ ∀ x ∈ after, x.isOperation = false := by
  have hnil : ∀ l : List Definition, operations ⟨l⟩ = [] ↔ ∀ x ∈ l, x.isOperation = false := by
    intro l
    rw [operations, List.filterMap_eq_nil_iff]
    refine forall₂_congr fun x _ => ?_
    cases x <;> simp [Definition.isOperation]
  unfold operations
  rw [List.filterMap_eq_cons_iff]
  constructor
  · rintro ⟨before, x, after, hsplit, hbefore, hx, hafter⟩
    cases x with
    | operation o' =>
      obtain rfl := Option.some.inj hx
      exact ⟨before, after, hsplit, (hnil before).mp (List.filterMap_eq_nil_iff.mpr hbefore),
        (hnil after).mp hafter⟩
    | fragment f => cases hx
  · rintro ⟨before, after, hsplit, hbefore, hafter⟩
    exact ⟨before, .operation o, after, hsplit,
      List.filterMap_eq_nil_iff.mp ((hnil before).mpr hbefore), rfl, (hnil after).mpr hafter⟩

private theorem filter_fragments {l : List Definition} (h : ∀ x ∈ l, x.isOperation = false) :
    l.filter (!·.isOperation) = l :=
  List.filter_eq_self.mpr fun x hx => by simp [h x hx]

/-- The operation to execute stays so when fragments are taken out or changed and it gets other
selections. -/
theorem Executes.filterMap {f : Definition → Option Definition} {items : List Selection}
    (h : d.Executes name o) (ho : f (.operation o) = some (.operation { o with items := items }))
    (hfragments : ∀ g y, f (.fragment g) = some y → y.isOperation = false) :
    Executes ⟨d.definitions.filterMap f⟩ name { o with items := items } := by
  obtain ⟨hoperations, hname⟩ := h
  obtain ⟨before, after, hsplit, hbefore, hafter⟩ := operations_eq_singleton.mp hoperations
  have hrest {l : List Definition} (hl : ∀ x ∈ l, x.isOperation = false) :
      ∀ y ∈ l.filterMap f, y.isOperation = false := by
    intro y hy
    obtain ⟨x, hx, hxy⟩ := List.mem_filterMap.mp hy
    cases x with
    | operation o' => cases hl _ hx
    | fragment g => exact hfragments g y hxy
  refine ⟨operations_eq_singleton.mpr ⟨before.filterMap f, after.filterMap f, ?_, hrest hbefore,
    hrest hafter⟩, hname⟩
  rw [hsplit, List.filterMap_append, List.filterMap_cons_some ho]

theorem chosenIndex_eq_ok {index : Nat} (h : d.chosenIndex name = .ok index) :
    ∃ before o after, d.definitions = before ++ .operation o :: after ∧ before.length = index ∧
      ∀ n, name = some n → o.name = some n := by
  unfold chosenIndex at h
  cases name with
  | some n =>
    simp only at h
    cases hfind : d.definitions.findIdx? (·.isOperationNamed n) with
    | none => simp [hfind] at h
    | some i =>
      simp only [hfind, Except.ok.injEq] at h
      subst h
      obtain ⟨hlt, hnamed, -⟩ := List.findIdx?_eq_some_iff_getElem.mp hfind
      cases hx : d.definitions[i] with
      | fragment f => simp [hx, Definition.isOperationNamed] at hnamed
      | operation o =>
        have hname : o.name = some n := by simpa [hx, Definition.isOperationNamed] using hnamed
        refine ⟨d.definitions.take i, o, d.definitions.drop (i + 1), ?_, ?_, ?_⟩
        · rw [← hx, List.getElem_cons_drop, List.take_append_drop]
        · exact List.length_take_of_le (Nat.le_of_lt hlt)
        · rintro _ ⟨⟩
          exact hname
  | none =>
    simp only at h
    split at h
    · cases h
    · rename_i o hoperations
      obtain ⟨before, after, hsplit, hbefore, -⟩ := operations_eq_singleton.mp hoperations
      refine ⟨before, o, after, hsplit, ?_, by simp⟩
      simp only [Except.ok.injEq] at h
      rw [← h, hsplit, findIdx_append_cons hbefore rfl]
    · cases h

theorem restrict_eq_ok (h : d.restrict name = .ok chosen) :
    ∃ index, d.chosenIndex name = .ok index ∧ chosen = d.withoutOthers index := by
  unfold restrict at h
  cases hindex : d.chosenIndex name with
  | error e => simp [hindex, Except.map] at h
  | ok index =>
    simp only [hindex, Except.map, Except.ok.injEq] at h
    exact ⟨index, rfl, h.symm⟩

theorem executes_of_restrict (h : d.restrict name = .ok chosen) :
    ∃ o, chosen.Executes name o := by
  obtain ⟨index, hindex, rfl⟩ := restrict_eq_ok h
  obtain ⟨before, o, after, hsplit, rfl, hname⟩ := chosenIndex_eq_ok hindex
  refine ⟨o, operations_eq_singleton.mpr ⟨_, _, withoutOthers_append hsplit, ?_, ?_⟩, hname⟩ <;>
    simp

theorem Executes.restrict_eq (h : d.Executes name o) : d.restrict name = .ok d := by
  obtain ⟨hoperations, hname⟩ := h
  obtain ⟨before, after, hsplit, hbefore, hafter⟩ := operations_eq_singleton.mp hoperations
  have hindex : d.chosenIndex name = .ok before.length := by
    unfold chosenIndex
    cases name with
    | none =>
      simp only [hoperations]
      rw [hsplit, findIdx_append_cons hbefore rfl]
    | some n =>
      have hnamed : (Definition.operation o).isOperationNamed n = true := by
        simp [Definition.isOperationNamed, hname n rfl]
      have hnone : ∀ x ∈ before, x.isOperationNamed n = false := by
        intro x hx
        cases x with
        | operation o' => simpa [Definition.isOperation] using hbefore _ hx
        | fragment f => rfl
      have hfind : d.definitions.findIdx? (·.isOperationNamed n) = some before.length := by
        rw [List.findIdx?_eq_some_iff_findIdx_eq, hsplit, findIdx_append_cons hnone hnamed]
        simp
      simp only [hfind]
  have hself : d.withoutOthers before.length = d := by
    cases d
    rw [Document.mk.injEq, withoutOthers_append hsplit, filter_fragments hbefore,
      filter_fragments hafter]
    exact hsplit.symm
  rw [restrict, hindex]
  exact congrArg Except.ok hself

end FieldAuthorization.Document
