import FieldAuthorization.Proofs.Permissions.Grants

/-!
What the walk of a declaration comes to.

A walk follows the schema from the root types of the operations, through the fragments that they
spread. It adds to the permissions in two ways only: it shows a type that it passes, and it permits
a field of a type that is shown by then. Whatever both of these keep holds of all that declarations
compile to.
-/

set_option autoImplicit false
set_option relaxedAutoImplicit false

namespace FieldAuthorization

namespace Document

/-- The walk of the operations along a schema comes to a selection on a type. -/
inductive Visits (d : Document) (s : Schema) : String → Selection → Prop
  | operation {o : Operation} {root : String} {x : Selection} :
      o ∈ d.operations → s.root? o.kind = some root → x ∈ o.items → Visits d s root x
  | field {parent : String} {head : Field} {items : List Selection} {rule : FieldDef}
      {x : Selection} :
      Visits d s parent (.field head items) → isMeta head.name = false →
      s.field? parent head.name = some rule → x ∈ items → Visits d s rule.type x
  | inline {parent : String} {head : InlineFragment} {items : List Selection} {x : Selection} :
      Visits d s parent (.inline head items) → x ∈ items →
      Visits d s (head.condition.getD parent) x
  | fragment {parent : String} {head : Spread} {f : Fragment} {x : Selection} :
      Visits d s parent (.spread head) → d.fragment? head.name = some f → x ∈ f.items →
      Visits d s f.condition x

/-- The walk passes a type: as the root of an operation, as the type that a field returns, or as the
condition of a fragment. -/
inductive Passes (d : Document) (s : Schema) : String → Prop
  | root {o : Operation} {root : String} :
      o ∈ d.operations → s.root? o.kind = some root → Passes d s root
  | field {parent : String} {head : Field} {items : List Selection} {rule : FieldDef} :
      Visits d s parent (.field head items) → isMeta head.name = false →
      s.field? parent head.name = some rule → Passes d s rule.type
  | inline {parent condition : String} {head : InlineFragment} {items : List Selection} :
      Visits d s parent (.inline head items) → head.condition = some condition →
      Passes d s condition
  | fragment {parent : String} {head : Spread} {f : Fragment} :
      Visits d s parent (.spread head) → d.fragment? head.name = some f → Passes d s f.condition

/-- Passing a type and permitting a field keep a property of permissions. -/
structure Keeps (d : Document) (s : Schema) (good : PermissionSet → Prop) : Prop where
  pass : ∀ p type, d.Passes s type → good p → good (p.markVisible type).2
  permit : ∀ p parent head items rule, d.Visits s parent (.field head items) →
    isMeta head.name = false → s.field? parent head.name = some rule → p.shows parent = true →
    good p → good (p.permitField s parent rule)

end Document

namespace Declaration

/-- A step adds to the permissions and keeps a property of them. -/
def Step.Keeps (good : PermissionSet → Prop) (step : Step) : Prop :=
  ∀ w w', step w = .ok w' → good w.permissions →
    w.permissions ≤ w'.permissions ∧ good w'.permissions

variable {s : Schema} {d : Document} {good : PermissionSet → Prop}

private theorem Step.Keeps.and_shows {step : Step} (h : Step.Keeps good step) (type : String) :
    Step.Keeps (fun p => good p ∧ p.shows type = true) step := by
  rintro w w' hstep ⟨hgood, hshown⟩
  obtain ⟨hle, hgood'⟩ := h w w' hstep hgood
  exact ⟨hle, hgood', PermissionSet.shows_of_le hle hshown⟩

private theorem Step.Keeps.foldlM {α : Type} {step : α → Step} {l : List α}
    (h : ∀ x ∈ l, Step.Keeps good (step x)) :
    Step.Keeps good fun w => l.foldlM (fun w x => step x w) w := by
  induction l with
  | nil =>
    rintro w w' ⟨⟩ hgood
    exact ⟨le_refl _, hgood⟩
  | cons x rest ih =>
    obtain ⟨hx, hrest⟩ := List.forall_mem_cons.mp h
    intro w w' hrun hgood
    obtain ⟨between, hfirst, hlater⟩ := exists_of_foldlM_cons hrun
    obtain ⟨hle, hbetween⟩ := hx w between hfirst hgood
    obtain ⟨hle', hgood'⟩ := ih hrest between w' hlater hbetween
    exact ⟨hle.trans hle', hgood'⟩

private theorem requireType_keeps (hkeeps : d.Keeps s good) {type : String}
    (hpasses : d.Passes s type) :
    ∀ w w', Walk.requireType s type w = .ok w' → good w.permissions →
      w.permissions ≤ w'.permissions ∧ good w'.permissions ∧
        w'.permissions.shows type = true := by
  intro w w' hstep hgood
  unfold Walk.requireType at hstep
  split at hstep
  · cases hstep
    exact ⟨PermissionSet.le_markVisible _ type, hkeeps.pass _ type hpasses hgood,
      (PermissionSet.shows_markVisible _ type type).mpr (.inl rfl)⟩
  · cases hstep

private theorem walkSelections_keeps_of_forall {spread : String → Step} {parent : String}
    {items : List Selection}
    (h : ∀ x ∈ items, Step.Keeps (fun p => good p ∧ p.shows parent = true)
      (walkSelection s spread parent x)) :
    Step.Keeps (fun p => good p ∧ p.shows parent = true)
      (walkSelections s spread parent items) := by
  intro w w' hstep
  rw [walkSelections_eq_foldlM] at hstep
  exact Step.Keeps.foldlM h w w' hstep

private theorem walkSelection_keeps (hkeeps : d.Keeps s good) {spread : String → Step}
    (hspread : ∀ parent head, d.Visits s parent (.spread head) →
      Step.Keeps good (spread head.name))
    (x : Selection) {parent : String} (hvisits : d.Visits s parent x) :
    Step.Keeps (fun p => good p ∧ p.shows parent = true) (walkSelection s spread parent x) := by
  induction x generalizing parent with
  | field head items ih =>
    rintro w w' hstep ⟨hgood, hshown⟩
    rw [walkSelection] at hstep
    split at hstep
    · cases hstep
      exact ⟨le_refl _, hgood, hshown⟩
    · rename_i hmeta
      have hplain : isMeta head.name = false := by simpa using hmeta
      cases hrule : s.field? parent head.name with
      | none => simp [hrule] at hstep
      | some rule =>
        simp only [hrule] at hstep
        have hle := PermissionSet.le_permitField w.permissions s parent rule
        have hgood' := hkeeps.permit _ parent head items rule hvisits hplain hrule hshown hgood
        have hreturned := PermissionSet.shows_permitField w.permissions s parent rule
        obtain ⟨hle', hlast, -⟩ := walkSelections_keeps_of_forall
          (fun y hy => ih y hy (hvisits.field hplain hrule hy)) _ w' hstep ⟨hgood', hreturned⟩
        exact ⟨hle.trans hle', hlast, PermissionSet.shows_of_le (hle.trans hle') hshown⟩
  | spread head =>
    intro w w' hstep
    rw [walkSelection] at hstep
    exact (hspread parent head hvisits).and_shows parent w w' hstep
  | inline head items ih =>
    rintro w w' hstep ⟨hgood, hshown⟩
    rw [walkSelection] at hstep
    have hitems := walkSelections_keeps_of_forall fun y hy => ih y hy (hvisits.inline hy)
    cases hcondition : head.condition with
    | none =>
      simp only [hcondition, Option.getD_none] at hstep hitems
      exact hitems w w' hstep ⟨hgood, hshown⟩
    | some condition =>
      simp only [hcondition, Option.getD_some] at hstep hitems
      cases hrequire : Walk.requireType s condition w with
      | error fault => simp [hrequire] at hstep
      | ok between =>
        simp only [hrequire] at hstep
        obtain ⟨hle, hbetween, hshown'⟩ :=
          requireType_keeps hkeeps (.inline hvisits hcondition) w between hrequire hgood
        obtain ⟨hle', hlast, -⟩ := hitems between w' hstep ⟨hbetween, hshown'⟩
        exact ⟨hle.trans hle', hlast, PermissionSet.shows_of_le (hle.trans hle') hshown⟩

private theorem walkSelections_keeps (hkeeps : d.Keeps s good) {spread : String → Step}
    (hspread : ∀ parent head, d.Visits s parent (.spread head) →
      Step.Keeps good (spread head.name))
    {items : List Selection} {parent : String} (hvisits : ∀ x ∈ items, d.Visits s parent x) :
    Step.Keeps (fun p => good p ∧ p.shows parent = true) (walkSelections s spread parent items) :=
  walkSelections_keeps_of_forall fun x hx => walkSelection_keeps hkeeps hspread x (hvisits x hx)

private theorem walkFragment_keeps (hkeeps : d.Keeps s good) (depth : Nat)
    (inProgress : List String) {parent : String} {head : Spread}
    (hvisits : d.Visits s parent (.spread head)) :
    Step.Keeps good (walkFragment s d depth inProgress head.name) := by
  induction depth generalizing inProgress parent head with
  | zero =>
    intro w w' hstep hgood
    obtain ⟨f, -, -, ⟨-, rfl⟩ | ⟨-, less, _, _, hless, -⟩⟩ := walkFragment_eq_ok hstep
    · exact ⟨le_refl _, hgood⟩
    · simp at hless
  | succ depth ih =>
    intro w w' hstep hgood
    obtain ⟨f, hf, -, ⟨-, rfl⟩ | ⟨-, less, between, last, hless, hrequire, hwalk, rfl⟩⟩ :=
      walkFragment_eq_ok hstep
    · exact ⟨le_refl _, hgood⟩
    · obtain rfl : depth = less := by simpa using hless
      obtain ⟨hle, hbetween, hshown⟩ :=
        requireType_keeps hkeeps (.fragment hvisits hf) w between hrequire hgood
      obtain ⟨hle', hlast, -⟩ := walkSelections_keeps hkeeps
        (fun _ _ hvisits' => ih (head.name :: inProgress) hvisits')
        (fun x hx => hvisits.fragment hf hx) between last hwalk ⟨hbetween, hshown⟩
      exact ⟨hle.trans hle', hlast⟩

private theorem walkOperation_keeps (hkeeps : d.Keeps s good) {o : Operation}
    (ho : o ∈ d.operations) :
    Step.Keeps good (walkOperation s d o) := by
  intro w w' hstep hgood
  unfold walkOperation at hstep
  cases hroot : s.root? o.kind with
  | none => simp [hroot] at hstep
  | some root =>
    simp only [hroot] at hstep
    have hle := PermissionSet.le_markVisible w.permissions root
    have hgood' := hkeeps.pass w.permissions root (.root ho hroot) hgood
    have hshown : (w.markVisible root).permissions.shows root = true :=
      (PermissionSet.shows_markVisible _ root root).mpr (.inl rfl)
    obtain ⟨hle', hlast, -⟩ := walkSelections_keeps hkeeps
      (fun _ _ hvisits => walkFragment_keeps hkeeps _ _ hvisits)
      (fun x hx => .operation ho hroot hx) (w.markVisible root) w' hstep ⟨hgood', hshown⟩
    exact ⟨hle.trans hle', hlast⟩

private theorem grant_keeps (hkeeps : d.Keeps s good) {p q : PermissionSet}
    (h : grant s d p = .ok q) (hgood : good p) : good q := by
  obtain ⟨last, hrun, rfl⟩ := foldlM_of_grant h
  exact (Step.Keeps.foldlM (fun o ho => walkOperation_keeps hkeeps ho) ⟨p, []⟩ last hrun hgood).2

/-- What the walks of all declarations keep holds of what they compile to. -/
theorem good_of_compile {client : String} {declarations : List String} {p : PermissionSet}
    (hkeeps : ∀ declaration ∈ declarations, ∀ d, Document.parse declaration = .ok d →
      d.Keeps s good)
    (hempty : good .empty) (h : compile s client declarations = .ok p) : good p := by
  have hrun : ∀ start, good start → declarations.foldlM (grantText s) start = .ok p → good p := by
    clear h hempty
    induction declarations with
    | nil =>
      rintro start hstart ⟨⟩
      exact hstart
    | cons first rest ih =>
      obtain ⟨hfirst, hrest⟩ := List.forall_mem_cons.mp hkeeps
      intro start hstart hrun
      obtain ⟨between, htext, hlater⟩ := exists_of_foldlM_cons hrun
      obtain ⟨d, hparse, hgrant⟩ := grantText_eq_ok htext
      exact ih hrest between (grant_keeps (hfirst d hparse) hgrant hstart) hlater
  exact hrun .empty hempty (foldlM_of_compile h)

end Declaration

end FieldAuthorization
