import Mathlib
import FieldAuthorization.Proofs.Document.Occurrence
import FieldAuthorization.Proofs.Permissions.Order

/-!
What a declaration grants.

The invariant of a walk is that the permissions hold the rules of every fragment that has been
walked, and that every fragment spread there has been walked too. A walk that succeeds keeps the
invariant and adds the rules of the selections that it has passed.

Mathlib is imported whole for the modules on top of this one that evaluate texts with `cbv`: it is
to find the equations of library functions there, and not to make its own.
-/

set_option autoImplicit false
set_option relaxedAutoImplicit false

namespace FieldAuthorization

/-- The permissions hold the rule of every field at or below a selection on a type, and every
fragment spread there is among the given ones; introspection fields need nothing. -/
inductive Granted (s : Schema) (p : PermissionSet) (fragments : List String) :
    String → Selection → Prop
  | introspection {parent : String} {head : Field} {items : List Selection} :
      isMeta head.name = true → Granted s p fragments parent (.field head items)
  | field {parent : String} {head : Field} {items : List Selection} {d : FieldDef} :
      isMeta head.name = false → s.field? parent head.name = some d →
      p.permits parent head.name = true → (∀ x ∈ items, Granted s p fragments d.type x) →
      Granted s p fragments parent (.field head items)
  | spread {parent : String} {head : Spread} :
      head.name ∈ fragments → Granted s p fragments parent (.spread head)
  | inline {parent : String} {head : InlineFragment} {items : List Selection} :
      (∀ x ∈ items, Granted s p fragments (head.condition.getD parent) x) →
      Granted s p fragments parent (.inline head items)

private theorem Granted.mono {s : Schema} {p q : PermissionSet} {fragments more : List String}
    {parent : String} {x : Selection} (h : Granted s p fragments parent x) (hp : p ≤ q)
    (hmore : fragments ⊆ more) : Granted s q more parent x := by
  induction h with
  | introspection hmeta => exact .introspection hmeta
  | field hmeta hd hpermits _ ih =>
    exact .field hmeta hd (PermissionSet.permits_of_le hp hpermits) ih
  | spread hname => exact .spread (hmore hname)
  | inline _ ih => exact .inline ih

theorem Granted.spread_mem {s : Schema} {p : PermissionSet} {fragments : List String}
    {items : List Selection} {trail : List Enclosure} {head : Spread}
    (hoccurs : Occurs items trail (.spread head)) (hexposed : Exposed trail) {parent : String}
    (h : ∀ x ∈ items, Granted s p fragments parent x) : head.name ∈ fragments := by
  generalize hx : Selection.spread head = x at hoccurs
  induction hoccurs generalizing parent with
  | here hm =>
    subst hx
    cases h _ hm with
    | spread hname => exact hname
  | field hm _ ih =>
    obtain ⟨hmeta, htrail⟩ := exposed_field.mp hexposed
    cases h _ hm with
    | introspection hmeta' => simp [hmeta] at hmeta'
    | field _ _ _ hinner => exact ih htrail hinner hx
  | inline hm _ ih =>
    cases h _ hm with
    | inline hinner => exact ih (exposed_inline.mp hexposed) hinner hx

namespace Declaration

/-- A walk follows another if it has at least the same permissions and fragments. -/
def Walk.Follows (w' w : Walk) : Prop :=
  w.permissions ≤ w'.permissions ∧ w.inlined ⊆ w'.inlined

/-- The permissions hold the rules of every fragment of the document that has been walked. -/
def Walk.Sound (s : Schema) (d : Document) (w : Walk) : Prop :=
  ∀ name ∈ w.inlined, ∀ f, d.fragment? name = some f →
    ∀ x ∈ f.items, Granted s w.permissions w.inlined f.condition x

/-- A step keeps what has been granted, keeps it sound, and brings about what it is for. -/
def Step.Grants (s : Schema) (d : Document) (step : Step) (aim : Walk → Prop) : Prop :=
  ∀ w w', step w = .ok w' → w.Sound s d → w'.Follows w ∧ w'.Sound s d ∧ aim w'

namespace Walk

variable {s : Schema} {d : Document} {w w' w'' : Walk}

private theorem Follows.refl (w : Walk) : w.Follows w :=
  ⟨le_refl _, List.Subset.refl _⟩

private theorem Follows.trans (h : w'.Follows w) (h' : w''.Follows w') : w''.Follows w :=
  ⟨h.1.trans h'.1, fun _ hx => h'.2 (h.2 hx)⟩

theorem Sound.of_le (h : w.Sound s d) (hp : w.permissions ≤ w'.permissions)
    (hinlined : w'.inlined = w.inlined) : w'.Sound s d := by
  intro name hname f hf x hx
  rw [hinlined] at hname ⊢
  exact (h name hname f hf x hx).mono hp (List.Subset.refl _)

theorem Sound.cons {name : String} (h : w.Sound s d)
    (hf : ∀ f, d.fragment? name = some f →
      ∀ x ∈ f.items, Granted s w.permissions w.inlined f.condition x) :
    Sound s d { w with inlined := name :: w.inlined } := by
  intro name' hname f hname' x hx
  rcases List.mem_cons.mp hname with rfl | hname
  · exact (hf f hname' x hx).mono (le_refl _) (List.subset_cons_self _ _)
  · exact (h name' hname f hname' x hx).mono (le_refl _) (List.subset_cons_self _ _)

end Walk

variable {s : Schema} {d : Document}

private theorem requireType_grants (type : String) :
    Step.Grants s d (Walk.requireType s type) fun _ => True := by
  intro w w' hstep hsound
  unfold Walk.requireType at hstep
  split at hstep
  · simp only [Except.ok.injEq] at hstep
    subst hstep
    have hle := PermissionSet.le_markVisible w.permissions type
    exact ⟨⟨hle, List.Subset.refl _⟩, hsound.of_le hle rfl, trivial⟩
  · simp at hstep

theorem exists_of_foldlM_cons {ε α β : Type} {step : β → α → Except ε β} {x : α} {rest : List α}
    {start last : β} (h : (x :: rest).foldlM step start = .ok last) :
    ∃ between, step start x = .ok between ∧ rest.foldlM step between = .ok last := by
  rw [List.foldlM_cons] at h
  cases hfirst : step start x with
  | error fault => simp [hfirst, bind, Except.bind] at h
  | ok between =>
    rw [hfirst] at h
    exact ⟨between, rfl, h⟩

private theorem Step.Grants.foldlM {α : Type} {step : α → Step} {aim : α → Walk → Prop} {l : List α}
    (hstep : ∀ x ∈ l, Step.Grants s d (step x) (aim x))
    (hkeep : ∀ x (w w' : Walk), w'.Follows w → aim x w → aim x w') :
    Step.Grants s d (fun w => l.foldlM (fun w x => step x w) w) fun w => ∀ x ∈ l, aim x w := by
  induction l with
  | nil =>
    intro w w' hrun hsound
    cases hrun
    exact ⟨.refl w, hsound, by simp⟩
  | cons x rest ih =>
    intro w w' hrun hsound
    obtain ⟨between, hfirst, hlater⟩ := exists_of_foldlM_cons hrun
    obtain ⟨hfollows, hsound', hx⟩ := hstep x (by simp) w between hfirst hsound
    obtain ⟨hfollows', hsound'', hrest⟩ :=
      ih (fun y hy => hstep y (by simp [hy])) between w' hlater hsound'
    refine ⟨hfollows.trans hfollows', hsound'', fun y hy => ?_⟩
    rcases List.mem_cons.mp hy with rfl | hy
    · exact hkeep y between w' hfollows' hx
    · exact hrest y hy

theorem walkSelections_eq_foldlM (spread : String → Step) (parent : String)
    (items : List Selection) (w : Walk) :
    walkSelections s spread parent items w =
      items.foldlM (fun w x => walkSelection s spread parent x w) w := by
  induction items generalizing w with
  | nil => rfl
  | cons x rest ih =>
    rw [walkSelections, List.foldlM_cons]
    cases hfirst : walkSelection s spread parent x w with
    | error fault => rfl
    | ok between => exact ih between

private theorem walkSelections_grants_of_forall {spread : String → Step} {parent : String}
    {items : List Selection}
    (h : ∀ x ∈ items, Step.Grants s d (walkSelection s spread parent x)
      fun w => Granted s w.permissions w.inlined parent x) :
    Step.Grants s d (walkSelections s spread parent items)
      fun w => ∀ x ∈ items, Granted s w.permissions w.inlined parent x := by
  intro w w' hstep
  rw [walkSelections_eq_foldlM] at hstep
  exact Step.Grants.foldlM h (fun x w w' hfollows hx => hx.mono hfollows.1 hfollows.2) w w' hstep

private theorem walkSelection_grants {spread : String → Step}
    (hspread : ∀ name, Step.Grants s d (spread name) fun w => name ∈ w.inlined)
    (x : Selection) (parent : String) :
    Step.Grants s d (walkSelection s spread parent x)
      fun w => Granted s w.permissions w.inlined parent x := by
  induction x generalizing parent with
  | field head items ih =>
    intro w w' hstep hsound
    rw [walkSelection] at hstep
    split at hstep
    · rename_i hmeta
      simp only [Except.ok.injEq] at hstep
      subst hstep
      exact ⟨.refl w, hsound, .introspection hmeta⟩
    · rename_i hmeta
      cases hd : s.field? parent head.name with
      | none => simp [hd] at hstep
      | some rule =>
        simp only [hd] at hstep
        have hname : rule.name = head.name := Schema.name_of_field?_eq_some hd
        have hle := PermissionSet.le_permitField w.permissions s parent rule
        have hpermitted : (w.permitField s parent rule).Sound s d := hsound.of_le hle rfl
        obtain ⟨hfollows, hsound', hitems⟩ :=
          walkSelections_grants_of_forall (fun y hy => ih y hy rule.type) _ w' hstep hpermitted
        have hstart : (w.permitField s parent rule).Follows w := ⟨hle, List.Subset.refl _⟩
        refine ⟨hstart.trans hfollows, hsound',
          .field (by simpa using hmeta) hd ?_ hitems⟩
        rw [← hname]
        exact PermissionSet.permits_of_le hfollows.1
          (PermissionSet.permits_permitField w.permissions s parent rule)
  | spread head =>
    intro w w' hstep hsound
    rw [walkSelection] at hstep
    obtain ⟨hfollows, hsound', hname⟩ := hspread head.name w w' hstep hsound
    exact ⟨hfollows, hsound', .spread hname⟩
  | inline head items ih =>
    intro w w' hstep hsound
    rw [walkSelection] at hstep
    have hitems (type : String) := walkSelections_grants_of_forall fun y hy => ih y hy type
    cases hcondition : head.condition with
    | none =>
      simp only [hcondition] at hstep
      obtain ⟨hfollows, hsound', hpassed⟩ := hitems parent w w' hstep hsound
      exact ⟨hfollows, hsound', .inline (by simpa [hcondition] using hpassed)⟩
    | some condition =>
      simp only [hcondition] at hstep
      cases hrequire : Walk.requireType s condition w with
      | error fault => simp [hrequire] at hstep
      | ok between =>
        simp only [hrequire] at hstep
        obtain ⟨hfollows, hsound', -⟩ := requireType_grants condition w between hrequire hsound
        obtain ⟨hfollows', hsound'', hpassed⟩ := hitems condition between w' hstep hsound'
        exact ⟨hfollows.trans hfollows', hsound'',
          .inline (by simpa [hcondition] using hpassed)⟩

theorem walkSelections_grants {spread : String → Step}
    (hspread : ∀ name, Step.Grants s d (spread name) fun w => name ∈ w.inlined)
    (items : List Selection) (parent : String) :
    Step.Grants s d (walkSelections s spread parent items)
      fun w => ∀ x ∈ items, Granted s w.permissions w.inlined parent x :=
  walkSelections_grants_of_forall fun x _ => walkSelection_grants hspread x parent

theorem walkFragment_eq_ok {depth : Nat} {inProgress : List String} {name : String} {w w' : Walk}
    (h : walkFragment s d depth inProgress name w = .ok w') :
    ∃ f, d.fragment? name = some f ∧ name ∉ inProgress ∧
      ((name ∈ w.inlined ∧ w' = w) ∨
        (name ∉ w.inlined ∧ ∃ less between last, depth = less + 1 ∧
          Walk.requireType s f.condition w = .ok between ∧
          walkSelections s (walkFragment s d less (name :: inProgress)) f.condition f.items
            between = .ok last ∧
          w' = { last with inlined := name :: last.inlined })) := by
  rw [walkFragment.eq_def] at h
  cases hf : d.fragment? name with
  | none => simp [hf] at h
  | some f =>
    simp only [hf] at h
    split at h
    · simp at h
    rename_i hprogress
    refine ⟨f, rfl, by simpa using hprogress, ?_⟩
    split at h
    · rename_i hname
      simp only [Except.ok.injEq] at h
      exact .inl ⟨by simpa using hname, h.symm⟩
    rename_i hname
    cases depth with
    | zero => simp at h
    | succ less =>
      simp only at h
      cases hrequire : Walk.requireType s f.condition w with
      | error fault => simp [hrequire] at h
      | ok between =>
        simp only [hrequire] at h
        cases hwalk : walkSelections s (walkFragment s d less (name :: inProgress)) f.condition
            f.items between with
        | error fault => simp [hwalk] at h
        | ok last =>
          simp only [hwalk, Except.ok.injEq] at h
          exact .inr ⟨by simpa using hname, less, between, last, rfl, rfl, hwalk, h.symm⟩

theorem walkFragment_grants (depth : Nat) (inProgress : List String) (name : String) :
    Step.Grants s d (walkFragment s d depth inProgress name) fun w => name ∈ w.inlined := by
  induction depth generalizing inProgress name with
  | zero =>
    intro w w' hstep hsound
    obtain ⟨f, -, -, ⟨hname, rfl⟩ | ⟨-, less, _, _, hless, -⟩⟩ := walkFragment_eq_ok hstep
    · exact ⟨.refl w', hsound, hname⟩
    · simp at hless
  | succ depth ih =>
    intro w w' hstep hsound
    obtain ⟨f, hf, -, ⟨hname, rfl⟩ | ⟨-, less, between, last, hless, hrequire, hwalk, rfl⟩⟩ :=
      walkFragment_eq_ok hstep
    · exact ⟨.refl w', hsound, hname⟩
    · obtain rfl : depth = less := by simpa using hless
      obtain ⟨hfollows, hsound', -⟩ := requireType_grants f.condition w between hrequire hsound
      obtain ⟨hfollows', hsound'', hitems⟩ :=
        walkSelections_grants (fun other => ih (name :: inProgress) other) f.items
          f.condition between last hwalk hsound'
      have hlast : Walk.Follows { last with inlined := name :: last.inlined } last :=
        ⟨le_refl _, List.subset_cons_self _ _⟩
      refine ⟨(hfollows.trans hfollows').trans hlast, hsound''.cons ?_, by simp⟩
      intro g hg x hx
      rw [hf] at hg
      cases hg
      exact hitems x hx

theorem foldlM_of_grant {p q : PermissionSet} (h : grant s d p = .ok q) :
    ∃ last : Walk, d.operations.foldlM (fun w o => walkOperation s d o w) ⟨p, []⟩ = .ok last ∧
      last.permissions = q := by
  unfold grant at h
  cases hrun : d.operations.foldlM (fun w o => walkOperation s d o w) ⟨p, []⟩ with
  | error fault => simp [hrun, Except.map] at h
  | ok last => exact ⟨last, rfl, by simpa [hrun, Except.map] using h⟩

theorem grantText_eq_ok {p q : PermissionSet} {declaration : String}
    (h : grantText s p declaration = .ok q) :
    ∃ d, Document.parse declaration = .ok d ∧ grant s d p = .ok q := by
  unfold grantText at h
  cases hparse : Document.parse declaration with
  | error e => simp [hparse] at h
  | ok d => exact ⟨d, rfl, by simpa [hparse] using h⟩

theorem foldlM_of_compile {client : String} {declarations : List String} {p : PermissionSet}
    (h : compile s client declarations = .ok p) :
    declarations.foldlM (grantText s) .empty = .ok p := by
  unfold compile at h
  cases hrun : declarations.foldlM (grantText s) .empty with
  | error fault => simp [hrun, Except.mapError] at h
  | ok last => simpa [hrun, Except.mapError] using h

end Declaration

end FieldAuthorization
