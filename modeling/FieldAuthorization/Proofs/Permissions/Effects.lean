import Mathlib.Data.List.Induction
import FieldAuthorization.Proofs.Permissions.Inlining
import FieldAuthorization.Proofs.Permissions.InputTypes

/-!
What a declaration does, whatever is permitted before it.

The walk of a declaration is steered by the schema and by its own fragments. What has been permitted
before decides only how far the showing of an input type goes. So a declaration comes to a sequence
of effects, the same wherever it stands among others, or it is faulty wherever it stands.

What a sequence of effects shows can be read off it. Showing an input type stops at types that are
shown, but those that were shown as inputs have been followed already. What remains are the types
that were passed: a type is shown if it is passed, or if an argument takes it through types of which
none was passed before.
-/

set_option autoImplicit false
set_option relaxedAutoImplicit false

namespace FieldAuthorization

/-- What a walk does to permissions: it permits a field, shows a type that it passes, or shows a
type that an argument takes. -/
inductive Effect
  | permit (parent field : String)
  | pass (type : String)
  | take (type : String)

/-- A type takes another, itself or through input fields of types that are not closed. -/
def Schema.TakesPast (s : Schema) (closed : String → Prop) : String → String → Prop :=
  Relation.ReflTransGen fun type other => ¬ closed type ∧ s.TakesInput type other

theorem Schema.TakesPast.mono {s : Schema} {closed fewer : String → Prop} {type other : String}
    (h : s.TakesPast closed type other) (hfewer : ∀ x, fewer x → closed x) :
    s.TakesPast fewer type other := by
  refine Relation.ReflTransGen.mono ?_ type other h
  intro x y hstep
  exact ⟨fun hx => hstep.1 (hfewer x hx), hstep.2⟩

namespace PermissionSet

def apply (s : Schema) (p : PermissionSet) : Effect → PermissionSet
  | .permit parent field => (p.permit parent field).2
  | .pass type => (p.markVisible type).2
  | .take type => showInput s s.types.size type p

def applyAll (s : Schema) (p : PermissionSet) (effects : List Effect) : PermissionSet :=
  effects.foldl (apply s) p

variable {s : Schema} {p q : PermissionSet} {effects more : List Effect} {type other : String}

theorem applyAll_append (p : PermissionSet) (effects more : List Effect) :
    p.applyAll s (effects ++ more) = (p.applyAll s effects).applyAll s more :=
  List.foldl_append

private theorem applyAll_concat (p : PermissionSet) (effects : List Effect) (e : Effect) :
    p.applyAll s (effects ++ [e]) = (p.applyAll s effects).apply s e := by
  rw [applyAll_append]
  rfl

private theorem takesPast_of_showInputs {depth : Nat}
    (hstep : ∀ type p, (showInput s depth type p).shows other = true →
      p.shows other = true ∨ s.TakesPast (p.shows · = true) type other)
    (inputs : List InputDef) (hle : p ≤ q)
    (h : (inputs.foldl (fun q input => showInput s depth input.type q) q).shows other = true) :
    q.shows other = true ∨
      ∃ input ∈ inputs, s.TakesPast (p.shows · = true) input.type other := by
  induction inputs generalizing q with
  | nil => exact .inl h
  | cons input rest ih =>
    have hshown : q ≤ showInput s depth input.type q := le_showInput s depth input.type q
    rcases ih (hle.trans hshown) h with hfirst | ⟨later, hlater, hpath⟩
    · rcases hstep input.type q hfirst with hq | hpath
      · exact .inl hq
      · have hpath' : s.TakesPast (p.shows · = true) input.type other :=
          hpath.mono fun x hx => shows_of_le hle hx
        exact .inr ⟨input, List.mem_cons_self, hpath'⟩
    · exact .inr ⟨later, List.mem_cons_of_mem input hlater, hpath⟩

private theorem takesPast_of_showInput {depth : Nat} (type : String) (p : PermissionSet)
    (h : (showInput s depth type p).shows other = true) :
    p.shows other = true ∨ s.TakesPast (p.shows · = true) type other := by
  have hmarked (type : String) (p : PermissionSet)
      (h : (p.markVisible type).2.shows other = true) :
      p.shows other = true ∨ s.TakesPast (p.shows · = true) type other := by
    rcases (shows_markVisible p type other).mp h with rfl | hp
    · exact .inr .refl
    · exact .inl hp
  induction depth generalizing type p with
  | zero => exact hmarked type p h
  | succ depth ih =>
    cases hd : s.type? type with
    | none =>
      simp only [showInput, hd] at h
      exact hmarked type p h
    | some d =>
      rw [showInput_succ hd] at h
      by_cases hopens : p.shows type = false ∧ d.kind = .inputObject
      · rw [if_pos hopens] at h
        have hle : p ≤ (p.markVisible type).2 := le_markVisible p type
        rcases takesPast_of_showInputs ih d.inputs hle h with hmark | ⟨input, hinput, hpath⟩
        · exact hmarked type p hmark
        · have hopen : ¬ p.shows type = true := by simp [hopens.1]
          have htakes : s.TakesInput type input.type := ⟨d, hd, hopens.2, input, hinput, rfl⟩
          exact .inr (.head ⟨hopen, htakes⟩ hpath)
      · rw [if_neg hopens] at h
        exact hmarked type p h

private theorem shows_take_iff :
    (p.apply s (.take type)).shows other = true ↔
      p.shows other = true ∨ s.TakesPast (p.shows · = true) type other := by
  constructor
  · intro h
    exact takesPast_of_showInput type p h
  · rintro (hp | hpath)
    · exact shows_of_le (le_showInput s _ type p) hp
    · induction hpath with
      | refl => exact shows_showInput s _ type p
      | @tail x y _ hstep ih =>
        obtain ⟨hopen, htakes⟩ := hstep
        have hcomplete := completes_showInput s.types.size type p (hidden_le_size s p)
        exact (hcomplete x y htakes ih).resolve_left hopen

theorem permits_applyAll (p : PermissionSet) (effects : List Effect) (parent field : String) :
    (p.applyAll s effects).permits parent field = true ↔
      p.permits parent field = true ∨ .permit parent field ∈ effects := by
  induction effects generalizing p with
  | nil => simp [applyAll]
  | cons e rest ih =>
    have hfirst : (p.apply s e).permits parent field = true ↔
        p.permits parent field = true ∨ .permit parent field = e := by
      cases e with
      | permit parent' field' =>
        simp only [apply, permit, permits, Std.ExtTreeSet.contains_iff_mem,
          Std.ExtTreeSet.mem_insert, Std.LawfulEqCmp.compare_eq_iff_eq, Effect.permit.injEq,
          FieldRule.mk.injEq]
        rw [or_comm, @eq_comm _ parent', @eq_comm _ field']
      | pass type => simp [apply, markVisible, permits]
      | take type =>
        have hsame : (showInput s s.types.size type p).rules = p.rules := rules_showInput s _ type p
        simp [apply, permits, hsame]
    have hrest : (p.applyAll s (e :: rest)).permits parent field = true ↔
        (p.apply s e).permits parent field = true ∨ .permit parent field ∈ rest :=
      ih (p.apply s e)
    rw [hrest, hfirst, List.mem_cons, or_assoc]

/-- One of the effects passes the type, or one takes it through types that none before it passes. -/
def ShownBy (s : Schema) (effects : List Effect) (type : String) : Prop :=
  .pass type ∈ effects ∨ ∃ before start after, effects = before ++ .take start :: after ∧
    s.TakesPast (.pass · ∈ before) start type

private theorem ShownBy.append (h : ShownBy s effects type) (more : List Effect) :
    ShownBy s (effects ++ more) type := by
  rcases h with hpass | ⟨before, start, after, rfl, hpath⟩
  · exact .inl (List.mem_append_left more hpass)
  · exact .inr ⟨before, start, after ++ more, by simp, hpath⟩

private theorem ShownBy.step (h : ShownBy s effects type) (hpass : .pass type ∉ effects)
    (htakes : s.TakesInput type other) : ShownBy s effects other := by
  rcases h with hpassed | ⟨before, start, after, rfl, hpath⟩
  · exact absurd hpassed hpass
  · have hbefore : ¬ .pass type ∈ before := fun hm => hpass (List.mem_append_left _ hm)
    exact .inr ⟨before, start, after, rfl, hpath.tail ⟨hbefore, htakes⟩⟩

private theorem shownBy_concat_iff (e : Effect) :
    ShownBy s (effects ++ [e]) type ↔ ShownBy s effects type ∨ .pass type = e ∨
      ∃ start, .take start = e ∧ s.TakesPast (.pass · ∈ effects) start type := by
  constructor
  · rintro (hpass | ⟨before, start, after, hsplit, hpath⟩)
    · rcases List.mem_append.mp hpass with hbefore | hlast
      · exact .inl (.inl hbefore)
      · exact .inr (.inl (List.mem_singleton.mp hlast))
    · rcases List.eq_nil_or_concat after with rfl | ⟨most, last, rfl⟩
      · obtain ⟨rfl, hlast⟩ := List.append_inj' hsplit rfl
        exact .inr (.inr ⟨start, (List.singleton_inj.mp hlast).symm, hpath⟩)
      · have hsplit' : effects ++ [e] = (before ++ .take start :: most) ++ [last] := by
          rw [hsplit]
          simp
        obtain ⟨rfl, -⟩ := List.append_inj' hsplit' rfl
        exact .inl (.inr ⟨before, start, most, rfl, hpath⟩)
  · rintro (hbefore | rfl | ⟨start, rfl, hpath⟩)
    · exact hbefore.append [e]
    · exact .inl (by simp)
    · exact .inr ⟨effects, start, [], rfl, hpath⟩

theorem shows_applyAll_iff (effects : List Effect) (type : String) :
    (empty.applyAll s effects).shows type = true ↔ ShownBy s effects type := by
  -- from the last effect: what a type was taken through before is shown by then, and only types
  -- that were passed stop what is taken next
  induction effects using List.reverseRecOn generalizing type with
  | nil => simp [applyAll, empty, shows, ShownBy]
  | append_singleton effects e ih =>
    rw [applyAll_concat, shownBy_concat_iff]
    generalize hbefore : empty.applyAll s effects = p at ih
    cases e with
    | permit parent field =>
      have hsame : (p.apply s (.permit parent field)).shows type = p.shows type := rfl
      simp [hsame, ih]
    | pass other =>
      have hmark : (p.apply s (.pass other)).shows type = true ↔
          type = other ∨ p.shows type = true := shows_markVisible p other type
      simp [hmark, ih, or_comm]
    | take start =>
      rw [shows_take_iff, ih]
      constructor
      · rintro (hshown | hpath)
        · exact .inl hshown
        · refine .inr (.inr ⟨start, rfl, hpath.mono fun other hpass => ?_⟩)
          exact (ih other).mpr (.inl hpass)
      · rintro (hshown | heq | ⟨start', heq, hpath⟩)
        · exact .inl hshown
        · cases heq
        · cases heq
          induction hpath with
          | refl => exact .inr .refl
          | @tail x y _ hstep ihpath =>
            obtain ⟨hpass, htakes⟩ := hstep
            by_cases hx : ShownBy s effects x
            · exact .inl (hx.step hpass htakes)
            · have hopen : ¬ p.shows x = true := fun hshown => hx ((ih x).mp hshown)
              exact .inr ((ihpath.resolve_left hx).tail ⟨hopen, htakes⟩)

def fieldEffects (parent : String) (d : FieldDef) : List Effect :=
  .permit parent d.name :: .pass d.type :: d.arguments.map fun argument => .take argument.type

private theorem permitField_eq_applyAll (p : PermissionSet) (s : Schema) (parent : String)
    (d : FieldDef) :
    p.permitField s parent d = p.applyAll s (fieldEffects parent d) := by
  simp only [permitField, applyAll, fieldEffects, List.foldl_cons, List.foldl_map, apply]

end PermissionSet

namespace Declaration

/-- From the fragments walked so far, the step is faulty whatever is permitted, or it has the same
effects on all permissions and comes to the same fragments. -/
def Step.SteadyFrom (s : Schema) (inlined : List String) (step : Step) : Prop :=
  (∃ fault, ∀ p, step ⟨p, inlined⟩ = .error fault) ∨
    ∃ effects more, ∀ p, step ⟨p, inlined⟩ = .ok ⟨p.applyAll s effects, more⟩

/-- What the step does does not depend on what is permitted. -/
def Step.Steady (s : Schema) (step : Step) : Prop :=
  ∀ inlined, Step.SteadyFrom s inlined step

variable {s : Schema} {d : Document} {inlined : List String}

namespace Step

private theorem SteadyFrom.error {step : Step} {fault : DeclarationFault}
    (h : ∀ p, step ⟨p, inlined⟩ = .error fault) : SteadyFrom s inlined step :=
  .inl ⟨fault, h⟩

private theorem SteadyFrom.pure : SteadyFrom s inlined .ok :=
  .inr ⟨[], inlined, fun _ => rfl⟩

private theorem SteadyFrom.after {step : Step} (h : SteadyFrom s inlined step)
    (effects : List Effect) :
    SteadyFrom s inlined fun w => step ⟨w.permissions.applyAll s effects, w.inlined⟩ := by
  rcases h with ⟨fault, hfault⟩ | ⟨later, more, hlater⟩
  · exact .inl ⟨fault, fun p => hfault _⟩
  · refine .inr ⟨effects ++ later, more, fun p => ?_⟩
    rw [PermissionSet.applyAll_append]
    exact hlater _

private theorem SteadyFrom.bind {step next : Step} (h : SteadyFrom s inlined step)
    (hnext : Steady s next) :
    SteadyFrom s inlined fun w => step w >>= next := by
  rcases h with ⟨fault, hfault⟩ | ⟨effects, more, hfirst⟩
  · have hrun (p : PermissionSet) : (step ⟨p, inlined⟩ >>= next) = .error fault := by
      rw [hfault]
      rfl
    exact .error hrun
  · have hrun (p : PermissionSet) :
        (step ⟨p, inlined⟩ >>= next) = next ⟨p.applyAll s effects, more⟩ := by
      rw [hfirst]
      rfl
    rcases hnext more with ⟨fault, hfault⟩ | ⟨later, last, hlater⟩
    · exact .error fun p => (hrun p).trans (hfault _)
    · refine .inr ⟨effects ++ later, last, fun p => ?_⟩
      rw [PermissionSet.applyAll_append]
      exact (hrun p).trans (hlater _)

private theorem Steady.foldlM {α : Type} {step : α → Step} {l : List α}
    (h : ∀ x ∈ l, Steady s (step x)) : Steady s fun w => l.foldlM (fun w x => step x w) w := by
  induction l with
  | nil => exact fun _ => .pure
  | cons x rest ih =>
    obtain ⟨hx, hrest⟩ := List.forall_mem_cons.mp h
    intro inlined
    simp only [List.foldlM_cons]
    exact (hx inlined).bind (ih hrest)

end Step

private theorem requireType_steady (s : Schema) (type : String) :
    Step.Steady s (Walk.requireType s type) := by
  intro inlined
  unfold Walk.requireType
  cases s.types.contains type with
  | false => exact .error fun _ => rfl
  | true => exact .inr ⟨[.pass type], inlined, fun _ => rfl⟩

private theorem walkSelections_steady_of_forall {spread : String → Step} {parent : String}
    {items : List Selection} (h : ∀ x ∈ items, Step.Steady s (walkSelection s spread parent x)) :
    Step.Steady s (walkSelections s spread parent items) := by
  have hfold : walkSelections s spread parent items =
      fun w => items.foldlM (fun w x => walkSelection s spread parent x w) w :=
    funext (walkSelections_eq_foldlM spread parent items)
  rw [hfold]
  exact Step.Steady.foldlM h

private theorem walkSelection_steady {spread : String → Step}
    (hspread : ∀ name, Step.Steady s (spread name)) (x : Selection) (parent : String) :
    Step.Steady s (walkSelection s spread parent x) := by
  induction x generalizing parent with
  | field head items ih =>
    intro inlined
    cases hmeta : isMeta head.name with
    | true => exact .inr ⟨[], inlined, fun p => by rw [walkSelection, if_pos hmeta]; rfl⟩
    | false =>
      cases hrule : s.field? parent head.name with
      | none =>
        refine .inl ⟨.unknownField parent head.name, fun p => ?_⟩
        simp [walkSelection, hmeta, hrule]
      | some rule =>
        have hitems := walkSelections_steady_of_forall fun y hy => ih y hy rule.type
        have hstep : walkSelection s spread parent (.field head items) = fun w =>
            walkSelections s spread rule.type items
              ⟨w.permissions.applyAll s (PermissionSet.fieldEffects parent rule), w.inlined⟩ := by
          funext w
          simp [walkSelection, hmeta, hrule, Walk.permitField,
            PermissionSet.permitField_eq_applyAll]
        rw [hstep]
        exact (hitems inlined).after _
  | spread head => exact hspread head.name
  | inline head items ih =>
    have hitems (type : String) := walkSelections_steady_of_forall fun y hy => ih y hy type
    cases hcondition : head.condition with
    | none =>
      have hstep : walkSelection s spread parent (.inline head items) =
          walkSelections s spread parent items := by
        funext w
        simp [walkSelection, hcondition]
      rw [hstep]
      exact hitems parent
    | some condition =>
      have hstep : walkSelection s spread parent (.inline head items) = fun w =>
          Walk.requireType s condition w >>= walkSelections s spread condition items := by
        funext w
        simp only [walkSelection, hcondition]
        cases Walk.requireType s condition w <;> rfl
      intro inlined
      rw [hstep]
      exact (requireType_steady s condition inlined).bind (hitems condition)

private theorem walkSelections_steady {spread : String → Step}
    (hspread : ∀ name, Step.Steady s (spread name)) (items : List Selection) (parent : String) :
    Step.Steady s (walkSelections s spread parent items) :=
  walkSelections_steady_of_forall fun x _ => walkSelection_steady hspread x parent

private theorem walkFragment_steady (depth : Nat) (inProgress : List String) (name : String) :
    Step.Steady s (walkFragment s d depth inProgress name) := by
  induction depth generalizing inProgress name with
  | zero =>
    intro inlined
    cases hf : d.fragment? name with
    | none => exact .error fun _ => walkFragment_of_unknown hf
    | some f =>
      by_cases hprogress : name ∈ inProgress
      · exact .error fun _ => walkFragment_of_mem hf hprogress
      by_cases hinlined : name ∈ inlined
      · exact .inr ⟨[], inlined, fun _ => walkFragment_of_inlined hf hprogress hinlined⟩
      · refine .inl ⟨.fragmentCycle name, fun p => ?_⟩
        simp [walkFragment.eq_def, hf, hprogress, hinlined]
  | succ depth ih =>
    intro inlined
    cases hf : d.fragment? name with
    | none => exact .error fun _ => walkFragment_of_unknown hf
    | some f =>
      by_cases hprogress : name ∈ inProgress
      · exact .error fun _ => walkFragment_of_mem hf hprogress
      by_cases hinlined : name ∈ inlined
      · exact .inr ⟨[], inlined, fun _ => walkFragment_of_inlined hf hprogress hinlined⟩
      have hwalk (p : PermissionSet) :=
        @walkFragment_of_not_mem s d depth inProgress name f ⟨p, inlined⟩ hf hprogress hinlined
      cases htype : s.types.contains f.condition with
      | false =>
        refine .inl ⟨.unknownType f.condition, fun p => ?_⟩
        rw [hwalk, if_neg (by simp [htype])]
      | true =>
        simp only [htype, if_true] at hwalk
        have hitems := (walkSelections_steady (ih (name :: inProgress)) f.items f.condition
          inlined).after [.pass f.condition]
        rcases hitems with ⟨fault, hfault⟩ | ⟨effects, more, hitems⟩
        · refine .inl ⟨fault, fun p => ?_⟩
          rw [hwalk]
          exact congrArg _ (hfault p)
        · refine .inr ⟨effects, name :: more, fun p => ?_⟩
          rw [hwalk]
          exact congrArg _ (hitems p)

private theorem walkOperation_steady (s : Schema) (d : Document) (o : Operation) :
    Step.Steady s (walkOperation s d o) := by
  intro inlined
  unfold walkOperation
  cases s.root? o.kind with
  | none => exact .error fun _ => rfl
  | some root =>
    exact (walkSelections_steady (fun name => walkFragment_steady _ _ name) o.items root
      inlined).after [.pass root]

/-- A declaration has the effects whatever is permitted. -/
def Performs (s : Schema) (declaration : String) (effects : List Effect) : Prop :=
  ∀ p, grantText s p declaration = .ok (p.applyAll s effects)

/-- A declaration is faulty whatever is permitted, or it has the same effects on all permissions. -/
theorem performs_or_faulty (s : Schema) (declaration : String) :
    (∃ effects, Performs s declaration effects) ∨
      ∃ fault, ∀ p, grantText s p declaration = .error fault := by
  unfold Performs grantText
  cases Document.parse declaration with
  | error e => exact .inr ⟨.malformed, fun _ => rfl⟩
  | ok d =>
    have hwalks := Step.Steady.foldlM (l := d.operations)
      (fun o _ => walkOperation_steady s d o) []
    simp only [grant]
    rcases hwalks with ⟨fault, hfault⟩ | ⟨effects, more, hwalks⟩
    · exact .inr ⟨fault, fun p => congrArg _ (hfault p)⟩
    · exact .inl ⟨effects, fun p => congrArg _ (hwalks p)⟩

end Declaration

end FieldAuthorization
