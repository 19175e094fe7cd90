import FieldAuthorization.Proofs.Document.Fragments
import FieldAuthorization.Proofs.Permissions.Grants

/-!
Walking each fragment once grants what walking it at every spread would.

The reference inlines a fragment anew wherever it is spread and stops only at a spread of a fragment
inside its own inlining. A walk remembers the fragments that it has walked: what such a fragment
reaches does not depend on where it is spread, since none of the fragments on the way to it can be
one of those.
-/

set_option autoImplicit false
set_option relaxedAutoImplicit false

namespace FieldAuthorization.Declaration

/-- The fields that something reaches with the types they are selected on, or what is wrong with
it. -/
abbrev Reached := Except DeclarationFault (List FieldRule)

def reachEach {α : Type} (reach : α → Reached) : List α → Reached
  | [] => .ok []
  | x :: rest => do
    let first ← reach x
    let others ← reachEach reach rest
    return first ++ others

mutual

/-- What a selection on a type reaches; `spread` tells what the fragment of a name reaches. -/
def reachSelection (s : Schema) (spread : String → Reached) (parent : String) :
    Selection → Reached
  | .field head items =>
    if isMeta head.name then .ok []
    else
      match s.field? parent head.name with
      | none => .error (.unknownField parent head.name)
      | some d => (reachSelections s spread d.type items).map (⟨parent, head.name⟩ :: ·)
  | .spread head => spread head.name
  | .inline head items =>
    match head.condition with
    | none => reachSelections s spread parent items
    | some condition =>
      if s.types.contains condition then reachSelections s spread condition items
      else .error (.unknownType condition)

def reachSelections (s : Schema) (spread : String → Reached) (parent : String) :
    List Selection → Reached
  | [] => .ok []
  | item :: rest => do
    let first ← reachSelection s spread parent item
    let others ← reachSelections s spread parent rest
    return first ++ others

end

/-- What the fragment of a name reaches when it is inlined inside the fragments in progress.
Inlining ends since a fragment in progress is not inlined again. -/
def reachFragment (s : Schema) (d : Document) (inProgress : List String) (name : String) :
    Reached :=
  match _hf : d.fragment? name with
  | none => .error (.unknownFragment name)
  | some f =>
    if _hname : inProgress.contains name then .error (.fragmentCycle name)
    else if s.types.contains f.condition then
      reachSelections s (reachFragment s d (name :: inProgress)) f.condition f.items
    else .error (.unknownType f.condition)
termination_by unseen inProgress.contains d.fragments
decreasing_by exact Document.unseen_cons_lt _hf (by simpa using _hname)

def reachOperation (s : Schema) (d : Document) (o : Operation) : Reached :=
  match s.root? o.kind with
  | none => .error (.missingRoot o.kind)
  | some root => reachSelections s (reachFragment s d []) root o.items

def reachText (s : Schema) (declaration : String) : Reached :=
  match Document.parse declaration with
  | .error _ => .error .malformed
  | .ok d => reachEach (reachOperation s d) d.operations

variable {s : Schema} {d : Document}

private theorem reachSelections_eq_reachEach (spread : String → Reached) (parent : String)
    (items : List Selection) :
    reachSelections s spread parent items = reachEach (reachSelection s spread parent) items := by
  induction items with
  | nil => rfl
  | cons x rest ih => rw [reachSelections, reachEach, ih]

section Fragments

variable {depth : Nat} {inProgress : List String} {name : String} {f : Fragment} {w : Walk}

private theorem reachFragment_of_unknown (hf : d.fragment? name = none) :
    reachFragment s d inProgress name = .error (.unknownFragment name) := by
  rw [reachFragment]
  split <;> simp_all

private theorem reachFragment_of_mem (hf : d.fragment? name = some f) (hname : name ∈ inProgress) :
    reachFragment s d inProgress name = .error (.fragmentCycle name) := by
  rw [reachFragment]
  split <;> simp_all

theorem reachFragment_of_not_mem (hf : d.fragment? name = some f) (hname : name ∉ inProgress) :
    reachFragment s d inProgress name =
      if s.types.contains f.condition then
        reachSelections s (reachFragment s d (name :: inProgress)) f.condition f.items
      else .error (.unknownType f.condition) := by
  rw [reachFragment]
  split <;> simp_all

theorem walkFragment_of_unknown (hf : d.fragment? name = none) :
    walkFragment s d depth inProgress name w = .error (.unknownFragment name) := by
  rw [walkFragment.eq_def]
  simp [hf]

theorem walkFragment_of_mem (hf : d.fragment? name = some f) (hname : name ∈ inProgress) :
    walkFragment s d depth inProgress name w = .error (.fragmentCycle name) := by
  rw [walkFragment.eq_def]
  simp [hf, hname]

theorem walkFragment_of_inlined (hf : d.fragment? name = some f) (hname : name ∉ inProgress)
    (hinlined : name ∈ w.inlined) : walkFragment s d depth inProgress name w = .ok w := by
  rw [walkFragment.eq_def]
  simp [hf, hname, hinlined]

theorem walkFragment_of_not_mem (hf : d.fragment? name = some f) (hname : name ∉ inProgress)
    (hinlined : name ∉ w.inlined) :
    walkFragment s d (depth + 1) inProgress name w =
      if s.types.contains f.condition then
        (walkSelections s (walkFragment s d depth (name :: inProgress)) f.condition f.items
          (w.markVisible f.condition)).map fun last => { last with inlined := name :: last.inlined }
      else .error (.unknownType f.condition) := by
  rw [walkFragment.eq_def]
  simp only [hf, List.contains_eq_mem, hname, hinlined, decide_false, Bool.false_eq_true, if_false,
    Walk.requireType]
  cases s.types.contains f.condition with
  | false => rfl
  | true =>
    simp only [if_true]
    generalize walkSelections s (walkFragment s d depth (name :: inProgress)) f.condition f.items
      (w.markVisible f.condition) = run
    cases run <;> rfl

end Fragments

private theorem reachSelections_congr_of_forall {spread spread' : String → Reached}
    {parent : String} {items : List Selection}
    (h : ∀ y ∈ items, reachSelection s spread parent y = reachSelection s spread' parent y) :
    reachSelections s spread parent items = reachSelections s spread' parent items := by
  induction items with
  | nil => rfl
  | cons y rest ih =>
    obtain ⟨hy, hrest⟩ := List.forall_mem_cons.mp h
    rw [reachSelections, reachSelections, hy, ih hrest]

private theorem reachSelection_congr {spread spread' : String → Reached} {x : Selection}
    (h : EachSpread (fun name => spread name = spread' name) [x]) (parent : String) :
    reachSelection s spread parent x = reachSelection s spread' parent x := by
  induction x generalizing parent with
  | field head items ih =>
    rw [reachSelection, reachSelection]
    cases hmeta : isMeta head.name with
    | true => rfl
    | false =>
      have hitems (type : String) : reachSelections s spread type items =
          reachSelections s spread' type items :=
        reachSelections_congr_of_forall fun y hy => ih y hy (h.of_field hmeta hy) type
      simp only [hitems]
  | spread head =>
    rw [reachSelection, reachSelection, h.of_spread]
  | inline head items ih =>
    have hitems (type : String) : reachSelections s spread type items =
        reachSelections s spread' type items :=
      reachSelections_congr_of_forall fun y hy => ih y hy (h.of_inline hy) type
    rw [reachSelection, reachSelection]
    simp only [hitems]

private theorem reachSelections_congr {spread spread' : String → Reached} {items : List Selection}
    (h : EachSpread (fun name => spread name = spread' name) items) (parent : String) :
    reachSelections s spread parent items = reachSelections s spread' parent items :=
  reachSelections_congr_of_forall fun _ hy => reachSelection_congr (h.of_mem hy) parent

/-- Whatever is reached are fields that the schema has, and none of introspection. -/
def Within (s : Schema) (reached : Reached) : Prop :=
  ∀ rules, reached = .ok rules → ∀ rule ∈ rules,
    isMeta rule.field = false ∧ (s.field? rule.parent rule.field).isSome = true

private theorem within_error (fault : DeclarationFault) : Within s (.error fault) := by
  rintro rules ⟨⟩

private theorem within_nil : Within s (.ok []) := by
  rintro rules ⟨⟩ rule hrule
  exact absurd hrule List.not_mem_nil

theorem within_reachEach {α : Type} {reach : α → Reached} {l : List α}
    (h : ∀ x ∈ l, Within s (reach x)) : Within s (reachEach reach l) := by
  induction l with
  | nil => exact within_nil
  | cons x rest ih =>
    obtain ⟨hx, hrest⟩ := List.forall_mem_cons.mp h
    intro rules hrules rule hrule
    rw [reachEach] at hrules
    cases hfirst : reach x with
    | error fault =>
      rw [hfirst] at hrules
      cases hrules
    | ok first =>
      cases hothers : reachEach reach rest with
      | error fault =>
        rw [hfirst, hothers] at hrules
        cases hrules
      | ok others =>
        rw [hfirst, hothers] at hrules
        cases hrules
        exact (List.mem_append.mp hrule).elim (hx first hfirst rule) (ih hrest others hothers rule)

private theorem within_reachSelections {spread : String → Reached} {parent : String}
    {items : List Selection} (h : ∀ x ∈ items, Within s (reachSelection s spread parent x)) :
    Within s (reachSelections s spread parent items) :=
  reachSelections_eq_reachEach spread parent items ▸ within_reachEach h

private theorem within_reachSelection {spread : String → Reached}
    (h : ∀ name, Within s (spread name)) (x : Selection) (parent : String) :
    Within s (reachSelection s spread parent x) := by
  induction x generalizing parent with
  | field head items ih =>
    rw [reachSelection]
    cases hmeta : isMeta head.name with
    | true => exact within_nil
    | false =>
      cases hd : s.field? parent head.name with
      | none => exact within_error _
      | some d =>
        intro rules hrules rule hrule
        have hitems : Within s (reachSelections s spread d.type items) :=
          within_reachSelections fun y hy => ih y hy d.type
        cases hinner : reachSelections s spread d.type items with
        | error fault => simp [hinner, Except.map] at hrules
        | ok inner =>
          simp only [Bool.false_eq_true, if_false, hinner, Except.map, Except.ok.injEq] at hrules
          subst hrules
          rcases List.mem_cons.mp hrule with rfl | hrule
          · exact ⟨hmeta, by simp [hd]⟩
          · exact hitems inner hinner rule hrule
  | spread head => exact h head.name
  | inline head items ih =>
    have hitems (type : String) : Within s (reachSelections s spread type items) :=
      within_reachSelections fun y hy => ih y hy type
    rw [reachSelection]
    cases head.condition with
    | none => exact hitems parent
    | some condition =>
      simp only
      split
      · exact hitems condition
      · exact within_error _

private theorem within_reachFragment (inProgress : List String) (name : String) :
    Within s (reachFragment s d inProgress name) := by
  induction hleft : unseen inProgress.contains d.fragments using Nat.strongRecOn
    generalizing inProgress name with
  | ind left ih =>
  cases hf : d.fragment? name with
  | none => exact reachFragment_of_unknown hf ▸ within_error _
  | some f =>
    by_cases hname : name ∈ inProgress
    · exact reachFragment_of_mem hf hname ▸ within_error _
    have hless := Document.unseen_cons_lt hf hname
    rw [reachFragment_of_not_mem hf hname]
    cases s.types.contains f.condition with
    | false => exact within_error _
    | true =>
      refine within_reachSelections fun x _ => within_reachSelection (fun other => ?_) x f.condition
      exact ih _ (hleft ▸ hless) (name :: inProgress) other rfl

theorem within_reachText (declaration : String) : Within s (reachText s declaration) := by
  unfold reachText
  cases Document.parse declaration with
  | error e => exact within_error _
  | ok d =>
    refine within_reachEach fun o _ => ?_
    unfold reachOperation
    cases s.root? o.kind with
    | none => exact within_error _
    | some root => exact within_reachSelections fun x _ =>
        within_reachSelection (within_reachFragment []) x root

section Simulation

variable {σ : Type} (held : σ → PermissionSet) (good : σ → Prop)

/-- What comes out of a state is the fault of the reference, or a good state that permits also just
what the reference reaches. -/
inductive Answers (w : σ) : Except DeclarationFault σ → Reached → Prop
  | fault (fault : DeclarationFault) : Answers w (.error fault) (.error fault)
  | ok {w' : σ} {rules : List FieldRule} : good w' → (held w).Gains rules (held w') →
      Answers w (.ok w') (.ok rules)

/-- From good states, the step answers to what the reference reaches. -/
def Simulates (step : σ → Except DeclarationFault σ) (reached : Reached) : Prop :=
  ∀ w, good w → Answers held good w (step w) reached

variable {held good} {w between : σ} {run : Except DeclarationFault σ} {reached others : Reached}

private theorem Answers.after {rules : List FieldRule}
    (hgains : (held w).Gains rules (held between)) (h : Answers held good between run reached) :
    Answers held good w run (reached.map (rules ++ ·)) := by
  cases h with
  | fault fault => exact .fault fault
  | ok hgood hmore => exact .ok hgood (hgains.trans hmore)

private theorem Answers.after_nil (hgains : (held w).Gains [] (held between))
    (h : Answers held good between run reached) : Answers held good w run reached := by
  cases h with
  | fault fault => exact .fault fault
  | ok hgood hmore => exact .ok hgood (hgains.trans hmore)

private theorem Answers.bind {next : σ → Except DeclarationFault σ}
    (h : Answers held good w run reached) (hnext : Simulates held good next others) :
    Answers held good w (run >>= next) (do
      let first ← reached
      let more ← others
      return first ++ more) := by
  cases h with
  | fault fault => exact .fault fault
  | @ok between rules hgood hgains =>
    have hrest := (hnext between hgood).after hgains
    cases others with
    | error fault => exact hrest
    | ok more => exact hrest

private theorem Answers.map {τ : Type} {kept : τ → PermissionSet} {fine : τ → Prop} {start : τ}
    {finish : σ → τ} (hstart : (kept start).Gains [] (held w)) (h : Answers held good w run reached)
    (hfinish : ∀ w' rules, run = .ok w' → reached = .ok rules → good w' →
      (held w).Gains rules (held w') → fine (finish w') ∧ kept (finish w') = held w') :
    Answers kept fine start (run.map finish) reached := by
  cases h with
  | fault fault => exact .fault fault
  | ok hgood hgains =>
    obtain ⟨hfine, hkept⟩ := hfinish _ _ rfl rfl hgood hgains
    exact .ok hfine (hkept ▸ hstart.trans hgains)

theorem Simulates.each {α : Type} {step : α → σ → Except DeclarationFault σ} {reach : α → Reached}
    (l : List α) (h : ∀ x ∈ l, Simulates held good (step x) (reach x)) :
    Simulates held good (fun w => l.foldlM (fun w x => step x w) w) (reachEach reach l) := by
  induction l with
  | nil => exact fun w hw => .ok hw (.refl _)
  | cons x rest ih =>
    obtain ⟨hx, hrest⟩ := List.forall_mem_cons.mp h
    intro w hw
    simp only [List.foldlM_cons, reachEach]
    exact (hx w hw).bind (ih hrest)

end Simulation

/-- A walk inside the fragments in progress: none of these has been walked, and what the fragments
that have been walked reach wherever they are spread is permitted. -/
structure Walk.Faithful (s : Schema) (d : Document) (inProgress : List String) (w : Walk) :
    Prop where
  sound : w.Sound s d
  pending : ∀ name ∈ inProgress, name ∉ w.inlined
  recorded : ∀ name ∈ w.inlined, ∃ rules, (∀ rule ∈ rules, w.permissions.permits rule.parent
    rule.field = true) ∧ ∀ inProgress, (∀ other ∈ inProgress, other ∉ w.inlined) →
      reachFragment s d inProgress name = .ok rules

private theorem Walk.Faithful.of_le {inProgress : List String} {w w' : Walk}
    (h : w.Faithful s d inProgress) (hp : w.permissions ≤ w'.permissions)
    (hinlined : w'.inlined = w.inlined) : w'.Faithful s d inProgress where
  sound := h.sound.of_le hp hinlined
  pending := hinlined ▸ h.pending
  recorded := by
    rw [hinlined]
    intro name hname
    obtain ⟨rules, hrules, hreach⟩ := h.recorded name hname
    exact ⟨rules, fun rule hrule => PermissionSet.permits_of_le hp (hrules rule hrule), hreach⟩

abbrev WalkSimulates (s : Schema) (d : Document) (inProgress : List String) (step : Step)
    (reached : Reached) : Prop :=
  Simulates Walk.permissions (Walk.Faithful s d inProgress) step reached

private theorem walkSelections_simulates_of_forall {inProgress : List String}
    {spread : String → Step} {reach : String → Reached} {parent : String} {items : List Selection}
    (h : ∀ y ∈ items, WalkSimulates s d inProgress (walkSelection s spread parent y)
      (reachSelection s reach parent y)) :
    WalkSimulates s d inProgress (walkSelections s spread parent items)
      (reachSelections s reach parent items) := by
  intro w hw
  rw [walkSelections_eq_foldlM, reachSelections_eq_reachEach]
  exact Simulates.each items h w hw

private theorem walkSelection_simulates {inProgress : List String} {spread : String → Step}
    {reach : String → Reached}
    (hspread : ∀ name, WalkSimulates s d inProgress (spread name) (reach name)) (x : Selection)
    (parent : String) :
    WalkSimulates s d inProgress (walkSelection s spread parent x)
      (reachSelection s reach parent x) := by
  induction x generalizing parent with
  | field head items ih =>
    intro w hw
    rw [walkSelection, reachSelection]
    cases isMeta head.name with
    | true => exact .ok hw (.refl _)
    | false =>
      cases hd : s.field? parent head.name with
      | none => exact .fault _
      | some rule =>
        have hname : rule.name = head.name := Schema.name_of_field?_eq_some hd
        have hpermitted : (w.permitField s parent rule).Faithful s d inProgress :=
          hw.of_le (PermissionSet.le_permitField _ s parent rule) rfl
        have hgains := PermissionSet.gains_permitField w.permissions s parent rule
        rw [hname] at hgains
        exact (walkSelections_simulates_of_forall (fun y hy => ih y hy rule.type) _
          hpermitted).after hgains
  | spread head => exact hspread head.name
  | inline head items ih =>
    intro w hw
    have hitems (type : String) := walkSelections_simulates_of_forall fun y hy => ih y hy type
    rw [walkSelection, reachSelection]
    cases head.condition with
    | none => exact hitems parent w hw
    | some condition =>
      simp only [Walk.requireType]
      cases s.types.contains condition with
      | false => exact .fault _
      | true =>
        have hshown : (w.markVisible condition).Faithful s d inProgress :=
          hw.of_le (PermissionSet.le_markVisible _ condition) rfl
        have hgains : w.permissions.Gains [] (w.markVisible condition).permissions :=
          PermissionSet.gains_markVisible _ condition
        exact Answers.after_nil hgains (hitems condition _ hshown)

private theorem walkSelections_simulates {inProgress : List String} {spread : String → Step}
    {reach : String → Reached}
    (hspread : ∀ name, WalkSimulates s d inProgress (spread name) (reach name))
    (items : List Selection) (parent : String) :
    WalkSimulates s d inProgress (walkSelections s spread parent items)
      (reachSelections s reach parent items) :=
  walkSelections_simulates_of_forall fun y _ => walkSelection_simulates hspread y parent

private theorem Walk.Faithful.push {inProgress : List String} {name : String} {w : Walk}
    (h : w.Faithful s d inProgress) (hname : name ∉ w.inlined) :
    w.Faithful s d (name :: inProgress) :=
  { h with pending := List.forall_mem_cons.mpr ⟨hname, h.pending⟩ }

private theorem Walk.Faithful.cons {inProgress : List String} {name : String} {f : Fragment}
    {w : Walk} {rules : List FieldRule} (h : w.Faithful s d (name :: inProgress))
    (hf : d.fragment? name = some f) (hname : name ∉ inProgress)
    (htype : s.types.contains f.condition = true)
    (hgranted : ∀ x ∈ f.items, Granted s w.permissions w.inlined f.condition x)
    (hreach : reachSelections s (reachFragment s d (name :: inProgress)) f.condition f.items =
      .ok rules)
    (hrules : ∀ rule ∈ rules, w.permissions.permits rule.parent rule.field = true) :
    Faithful s d inProgress { w with inlined := name :: w.inlined } where
  sound := h.sound.cons fun g hg => by
    obtain rfl : f = g := Option.some.inj (hf.symm.trans hg)
    exact hgranted
  pending := by
    intro other hother hmem
    rcases List.mem_cons.mp hmem with rfl | hmem
    · exact hname hother
    · exact h.pending other (List.mem_cons_of_mem name hother) hmem
  recorded := by
    intro other hother
    rcases List.mem_cons.mp hother with rfl | hother
    · refine ⟨rules, hrules, fun elsewhere helsewhere => ?_⟩
      have hnew : other ∉ w.inlined := h.pending other List.mem_cons_self
      have hout : other ∉ elsewhere := fun hmem => helsewhere other hmem List.mem_cons_self
      have hbody : reachSelections s (reachFragment s d (other :: elsewhere)) f.condition f.items =
          .ok rules := by
        rw [← hreach]
        refine reachSelections_congr (fun trail head hoccurs hexposed => ?_) f.condition
        -- What is spread below has been walked, so it reaches the same from anywhere.
        have hspread : head.name ∈ w.inlined := Granted.spread_mem hoccurs hexposed hgranted
        obtain ⟨below, -, hbelow⟩ := h.recorded head.name hspread
        refine (hbelow (other :: elsewhere) fun n hn => ?_).trans
          (hbelow (other :: inProgress) h.pending).symm
        rcases List.mem_cons.mp hn with rfl | hn
        · exact hnew
        · exact fun hmem => helsewhere n hn (List.mem_cons_of_mem other hmem)
      rw [reachFragment_of_not_mem hf hout, if_pos htype, hbody]
    · obtain ⟨rules, hrules, hreach⟩ := h.recorded other hother
      refine ⟨rules, hrules, fun elsewhere helsewhere => hreach elsewhere fun n hn hmem => ?_⟩
      exact helsewhere n hn (List.mem_cons_of_mem name hmem)

/-- A walk of a fragment answers to its inlining, whether or not it has been walked before. -/
private theorem walkFragment_simulates {depth : Nat} {inProgress : List String}
    (hdepth : unseen inProgress.contains d.fragments ≤ depth) (name : String) :
    WalkSimulates s d inProgress (walkFragment s d depth inProgress name)
      (reachFragment s d inProgress name) := by
  induction depth using Nat.strongRecOn generalizing inProgress name with
  | ind depth ih =>
  intro w hw
  cases hf : d.fragment? name with
  | none =>
    rw [walkFragment_of_unknown hf, reachFragment_of_unknown hf]
    exact .fault _
  | some f =>
    by_cases hname : name ∈ inProgress
    · rw [walkFragment_of_mem hf hname, reachFragment_of_mem hf hname]
      exact .fault _
    by_cases hinlined : name ∈ w.inlined
    · obtain ⟨rules, hrules, hreach⟩ := hw.recorded name hinlined
      rw [walkFragment_of_inlined hf hname hinlined, hreach inProgress hw.pending]
      refine .ok hw fun parent field => ⟨.inl, fun h => h.elim id fun hrule => hrules _ hrule⟩
    have hless := Document.unseen_cons_lt hf hname
    obtain ⟨less, rfl⟩ : ∃ less, depth = less + 1 := Nat.exists_eq_succ_of_ne_zero (by omega)
    rw [walkFragment_of_not_mem hf hname hinlined, reachFragment_of_not_mem hf hname]
    cases htype : s.types.contains f.condition with
    | false => exact .fault _
    | true =>
      have hstart : (w.markVisible f.condition).Faithful s d (name :: inProgress) :=
        (hw.push hinlined).of_le (PermissionSet.le_markVisible _ f.condition) rfl
      have hgains : w.permissions.Gains [] (w.markVisible f.condition).permissions :=
        PermissionSet.gains_markVisible _ f.condition
      have hwalk := walkSelections_simulates
        (fun other => ih less (Nat.lt_succ_self less) (by omega) other) f.items f.condition _ hstart
      refine hwalk.map hgains fun last rules hrun hreach hlast hmore => ⟨?_, rfl⟩
      obtain ⟨-, -, hgranted⟩ := walkSelections_grants
        (fun other => walkFragment_grants less (name :: inProgress) other) f.items f.condition
        _ last hrun hstart.sound
      exact hlast.cons hf hname htype hgranted hreach fun rule hrule => (hmore _ _).mpr (.inr hrule)

private theorem walkOperation_simulates (o : Operation) :
    WalkSimulates s d [] (walkOperation s d o) (reachOperation s d o) := by
  intro w hw
  unfold walkOperation reachOperation
  cases s.root? o.kind with
  | none => exact .fault _
  | some root =>
    have hshown : (w.markVisible root).Faithful s d [] :=
      hw.of_le (PermissionSet.le_markVisible _ root) rfl
    have hgains : w.permissions.Gains [] (w.markVisible root).permissions :=
      PermissionSet.gains_markVisible _ root
    exact Answers.after_nil hgains (walkSelections_simulates
      (fun name => walkFragment_simulates (unseen_le_length _ _) name) o.items root _ hshown)

theorem grantText_simulates (declaration : String) :
    Simulates id (fun _ => True) (fun p => grantText s p declaration)
      (reachText s declaration) := by
  intro p _
  unfold grantText reachText
  cases Document.parse declaration with
  | error e => exact .fault _
  | ok d =>
    have hstart : Walk.Faithful s d [] ⟨p, []⟩ :=
      ⟨fun name hname => absurd hname List.not_mem_nil, by simp, by simp⟩
    have hrun := Simulates.each d.operations (fun o _ => walkOperation_simulates o) ⟨p, []⟩ hstart
    have hgains : p.Gains [] (Walk.permissions ⟨p, []⟩) := .refl p
    exact hrun.map hgains fun w rules _ _ _ _ => ⟨trivial, rfl⟩

end FieldAuthorization.Declaration
