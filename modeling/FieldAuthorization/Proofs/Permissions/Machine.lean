import Mathlib.Logic.Relation
import Mathlib.Tactic.Tauto
import FieldAuthorization.Proofs.Permissions.Inlining
import FieldAuthorization.Proofs.Permissions.InputTypes

/-!
Compilation as a machine with a stack of tasks.

The machine follows the schema and the declarations wherever they lead, with no bound on the depth.
What keeps it from going round in circles is what it remembers: the fragments in progress, the
fragments that are done, and the types that are shown. So it comes to an end on every input, with
what compilation with bounds on the depth gives.
-/

set_option autoImplicit false
set_option relaxedAutoImplicit false

namespace FieldAuthorization.Declaration.Machine

open Relation

/-! ### Steps -/

inductive Task
  | declaration (text : String)
  | operation (o : Operation)
  | selection (parent : String) (x : Selection)
  /-- The walk of a fragment ends. -/
  | leave (name : String)
  /-- Shows a type that an argument takes, or that a field of the owner takes. -/
  | input (owner : Option String) (type : String)

/-- What the machine remembers. The document is the declaration at hand; fragments are entered and
inlined once that has been read. The fragment entered last comes first. -/
structure Memory where
  permissions : PermissionSet
  document : Document
  inProgress : List String
  inlined : List String
  entered : List String

namespace Memory

def markVisible (m : Memory) (type : String) : Memory :=
  { m with permissions := (m.permissions.markVisible type).2 }

def permit (m : Memory) (parent : String) (rule : FieldDef) : Memory :=
  { m with permissions := (m.permissions.permit parent rule.name).2 }.markVisible rule.type

def enter (m : Memory) (name : String) : Memory :=
  { m with inProgress := name :: m.inProgress, entered := name :: m.entered }

def leave (m : Memory) (name : String) : Memory :=
  { m with inProgress := m.inProgress.tail, inlined := name :: m.inlined }

end Memory

def performSelection (s : Schema) (m : Memory) (parent : String) :
    Selection → Except DeclarationFault (Memory × List Task)
  | .field head items =>
    if isMeta head.name then .ok (m, [])
    else
      match s.field? parent head.name with
      | none => .error (.unknownField parent head.name)
      | some rule =>
        .ok (m.permit parent rule, rule.arguments.map (fun argument => .input none argument.type) ++
          items.map (.selection rule.type))
  | .inline head items =>
    match head.condition with
    | none => .ok (m, items.map (.selection parent))
    | some condition =>
      if s.types.contains condition then
        .ok (m.markVisible condition, items.map (.selection condition))
      else .error (.unknownType condition)
  | .spread head =>
    match m.document.fragment? head.name with
    | none => .error (.unknownFragment head.name)
    | some f =>
      if m.inProgress.contains head.name then .error (.fragmentCycle head.name)
      else if m.inlined.contains head.name then .ok (m, [])
      else if s.types.contains f.condition then
        .ok ((m.markVisible f.condition).enter head.name,
          f.items.map (.selection f.condition) ++ [.leave head.name])
      else .error (.unknownType f.condition)

/-- Does a task. -/
def perform (s : Schema) (m : Memory) : Task → Except DeclarationFault (Memory × List Task)
  | .declaration text =>
    match Document.parse text with
    | .error _ => .error .malformed
    | .ok d => .ok (⟨m.permissions, d, [], [], []⟩, d.operations.map .operation)
  | .operation o =>
    match s.root? o.kind with
    | none => .error (.missingRoot o.kind)
    | some root => .ok (m.markVisible root, o.items.map (.selection root))
  | .selection parent x => performSelection s m parent x
  | .leave name => .ok (m.leave name, [])
  | .input _ type =>
    .ok (m.markVisible type,
      match s.type? type with
      | some d =>
        if !m.permissions.shows type && d.kind = .inputObject then
          d.inputs.map fun input => .input (some type) input.type
        else []
      | none => [])

structure Config where
  memory : Memory
  tasks : List Task

def start (declarations : List String) : Config :=
  ⟨⟨.empty, ⟨[]⟩, [], [], []⟩, declarations.map .declaration⟩

/-- The machine does the first task, and puts what that brings before the others. -/
inductive Moves (s : Schema) : Config → Config → Prop
  | step {m m' : Memory} {task : Task} {new rest : List Task} :
      perform s m task = .ok (m', new) → Moves s ⟨m, task :: rest⟩ ⟨m', new ++ rest⟩

/-- The machine stops if nothing is left to do, or at the first fault. -/
inductive Stops (s : Schema) : Config → Except DeclarationFault PermissionSet → Prop
  | done (m : Memory) : Stops s ⟨m, []⟩ (.ok m.permissions)
  | fault {m : Memory} {task : Task} {rest : List Task} {fault : DeclarationFault} :
      perform s m task = .error fault → Stops s ⟨m, task :: rest⟩ (.error fault)

/-- Moves lead to where the machine stops with the outcome. -/
def Yields (s : Schema) (c : Config) (outcome : Except DeclarationFault PermissionSet) : Prop :=
  ∃ last, ReflTransGen (Moves s) c last ∧ Stops s last outcome

variable {s : Schema} {c c' : Config} {m m' : Memory} {task : Task} {new rest : List Task}

private theorem rightUnique_moves (s : Schema) : Relator.RightUnique (Moves s) := by
  rintro _ _ _ ⟨h⟩ ⟨h'⟩
  obtain ⟨rfl, rfl⟩ := Prod.mk.inj (Except.ok.inj (h.symm.trans h'))
  rfl

private theorem Stops.not_moves {outcome : Except DeclarationFault PermissionSet}
    (h : Stops s c outcome) :
    ¬ Moves s c c' := by
  rintro ⟨hmoves⟩
  cases h with
  | fault hfault => cases hfault.symm.trans hmoves

private theorem Stops.unique {outcome other : Except DeclarationFault PermissionSet}
    (h : Stops s c outcome) (h' : Stops s c other) : other = outcome := by
  cases h with
  | done m =>
    cases h' with
    | done => rfl
  | fault hfault =>
    cases h' with
    | fault hfault' => exact congrArg Except.error (Except.error.inj (hfault'.symm.trans hfault))

private theorem Stops.eq_of_reaches {outcome : Except DeclarationFault PermissionSet}
    (h : Stops s c outcome) (hreach : ReflTransGen (Moves s) c c') : c = c' := by
  rcases hreach.cases_head with heq | ⟨_, hmoves, -⟩
  · exact heq
  · exact absurd hmoves h.not_moves

private theorem Yields.unique {outcome other : Except DeclarationFault PermissionSet}
    (h : Yields s c outcome) (h' : Yields s c other) : other = outcome := by
  obtain ⟨last, hreach, hstops⟩ := h
  obtain ⟨last', hreach', hstops'⟩ := h'
  have hsame : last = last' := by
    rcases ReflTransGen.total_of_right_unique (rightUnique_moves s) hreach hreach' with hon | hon
    · exact hstops.eq_of_reaches hon
    · exact (hstops'.eq_of_reaches hon).symm
  subst hsame
  exact hstops.unique hstops'

private theorem Yields.acc {outcome : Except DeclarationFault PermissionSet}
    (h : Yields s c outcome) :
    Acc (fun c' c => Moves s c c') c := by
  obtain ⟨last, hreach, hstops⟩ := h
  -- the induction is on the moves that are left, back from where the machine stops
  induction hreach using ReflTransGen.head_induction_on with
  | refl => exact ⟨_, fun _ hmoves => absurd hmoves hstops.not_moves⟩
  | head hmoves _ ih =>
    refine ⟨_, fun other hother => ?_⟩
    rwa [rightUnique_moves s hother hmoves]

/-! ### Input types -/

private theorem reaches_inputs {depth : Nat}
    (h : ∀ (owner : Option String) (type : String) (m : Memory) (rest : List Task),
      s.hidden m.permissions ≤ depth → ReflTransGen (Moves s) ⟨m, .input owner type :: rest⟩
        ⟨{ m with permissions := .showInput s depth type m.permissions }, rest⟩)
    (owner : Option String) (inputs : List InputDef) (m : Memory) (rest : List Task)
    (hdepth : s.hidden m.permissions ≤ depth) :
    ReflTransGen (Moves s)
      ⟨m, inputs.map (fun input => .input owner input.type) ++ rest⟩
      ⟨{ m with permissions :=
          inputs.foldl (fun p input => .showInput s depth input.type p) m.permissions }, rest⟩ := by
  induction inputs generalizing m with
  | nil => exact .refl
  | cons input more ih =>
    have hle : m.permissions ≤ .showInput s depth input.type m.permissions :=
      PermissionSet.le_showInput s depth input.type m.permissions
    refine (h owner input.type m _ hdepth).trans (ih _ ?_)
    exact Nat.le_trans (PermissionSet.hidden_mono hle) hdepth

private theorem reaches_input_once {owner : Option String} {type : String}
    (hstays : ∀ d, s.type? type = some d →
      m.permissions.shows type = true ∨ d.kind ≠ .inputObject) :
    ReflTransGen (Moves s) ⟨m, .input owner type :: rest⟩ ⟨m.markVisible type, rest⟩ := by
  have hperform : perform s m (.input owner type) = .ok (m.markVisible type, []) := by
    cases hd : s.type? type with
    | none => simp [perform, hd]
    | some d =>
      rcases hstays d hd with hshown | hkind
      · simp [perform, hd, hshown]
      · simp [perform, hd, hkind]
  exact .single (.step hperform)

private theorem reaches_input (depth : Nat) (owner : Option String) (type : String) (m : Memory)
    (rest : List Task) (hdepth : s.hidden m.permissions ≤ depth) :
    ReflTransGen (Moves s) ⟨m, .input owner type :: rest⟩
      ⟨{ m with permissions := .showInput s depth type m.permissions }, rest⟩ := by
  induction depth generalizing owner type m rest with
  | zero =>
    refine reaches_input_once fun d hd => .inl ?_
    exact PermissionSet.shows_of_hidden_eq_zero (Nat.le_zero.mp hdepth)
      (PermissionSet.mem_keys_of_type? hd)
  | succ depth ih =>
    cases hd : s.type? type with
    | none =>
      have hshow : PermissionSet.showInput s (depth + 1) type m.permissions =
          (m.permissions.markVisible type).2 := by simp [PermissionSet.showInput, hd]
      rw [hshow]
      exact reaches_input_once (by simp [hd])
    | some d =>
      rw [PermissionSet.showInput_succ hd]
      by_cases hopens : m.permissions.shows type = false ∧ d.kind = .inputObject
      · -- the input fields are shown with one type fewer that is not shown
        obtain ⟨hnew, hkind⟩ := hopens
        have hfewer : s.hidden (m.markVisible type).permissions < s.hidden m.permissions :=
          PermissionSet.hidden_markVisible_lt (PermissionSet.mem_keys_of_type? hd) hnew
        have hperform : perform s m (.input owner type) = .ok (m.markVisible type,
            d.inputs.map fun input => .input (some type) input.type) := by
          simp [perform, hd, hnew, hkind]
        rw [if_pos ⟨hnew, hkind⟩]
        exact .head (.step hperform)
          (reaches_inputs ih (some type) d.inputs (m.markVisible type) rest (by omega))
      · rw [if_neg hopens]
        refine reaches_input_once fun d' hd' => ?_
        obtain rfl := Option.some.inj (hd.symm.trans hd')
        by_cases hkind : d.kind = .inputObject
        · exact .inl (by simpa [hkind] using hopens)
        · exact .inr hkind

/-! ### Walks -/

/-- Moves come to what a walk comes to: to its fault, or to where the rest is left to do and what is
remembered holds what the walk has come to. -/
inductive Comes {σ : Type} (s : Schema) (holds : Memory → σ → Prop) (rest : List Task)
    (c : Config) : Except DeclarationFault σ → Prop
  | fault {fault : DeclarationFault} : Yields s c (.error fault) →
      Comes s holds rest c (.error fault)
  | ok {m : Memory} {w : σ} : holds m w → ReflTransGen (Moves s) c ⟨m, rest⟩ →
      Comes s holds rest c (.ok w)

/-- Doing the tasks is taking the step. -/
def Follows {σ : Type} (s : Schema) (holds : Memory → σ → Prop) (tasks : List Task)
    (step : σ → Except DeclarationFault σ) : Prop :=
  ∀ m w, holds m w → ∀ rest, Comes s holds rest ⟨m, tasks ++ rest⟩ (step w)

section Outcomes

variable {σ : Type} {holds : Memory → σ → Prop} {run : Except DeclarationFault σ}

private theorem Comes.of_reaches (hreach : ReflTransGen (Moves s) c c')
    (h : Comes s holds rest c' run) :
    Comes s holds rest c run := by
  cases h with
  | fault hyields =>
    obtain ⟨last, hlast, hstops⟩ := hyields
    exact .fault ⟨last, hreach.trans hlast, hstops⟩
  | ok hholds hlast => exact .ok hholds (hreach.trans hlast)

private theorem Comes.of_perform (hperform : perform s m task = .ok (m', new))
    (h : Comes s holds rest ⟨m', new ++ rest⟩ run) : Comes s holds rest ⟨m, task :: rest⟩ run :=
  h.of_reaches (.single (.step hperform))

private theorem Comes.of_fault {fault : DeclarationFault}
    (hperform : perform s m task = .error fault) :
    Comes s holds rest ⟨m, task :: rest⟩ (.error fault) :=
  .fault ⟨_, .refl, .fault hperform⟩

private theorem Comes.bind {tasks : List Task} {step : σ → Except DeclarationFault σ}
    (h : Comes s holds (tasks ++ rest) c run) (hstep : Follows s holds tasks step) :
    Comes s holds rest c (run >>= step) := by
  cases h with
  | fault hyields => exact .fault hyields
  | @ok m w hholds hreach => exact (hstep m w hholds rest).of_reaches hreach

private theorem Comes.map {τ : Type} {keeps : Memory → τ → Prop} {finish : σ → τ}
    {between : List Task} (h : Comes s holds between c run)
    (hfinish : ∀ m w, holds m w → ∃ m', keeps m' (finish w) ∧
      ReflTransGen (Moves s) ⟨m, between⟩ ⟨m', rest⟩) :
    Comes s keeps rest c (run.map finish) := by
  cases h with
  | fault hyields => exact .fault hyields
  | @ok m w hholds hreach =>
    obtain ⟨m', hkeeps, hlast⟩ := hfinish m w hholds
    exact .ok hkeeps (hreach.trans hlast)

private theorem Follows.each {α : Type} {task : α → Task} {step : α → σ → Except DeclarationFault σ}
    (l : List α) (h : ∀ x ∈ l, Follows s holds [task x] (step x)) :
    Follows s holds (l.map task) (fun w => l.foldlM (fun w x => step x w) w) := by
  induction l with
  | nil => exact fun m w hholds rest => .ok hholds .refl
  | cons x more ih =>
    obtain ⟨hx, hmore⟩ := List.forall_mem_cons.mp h
    intro m w hholds rest
    simp only [List.foldlM_cons]
    exact (hx m w hholds _).bind (ih hmore)

end Outcomes

/-- The memory holds a walk of the document inside the fragments in progress. -/
structure Holds (d : Document) (inProgress : List String) (m : Memory) (w : Walk) : Prop where
  document : m.document = d
  inProgress : m.inProgress = inProgress
  walk : ⟨m.permissions, m.inlined⟩ = w

section Walks

variable {d : Document} {inProgress : List String} {spread : String → Step}

private theorem follows_selections_of_forall {parent : String} {items : List Selection}
    (h : ∀ y ∈ items, Follows s (Holds d inProgress) [.selection parent y]
      (walkSelection s spread parent y)) :
    Follows s (Holds d inProgress) (items.map (.selection parent))
      (walkSelections s spread parent items) := by
  intro m w hw rest
  rw [walkSelections_eq_foldlM]
  exact Follows.each items h m w hw rest

private theorem follows_selection (hspread : ∀ parent head, Follows s (Holds d inProgress)
      [.selection parent (.spread head)] (spread head.name)) (x : Selection) (parent : String) :
    Follows s (Holds d inProgress) [.selection parent x] (walkSelection s spread parent x) := by
  induction x generalizing parent with
  | field head items ih =>
    rintro m _ ⟨rfl, rfl, rfl⟩ rest
    rw [walkSelection]
    by_cases hmeta : isMeta head.name = true
    · have hperform : perform s m (.selection parent (.field head items)) = .ok (m, []) := by
        simp [perform, performSelection, hmeta]
      rw [if_pos hmeta]
      exact .of_perform hperform (.ok ⟨rfl, rfl, rfl⟩ .refl)
    · rw [if_neg hmeta]
      cases hrule : s.field? parent head.name with
      | none => exact .of_fault (by simp [perform, performSelection, hmeta, hrule])
      | some rule =>
        have hperform : perform s m (.selection parent (.field head items)) =
            .ok (m.permit parent rule,
              rule.arguments.map (fun argument => .input none argument.type) ++
                items.map (.selection rule.type)) := by
          simp [perform, performSelection, hmeta, hrule]
        refine .of_perform hperform ?_
        have hinputs := reaches_inputs (reaches_input s.types.size) none rule.arguments
          (m.permit parent rule) (items.map (.selection rule.type) ++ rest)
          (PermissionSet.hidden_le_size s _)
        have hitems := follows_selections_of_forall (fun y hy => ih y hy rule.type)
          { m with permissions := m.permissions.permitField s parent rule } _ ⟨rfl, rfl, rfl⟩ rest
        rw [List.append_assoc]
        exact hitems.of_reaches hinputs
  | spread head => exact hspread parent head
  | inline head items ih =>
    have hitems (type : String) := follows_selections_of_forall fun y hy => ih y hy type
    rintro m _ ⟨rfl, rfl, rfl⟩ rest
    rw [walkSelection]
    cases hcondition : head.condition with
    | none =>
      have hperform : perform s m (.selection parent (.inline head items)) =
          .ok (m, items.map (.selection parent)) := by
        simp [perform, performSelection, hcondition]
      exact .of_perform hperform (hitems parent m _ ⟨rfl, rfl, rfl⟩ rest)
    | some condition =>
      simp only [Walk.requireType]
      cases htype : s.types.contains condition with
      | false => exact .of_fault (by simp [perform, performSelection, hcondition, htype])
      | true =>
        have hperform : perform s m (.selection parent (.inline head items)) =
            .ok (m.markVisible condition, items.map (.selection condition)) := by
          simp [perform, performSelection, hcondition, htype]
        exact .of_perform hperform
          (hitems condition (m.markVisible condition) _ ⟨rfl, rfl, rfl⟩ rest)

private theorem follows_selections (hspread : ∀ parent head, Follows s (Holds d inProgress)
      [.selection parent (.spread head)] (spread head.name)) (items : List Selection)
    (parent : String) :
    Follows s (Holds d inProgress) (items.map (.selection parent))
      (walkSelections s spread parent items) :=
  follows_selections_of_forall fun y _ => follows_selection hspread y parent

private theorem follows_spread {depth : Nat}
    (hdepth : unseen inProgress.contains d.fragments ≤ depth) (parent : String) (head : Spread) :
    Follows s (Holds d inProgress) [.selection parent (.spread head)]
      (walkFragment s d depth inProgress head.name) := by
  induction depth using Nat.strongRecOn generalizing inProgress parent head with
  | ind depth ih =>
  rintro m _ ⟨rfl, rfl, rfl⟩ rest
  cases hf : m.document.fragment? head.name with
  | none =>
    rw [walkFragment_of_unknown hf]
    exact .of_fault (by simp [perform, performSelection, hf])
  | some f =>
    by_cases hname : head.name ∈ m.inProgress
    · rw [walkFragment_of_mem hf hname]
      exact .of_fault (by simp [perform, performSelection, hf, hname])
    by_cases hinlined : head.name ∈ m.inlined
    · have hperform : perform s m (.selection parent (.spread head)) = .ok (m, []) := by
        simp [perform, performSelection, hf, hname, hinlined]
      rw [walkFragment_of_inlined hf hname hinlined]
      exact .of_perform hperform (.ok ⟨rfl, rfl, rfl⟩ .refl)
    have hless := Document.unseen_cons_lt hf hname
    obtain ⟨less, rfl⟩ : ∃ less, depth = less + 1 := Nat.exists_eq_succ_of_ne_zero (by omega)
    rw [walkFragment_of_not_mem hf hname hinlined]
    cases htype : s.types.contains f.condition with
    | false => exact .of_fault (by simp [perform, performSelection, hf, hname, hinlined, htype])
    | true =>
      have hperform : perform s m (.selection parent (.spread head)) =
          .ok ((m.markVisible f.condition).enter head.name,
            f.items.map (.selection f.condition) ++ [.leave head.name]) := by
        simp [perform, performSelection, hf, hname, hinlined, htype]
      refine .of_perform hperform ?_
      rw [List.append_assoc]
      have hfewer : unseen (head.name :: m.inProgress).contains m.document.fragments ≤ less := by
        omega
      have hbody := follows_selections (ih less (Nat.lt_succ_self less) hfewer) f.items f.condition
        ((m.markVisible f.condition).enter head.name) _ ⟨rfl, rfl, rfl⟩
        ([.leave head.name] ++ rest)
      -- what is held inside the fragment is held outside of it once the machine has left it
      refine hbody.map ?_
      rintro last _ ⟨hdocument, hprogress, rfl⟩
      have hleave : Moves s ⟨last, .leave head.name :: rest⟩ ⟨last.leave head.name, [] ++ rest⟩ :=
        .step rfl
      refine ⟨last.leave head.name, ⟨hdocument, ?_, rfl⟩, .single hleave⟩
      exact congrArg List.tail hprogress

private theorem follows_operation (o : Operation) :
    Follows s (Holds d []) [.operation o] (walkOperation s d o) := by
  rintro m _ ⟨rfl, hprogress, rfl⟩ rest
  unfold walkOperation
  cases hroot : s.root? o.kind with
  | none => exact .of_fault (by simp [perform, hroot])
  | some root =>
    have hperform : perform s m (.operation o) =
        .ok (m.markVisible root, o.items.map (.selection root)) := by
      simp [perform, hroot]
    exact .of_perform hperform (follows_selections (follows_spread (unseen_le_length _ _)) o.items
      root (m.markVisible root) _ ⟨rfl, hprogress, rfl⟩ rest)

private theorem follows_declaration (text : String) :
    Follows s (fun m p => m.permissions = p) [.declaration text]
      (fun p => grantText s p text) := by
  rintro m _ rfl rest
  unfold grantText
  cases hparse : Document.parse text with
  | error e => exact .of_fault (by simp [perform, hparse])
  | ok d =>
    have hperform : perform s m (.declaration text) =
        .ok (⟨m.permissions, d, [], [], []⟩, d.operations.map .operation) := by
      simp [perform, hparse]
    have hrun := Follows.each (s := s) d.operations (fun o _ => follows_operation (d := d) o)
      ⟨m.permissions, d, [], [], []⟩ ⟨m.permissions, []⟩ ⟨rfl, rfl, rfl⟩ rest
    refine (Comes.of_perform hperform hrun).map ?_
    rintro last _ ⟨-, -, rfl⟩
    exact ⟨last, rfl, .refl⟩

end Walks

/-- The machine comes to what compilation comes to. -/
private theorem yields_start (s : Schema) (declarations : List String) :
    Yields s (start declarations) (declarations.foldlM (grantText s) .empty) := by
  have hrun : Comes s (fun m p => m.permissions = p) [] (start declarations)
      (declarations.foldlM (grantText s) .empty) := by
    have hrun := Follows.each (s := s) declarations (fun text _ => follows_declaration text)
      (start declarations).memory .empty rfl []
    rwa [List.append_nil] at hrun
  generalize declarations.foldlM (grantText s) .empty = run at hrun
  cases hrun with
  | fault hyields => exact hyields
  | @ok m p hholds hreach => exact ⟨⟨m, []⟩, hreach, hholds ▸ .done m⟩

/-! ### What stays true -/

def Task.left? : Task → Option String
  | .leave name => some name
  | _ => none

def Task.isDeclaration : Task → Bool
  | .declaration _ => true
  | _ => false

def Task.owner? : Task → Option String
  | .input owner _ => owner
  | _ => none

/-- The task neither reads a declaration nor ends the walk of a fragment. -/
def Task.Inside (t : Task) : Prop :=
  t.left? = none ∧ t.isDeclaration = false

/-- What a task does to the memory, and the tasks that it brings. -/
inductive Effect (m : Memory) : Task → Memory → List Task → Prop
  | read {text : String} {d : Document} : Document.parse text = .ok d →
      Effect m (.declaration text) ⟨m.permissions, d, [], [], []⟩ (d.operations.map .operation)
  | enter {parent : String} {head : Spread} {f : Fragment} :
      m.document.fragment? head.name = some f → head.name ∉ m.inProgress → head.name ∉ m.inlined →
      Effect m (.selection parent (.spread head)) ((m.markVisible f.condition).enter head.name)
        (f.items.map (.selection f.condition) ++ [.leave head.name])
  | leave {name : String} : Effect m (.leave name) (m.leave name) []
  | input {owner : Option String} {type : String} {new : List Task} :
      (∀ t ∈ new, m.permissions.shows type = false ∧ ∃ taken, t = .input (some type) taken) →
      Effect m (.input owner type) (m.markVisible type) new
  | other {task : Task} {p : PermissionSet} {new : List Task} : task.Inside →
      (∀ t ∈ new, t.Inside ∧ t.owner? = none) → Effect m task { m with permissions := p } new

private theorem inside_of_mem_map {α : Type} {task : α → Task} {l : List α}
    (htask : ∀ x, (task x).Inside ∧ (task x).owner? = none) :
    ∀ t ∈ l.map task, t.Inside ∧ t.owner? = none := by
  intro t ht
  obtain ⟨x, -, rfl⟩ := List.mem_map.mp ht
  exact htask x

private theorem effect_of_performSelection {parent : String} {x : Selection}
    (h : performSelection s m parent x = .ok (m', new)) :
    Effect m (.selection parent x) m' new := by
  have hinside : (Task.selection parent x).Inside := ⟨rfl, rfl⟩
  have hitems (type : String) (items : List Selection) :
      ∀ t ∈ items.map (Task.selection type), t.Inside ∧ t.owner? = none :=
    inside_of_mem_map fun _ => ⟨⟨rfl, rfl⟩, rfl⟩
  cases x with
  | field head items =>
    rw [performSelection] at h
    by_cases hmeta : isMeta head.name = true
    · rw [if_pos hmeta] at h
      obtain ⟨rfl, rfl⟩ := Prod.mk.inj (Except.ok.inj h)
      exact .other hinside (by simp)
    · rw [if_neg hmeta] at h
      cases hrule : s.field? parent head.name with
      | none => simp [hrule] at h
      | some rule =>
        simp only [hrule] at h
        obtain ⟨rfl, rfl⟩ := Prod.mk.inj (Except.ok.inj h)
        refine .other hinside fun t ht => ?_
        rcases List.mem_append.mp ht with hargument | hitem
        · exact inside_of_mem_map (fun _ => ⟨⟨rfl, rfl⟩, rfl⟩) t hargument
        · exact hitems rule.type items t hitem
  | spread head =>
    rw [performSelection] at h
    cases hf : m.document.fragment? head.name with
    | none => simp [hf] at h
    | some f =>
      simp only [hf, List.contains_eq_mem, decide_eq_true_eq] at h
      by_cases hname : head.name ∈ m.inProgress
      · simp [hname] at h
      by_cases hinlined : head.name ∈ m.inlined
      · simp only [hname, hinlined, if_true, if_false] at h
        obtain ⟨rfl, rfl⟩ := Prod.mk.inj (Except.ok.inj h)
        exact .other hinside (by simp)
      · simp only [hname, hinlined, if_false] at h
        split at h
        · obtain ⟨rfl, rfl⟩ := Prod.mk.inj (Except.ok.inj h)
          exact .enter hf hname hinlined
        · cases h
  | inline head items =>
    rw [performSelection] at h
    cases hcondition : head.condition with
    | none =>
      simp only [hcondition] at h
      obtain ⟨rfl, rfl⟩ := Prod.mk.inj (Except.ok.inj h)
      exact .other hinside (hitems parent items)
    | some condition =>
      simp only [hcondition] at h
      split at h
      · obtain ⟨rfl, rfl⟩ := Prod.mk.inj (Except.ok.inj h)
        exact .other hinside (hitems condition items)
      · cases h

/-- Everything that a task can do. -/
private theorem effect_of_perform (h : perform s m task = .ok (m', new)) :
    Effect m task m' new := by
  cases task with
  | declaration text =>
    rw [perform] at h
    cases hparse : Document.parse text with
    | error e => simp [hparse] at h
    | ok d =>
      simp only [hparse] at h
      obtain ⟨rfl, rfl⟩ := Prod.mk.inj (Except.ok.inj h)
      exact .read hparse
  | operation o =>
    rw [perform] at h
    cases hroot : s.root? o.kind with
    | none => simp [hroot] at h
    | some root =>
      simp only [hroot] at h
      obtain ⟨rfl, rfl⟩ := Prod.mk.inj (Except.ok.inj h)
      exact .other ⟨rfl, rfl⟩ (inside_of_mem_map fun _ => ⟨⟨rfl, rfl⟩, rfl⟩)
  | selection parent x => exact effect_of_performSelection h
  | leave name =>
    obtain ⟨rfl, rfl⟩ := Prod.mk.inj (Except.ok.inj h)
    exact .leave
  | input owner type =>
    obtain ⟨rfl, rfl⟩ := Prod.mk.inj (Except.ok.inj h)
    refine .input fun t ht => ?_
    cases hd : s.type? type with
    | none => simp [hd] at ht
    | some d =>
      simp only [hd] at ht
      split at ht
      · rename_i hopens
        obtain ⟨input, -, rfl⟩ := List.mem_map.mp ht
        simp only [Bool.and_eq_true, Bool.not_eq_true'] at hopens
        exact ⟨hopens.1, input.type, rfl⟩
      · simp at ht

/-- The tasks and the memory fit together. The walks to be ended are those in progress, the last
begun first, and none of them is left to the next declaration. Fragments have been entered whose
walk is in progress or done, and none of them twice. -/
structure Orderly (declarations : List String) (c : Config) : Prop where
  document : c.memory.document = ⟨[]⟩ ∨
    ∃ text ∈ declarations, Document.parse text = .ok c.memory.document
  listed : ∀ text, .declaration text ∈ c.tasks → text ∈ declarations
  ordered : c.tasks.Pairwise fun t u => t.isDeclaration = true → u.isDeclaration = true
  pending : c.tasks.filterMap Task.left? = c.memory.inProgress
  distinct : c.memory.inProgress.Nodup
  defined : ∀ name ∈ c.memory.inProgress, ∃ f ∈ c.memory.document.fragments, f.name = name
  once : c.memory.entered.Nodup
  entered : ∀ name, name ∈ c.memory.entered ↔ name ∈ c.memory.inProgress ∨ name ∈ c.memory.inlined

section Order

variable {declarations : List String}

private theorem orderly_start (declarations : List String) :
    Orderly declarations (start declarations) where
  document := .inl rfl
  listed := by simp [start]
  ordered := by
    rw [start, List.pairwise_map]
    exact List.pairwise_of_forall fun _ _ _ => rfl
  pending := by simp [start, Task.left?]
  distinct := List.nodup_nil
  defined := by simp [start]
  once := List.nodup_nil
  entered := by simp [start]

private theorem Effect.isDeclaration_eq_false (h : Effect m task m' new) :
    ∀ t ∈ new, t.isDeclaration = false := by
  cases h with
  | read _ => exact fun t ht => (inside_of_mem_map (fun _ => ⟨⟨rfl, rfl⟩, rfl⟩) t ht).1.2
  | enter _ _ _ =>
    intro t ht
    rcases List.mem_append.mp ht with hitem | hleave
    · exact (inside_of_mem_map (fun _ => ⟨⟨rfl, rfl⟩, rfl⟩) t hitem).1.2
    · rw [List.mem_singleton.mp hleave]
      rfl
  | leave => simp
  | input hnew =>
    intro t ht
    obtain ⟨-, taken, rfl⟩ := hnew t ht
    rfl
  | other _ hnew => exact fun t ht => (hnew t ht).1.2

private theorem filterMap_left?_eq_nil (h : ∀ t ∈ new, t.Inside) : new.filterMap Task.left? = [] :=
  List.filterMap_eq_nil_iff.mpr fun t ht => (h t ht).1

private theorem Orderly.pending_append (h : Orderly declarations ⟨m, task :: rest⟩)
    (htask : task.left? = none) (hnew : ∀ t ∈ new, t.Inside) :
    (new ++ rest).filterMap Task.left? = m.inProgress := by
  have hpending := h.pending
  rw [List.filterMap_cons_none htask] at hpending
  rw [List.filterMap_append, filterMap_left?_eq_nil hnew, List.nil_append, hpending]

private theorem Orderly.ordered_append (h : Orderly declarations ⟨m, task :: rest⟩)
    (hnew : ∀ t ∈ new, t.isDeclaration = false) :
    (new ++ rest).Pairwise fun t u => t.isDeclaration = true → u.isDeclaration = true := by
  have hfirst (t : Task) (ht : t ∈ new) (u : Task) :
      t.isDeclaration = true → u.isDeclaration = true := by simp [hnew t ht]
  refine List.pairwise_append.mpr ⟨?_, (List.pairwise_cons.mp h.ordered).2, ?_⟩
  · exact List.pairwise_of_forall_mem_list fun t ht u _ => hfirst t ht u
  · exact fun t ht u _ => hfirst t ht u

private theorem Orderly.listed_append (h : Orderly declarations ⟨m, task :: rest⟩)
    (hnew : ∀ t ∈ new, t.isDeclaration = false) :
    ∀ text, .declaration text ∈ new ++ rest → text ∈ declarations := by
  intro text ht
  rcases List.mem_append.mp ht with hbrought | hrest
  · exact absurd (hnew _ hbrought) (by simp [Task.isDeclaration])
  · exact h.listed text (List.mem_cons_of_mem task hrest)

private theorem Orderly.pending_of_declaration {text : String}
    (h : Orderly declarations ⟨m, .declaration text :: rest⟩) :
    rest.filterMap Task.left? = [] := by
  refine List.filterMap_eq_nil_iff.mpr fun t ht => ?_
  have hdeclaration := (List.pairwise_cons.mp h.ordered).1 t ht rfl
  cases t with
  | declaration text => rfl
  | operation | selection | leave | input => simp [Task.isDeclaration] at hdeclaration

private theorem Orderly.of_effect (h : Orderly declarations ⟨m, task :: rest⟩)
    (heffect : Effect m task m' new) : Orderly declarations ⟨m', new ++ rest⟩ := by
  have hlisted := h.listed_append heffect.isDeclaration_eq_false
  have hordered := h.ordered_append heffect.isDeclaration_eq_false
  cases heffect with
  | @read text d hparse =>
    have hoperations : ∀ t ∈ d.operations.map Task.operation, t.Inside := fun t ht =>
      (inside_of_mem_map (fun _ => ⟨⟨rfl, rfl⟩, rfl⟩) t ht).1
    refine ⟨.inr ⟨text, h.listed text List.mem_cons_self, hparse⟩, hlisted, hordered, ?_,
      List.nodup_nil, by simp, List.nodup_nil, by simp⟩
    rw [List.filterMap_append, filterMap_left?_eq_nil hoperations, h.pending_of_declaration,
      List.nil_append]
  | @enter parent head f hf hname hinlined =>
    have hbody : ∀ t ∈ f.items.map (Task.selection f.condition), t.Inside := fun t ht =>
      (inside_of_mem_map (fun _ => ⟨⟨rfl, rfl⟩, rfl⟩) t ht).1
    have hnew : head.name ∉ m.entered := fun hmem =>
      (h.entered head.name).mp hmem |>.elim hname hinlined
    have hpending : rest.filterMap Task.left? = m.inProgress := h.pending
    refine ⟨h.document, hlisted, hordered, ?_, List.nodup_cons.mpr ⟨hname, h.distinct⟩, ?_,
      List.nodup_cons.mpr ⟨hnew, h.once⟩, ?_⟩
    · rw [List.append_assoc, List.filterMap_append, filterMap_left?_eq_nil hbody]
      exact congrArg (head.name :: ·) hpending
    · refine List.forall_mem_cons.mpr ⟨?_, h.defined⟩
      obtain ⟨hmem, hfname⟩ := Document.mem_of_fragment?_eq_some hf
      exact ⟨f, hmem, hfname⟩
    · intro name
      have hentered := h.entered name
      simp only [Memory.enter, Memory.markVisible, List.mem_cons] at hentered ⊢
      rw [hentered, or_assoc]
  | @leave name =>
    -- the walk that ends is the one begun last
    have hpending : name :: rest.filterMap Task.left? = m.inProgress := h.pending
    have hdistinct := h.distinct
    have hdefined := h.defined
    have hentered := h.entered
    simp only [← hpending] at hdistinct hdefined hentered
    refine ⟨h.document, hlisted, hordered, ?_, ?_, ?_, h.once, ?_⟩
    · simp [Memory.leave, ← hpending]
    · simpa [Memory.leave, ← hpending] using (List.nodup_cons.mp hdistinct).2
    · simpa [Memory.leave, ← hpending] using (List.forall_mem_cons.mp hdefined).2
    · intro other
      have hother := hentered other
      simp only [Memory.leave, ← hpending, List.tail_cons, List.mem_cons] at hother ⊢
      rw [hother]
      tauto
  | @input owner type new hnew =>
    refine { h with listed := hlisted, ordered := hordered, pending := ?_ }
    refine h.pending_append rfl fun t ht => ?_
    obtain ⟨-, taken, rfl⟩ := hnew t ht
    exact ⟨rfl, rfl⟩
  | other htask hnew =>
    refine { h with listed := hlisted, ordered := hordered, pending := ?_ }
    exact h.pending_append htask.1 fun t ht => (hnew t ht).1

private theorem Orderly.of_moves (h : Orderly declarations c) (hmoves : Moves s c c') :
    Orderly declarations c' := by
  obtain ⟨hperform⟩ := hmoves
  exact h.of_effect (effect_of_perform hperform)

/-- Wherever the machine comes, its tasks and its memory are in order. -/
private theorem orderly_of_reaches (hreach : ReflTransGen (Moves s) (start declarations) c) :
    Orderly declarations c := by
  induction hreach with
  | refl => exact orderly_start declarations
  | tail _ hmoves ih => exact ih.of_moves hmoves

end Order

/-! ### Types below types -/

private theorem shows_owner_of_perform (h : perform s m task = .ok (m', new)) {owner type : String}
    (hmem : .input (some owner) type ∈ new) :
    (∃ above, task = .input above owner) ∧ m.permissions.shows owner = false ∧
      m'.permissions.shows owner = true := by
  cases effect_of_perform h with
  | read _ => simp at hmem
  | enter _ _ _ => simp at hmem
  | leave => simp at hmem
  | @input above type' _ hnew =>
    obtain ⟨hhidden, taken, heq⟩ := hnew _ hmem
    obtain ⟨howner, -⟩ := Task.input.inj heq
    obtain rfl := Option.some.inj howner
    refine ⟨⟨above, rfl⟩, hhidden, ?_⟩
    exact (PermissionSet.shows_markVisible _ owner owner).mpr (.inl rfl)
  | other _ hnew =>
    have hnone := (hnew _ hmem).2
    simp [Task.owner?] at hnone

/-- The machine has shown an owner on its way, which was not shown before. -/
def ShownOnTheWay (s : Schema) (first last : Config) (owner : String) : Prop :=
  ∃ before after, ReflTransGen (Moves s) first before ∧ Moves s before after ∧
    ReflTransGen (Moves s) after last ∧
    (∃ above rest, before.tasks = .input above owner :: rest) ∧
    before.memory.permissions.shows owner = false ∧ after.memory.permissions.shows owner = true

private theorem shownOnTheWay_of_mem {declarations : List String} {owner type : String}
    (hreach : ReflTransGen (Moves s) (start declarations) c)
    (hmem : .input (some owner) type ∈ c.tasks) :
    ShownOnTheWay s (start declarations) c owner := by
  induction hreach with
  | refl => simp [start] at hmem
  | @tail c c' hreach hmoves ih =>
    obtain @⟨m, m', task, new, rest, hperform⟩ := hmoves
    rcases List.mem_append.mp hmem with hnew | hrest
    · obtain ⟨⟨above, rfl⟩, hhidden, hshown⟩ := shows_owner_of_perform hperform hnew
      exact ⟨_, _, hreach, .step hperform, .refl, ⟨above, rest, rfl⟩, hhidden, hshown⟩
    · obtain ⟨before, after, hbefore, hstep, hafter, hshown⟩ := ih (List.mem_cons_of_mem task hrest)
      exact ⟨before, after, hbefore, hstep, hafter.tail (.step hperform), hshown⟩

/-- On every schema and on all declarations the machine comes to an end, with what compilation
gives. Wherever it comes, the fragments in progress are distinct fragments of the declaration, no
fragment has been entered twice since the declaration was read, and the type of an input field is to
be shown only if the type with the field was hidden and has been shown on the way. -/
theorem compile_terminates (s : Schema) (client : String) (declarations : List String) :
    Acc (fun c' c => Moves s c c') (start declarations) ∧
    (∃ outcome, (∀ other, Yields s (start declarations) other ↔ other = outcome) ∧
      compile s client declarations = outcome.mapError fun fault => ⟨client, fault⟩) ∧
    ∀ c, ReflTransGen (Moves s) (start declarations) c →
      c.memory.inProgress.Nodup ∧
      (∀ name ∈ c.memory.inProgress, ∃ text ∈ declarations,
        Document.parse text = .ok c.memory.document ∧
        ∃ f ∈ c.memory.document.fragments, f.name = name) ∧
      c.memory.entered.Nodup ∧
      ∀ owner type, .input (some owner) type ∈ c.tasks →
        ShownOnTheWay s (start declarations) c owner := by
  have hyields := yields_start s declarations
  refine ⟨hyields.acc, ⟨_, fun other => ⟨hyields.unique, ?_⟩, rfl⟩, fun c hreach => ?_⟩
  · rintro rfl
    exact hyields
  · have horder := orderly_of_reaches hreach
    refine ⟨horder.distinct, fun name hname => ?_, horder.once, fun owner type hmem => ?_⟩
    · obtain ⟨f, hf, hfname⟩ := horder.defined name hname
      rcases horder.document with hempty | ⟨text, htext, hparse⟩
      · simp [hempty, Document.fragments] at hf
      · exact ⟨text, htext, hparse, f, hf, hfname⟩
    · exact shownOnTheWay_of_mem hreach hmem

section Witness

/-- The input types take each other, and one of them itself. -/
private def cyclicSchema : Schema :=
  ⟨.ofList [("Query", ⟨"Query", .object, [⟨"search", "Int", [⟨"filter", "Filter"⟩]⟩], [], [], []⟩),
      ("Filter", ⟨"Filter", .inputObject, [], [⟨"not", "Filter"⟩, ⟨"range", "Range"⟩], [], []⟩),
      ("Range", ⟨"Range", .inputObject, [], [⟨"filter", "Filter"⟩], [], []⟩)] compare,
    "Query", none, none⟩

/-- The fragments spread each other. -/
private def cyclicDeclaration : String :=
  "{ search ...A } fragment A on Query { ...B } fragment B on Query { ...A }"

private def searchItem : Selection :=
  .field ⟨⟨1, 3⟩, ⟨1, 3⟩, ⟨1, 3⟩, none, "search", [], []⟩ []

private def cyclicOperation : Operation :=
  ⟨none, ⟨1, 1⟩, ⟨1, 15⟩, [searchItem, .spread ⟨⟨1, 13⟩, "A", []⟩]⟩

private def cyclicDocument : Document :=
  ⟨[.operation cyclicOperation,
    .fragment ⟨⟨1, 17⟩, ⟨1, 37⟩, ⟨1, 44⟩, "A", "Query", [], [.spread ⟨⟨1, 42⟩, "B", []⟩]⟩,
    .fragment ⟨⟨1, 46⟩, ⟨1, 66⟩, ⟨1, 73⟩, "B", "Query", [], [.spread ⟨⟨1, 71⟩, "A", []⟩]⟩]⟩

private theorem parse_cyclicDeclaration :
    Document.parse cyclicDeclaration = .ok cyclicDocument := by cbv

private theorem compile_cyclicDeclaration :
    compile cyclicSchema "staff" [cyclicDeclaration] =
      .error ⟨"staff", .fragmentCycle "A"⟩ := by
  simp only [compile, List.foldlM_cons, grantText, parse_cyclicDeclaration]
  rfl

private def searchRule : FieldDef :=
  ⟨"search", "Int", [⟨"filter", "Filter"⟩]⟩

private def searchMemory : Memory :=
  (Memory.markVisible ⟨.empty, cyclicDocument, [], [], []⟩ "Query").permit "Query" searchRule

private theorem reaches_searchMemory : ReflTransGen (Moves cyclicSchema) (start [cyclicDeclaration])
    ⟨searchMemory.markVisible "Filter", [.input (some "Filter") "Filter",
      .input (some "Filter") "Range", .selection "Query" (.spread ⟨⟨1, 13⟩, "A", []⟩)]⟩ := by
  have hread : perform cyclicSchema (start [cyclicDeclaration]).memory
      (.declaration cyclicDeclaration) =
        .ok (⟨.empty, cyclicDocument, [], [], []⟩, [.operation cyclicOperation]) := by
    simp only [perform, parse_cyclicDeclaration]
    rfl
  have hbegin : perform cyclicSchema ⟨.empty, cyclicDocument, [], [], []⟩
      (.operation cyclicOperation) =
        .ok (Memory.markVisible ⟨.empty, cyclicDocument, [], [], []⟩ "Query",
          cyclicOperation.items.map (.selection "Query")) := by rfl
  have hsearch : perform cyclicSchema
      (Memory.markVisible ⟨.empty, cyclicDocument, [], [], []⟩ "Query")
      (.selection "Query" searchItem) = .ok (searchMemory, [.input none "Filter"]) := by rfl
  have hfilter : perform cyclicSchema searchMemory (.input none "Filter") =
      .ok (searchMemory.markVisible "Filter",
        [.input (some "Filter") "Filter", .input (some "Filter") "Range"]) := by rfl
  exact .head (.step hread) (.head (.step hbegin) (.head (.step hsearch) (.single (.step hfilter))))

/-- Compilation ends at the cycle of the fragments, behind those of the input types. -/
theorem compile_terminates_of_cycles :
    Yields cyclicSchema (start [cyclicDeclaration]) (.error (.fragmentCycle "A")) ∧
    ∃ c, ReflTransGen (Moves cyclicSchema) (start [cyclicDeclaration]) c ∧
      .input (some "Filter") "Range" ∈ c.tasks ∧
      ShownOnTheWay cyclicSchema (start [cyclicDeclaration]) c "Filter" := by
  obtain ⟨-, ⟨outcome, houtcome, hcompile⟩, hall⟩ :=
    compile_terminates cyclicSchema "staff" [cyclicDeclaration]
  refine ⟨(houtcome _).mpr ?_, _, reaches_searchMemory, by simp, ?_⟩
  · rw [compile_cyclicDeclaration] at hcompile
    cases outcome with
    | ok p => cases hcompile
    | error fault =>
      obtain ⟨-, rfl⟩ := DeclarationError.mk.inj (Except.error.inj hcompile)
      rfl
  · exact (hall _ reaches_searchMemory).2.2.2 "Filter" "Range" (by simp)

end Witness

end FieldAuthorization.Declaration.Machine
