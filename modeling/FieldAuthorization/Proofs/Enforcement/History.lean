import Mathlib.Data.List.Induction
import FieldAuthorization.Enforcement.Enforcer

/-!
Histories of an enforcer: requests that are created and executed, and the steps on their states.

A history mixes any number of requests; its steps may come in any order, fail and be taken again.
What becomes of one state is a matter of the steps on it alone: a state lives the same life in a
session with others as by itself.
-/

set_option autoImplicit false
set_option relaxedAutoImplicit false

namespace FieldAuthorization

namespace RequestStep

variable {α β : Type} {state : RequestState}

@[simp] theorem perform_pure (answer : α) :
    perform (pure answer) state = (.ok answer, state) := by
  rfl

@[simp] theorem perform_throw (e : AuthorizationError) :
    perform (throw e : RequestStep α) state = (.error e, state) := by
  rfl

@[simp] theorem perform_get : perform get state = (.ok state, state) := by
  rfl

@[simp] theorem perform_modify (change : RequestState → RequestState) :
    perform (modify change) state = (.ok (), change state) := by
  rfl

@[simp] theorem perform_bind (first : RequestStep α) (rest : α → RequestStep β)
    (state : RequestState) :
    perform (first >>= rest) state =
      match perform first state with
      | (.ok answer, next) => perform (rest answer) next
      | (.error e, next) => (.error e, next) := by
  unfold perform
  rw [ExceptT.run_bind, StateT.run_bind]
  rcases first.run.run state with ⟨answer | e, next⟩ <;> rfl

theorem perform_require (expected : Phase) (state : RequestState) :
    perform (require expected) state =
      if state.phase = expected then (.ok (), state)
      else (.error (.outOfOrder expected state.phase), state) := by
  simp only [require, perform_bind, perform_get]
  split <;> simp

theorem perform_advance (expected next : Phase) (state : RequestState) :
    perform (advance expected next) state =
      if state.phase = expected then (.ok (), { state with phase := next })
      else (.error (.outOfOrder expected state.phase), state) := by
  simp only [advance, perform_bind, perform_require]
  by_cases hphase : state.phase = expected <;> simp [hphase]

theorem perform_ofQuery (outcome : Except QueryError α) (state : RequestState) :
    perform (ofQuery outcome) state = (outcome.mapError .query, state) := by
  cases outcome <;> rfl

theorem perform_record (denials : List Denial) (state : RequestState) :
    perform (record denials) state =
      (.ok (), { state with denials := state.denials ++ denials }) := by
  rfl

end RequestStep

/-- What may be asked of a request once it has been created. -/
inductive LifecycleStep
  | enforce (request : Request)
  | markExecuted
  | finalize (result : ExecutionResult)
  | filter (field : String) (value : Json)

inductive Answer
  | enforced (query : EnforcedQuery) (event : Event)
  | executed
  | finalized (result : ExecutionResult)
  | filtered (value : Json)

abbrev Reply := Except AuthorizationError Answer

namespace LifecycleStep

def toStep (e : Enforcer) : LifecycleStep → RequestStep Answer
  | .enforce request => do
    let (query, event) ← RequestStep.enforce e request
    return .enforced query event
  | .markExecuted => do
    RequestStep.markExecuted
    return .executed
  | .finalize result => do
    let final ← RequestStep.finalize result
    return .finalized final
  | .filter field value => do
    return .filtered (Enforcer.filter (← get) field value)

def takenOn (step : LifecycleStep) (e : Enforcer) (state : RequestState) : Reply × RequestState :=
  (step.toStep e).perform state

/-- The phase that a step requires and the one that it leads to; filtering has neither. -/
def phases? : LifecycleStep → Option (Phase × Phase)
  | .enforce _ => some (.created, .redacted)
  | .markExecuted => some (.redacted, .executed)
  | .finalize _ => some (.executed, .finalized)
  | .filter _ _ => none

/-- What a step may reply to on a state, and the state that it then leaves. -/
inductive Outcome (e : Enforcer) (state : RequestState) :
    LifecycleStep → Reply → RequestState → Prop
  | outOfOrder {step : LifecycleStep} {expected next : Phase}
      (hphases : step.phases? = some (expected, next)) (hphase : state.phase ≠ expected) :
      Outcome e state step (.error (.outOfOrder expected state.phase)) state
  | unread {request : Request} {q : QueryError} (hphase : state.phase = .created)
      (hparse : Document.parse request.query = .error q) :
      Outcome e state (.enforce request) (.error (.query q)) state
  | unredacted {request : Request} {received : Document} {q : QueryError}
      (hphase : state.phase = .created) (hparse : Document.parse request.query = .ok received)
      (hredact : Redaction.redact (e.authority state request) e.emptySelections received
        request.operationName = .error q) :
      Outcome e state (.enforce request) (.error (.query q)) state
  | enforced {request : Request} {received : Document} {r : Redaction}
      (hphase : state.phase = .created) (hparse : Document.parse request.query = .ok received)
      (hredact : Redaction.redact (e.authority state request) e.emptySelections received
        request.operationName = .ok r) :
      Outcome e state (.enforce request)
        (.ok (.enforced ⟨received, r.document, request.operationName⟩
          (.enforced received r.document r.denials)))
        { state with phase := .redacted, denials := state.denials ++ r.denials }
  | executed (hphase : state.phase = .redacted) :
      Outcome e state .markExecuted (.ok .executed) { state with phase := .executed }
  | finalized {result : ExecutionResult} (hphase : state.phase = .executed) :
      Outcome e state (.finalize result)
        (.ok (.finalized (Enforcer.finalResult state.denials result)))
        { state with phase := .finalized }
  | filtered {field : String} {value : Json} :
      Outcome e state (.filter field value) (.ok (.filtered (Enforcer.filter state field value)))
        state

theorem outcome_takenOn (step : LifecycleStep) (e : Enforcer) (state : RequestState) :
    Outcome e state step (step.takenOn e state).1 (step.takenOn e state).2 := by
  cases step with
  | enforce request =>
    simp only [takenOn, toStep, RequestStep.enforce, RequestStep.perform_bind,
      RequestStep.perform_require, RequestStep.perform_ofQuery, RequestStep.perform_get,
      RequestStep.perform_record, RequestStep.perform_advance, RequestStep.perform_pure]
    by_cases hphase : state.phase = .created
    · rw [if_pos hphase]
      cases hparse : Document.parse request.query with
      | error q => exact .unread hphase hparse
      | ok received =>
        cases hredact : Redaction.redact (e.authority state request) e.emptySelections received
          request.operationName with
        | error q =>
          simp only [Except.mapError, hredact]
          exact .unredacted hphase hparse hredact
        | ok r =>
          simp only [Except.mapError, hredact]
          rw [if_pos hphase]
          exact .enforced hphase hparse hredact
    · rw [if_neg hphase]
      exact .outOfOrder rfl hphase
  | markExecuted =>
    simp only [takenOn, toStep, RequestStep.markExecuted, RequestStep.perform_bind,
      RequestStep.perform_advance, RequestStep.perform_pure]
    by_cases hphase : state.phase = .redacted
    · rw [if_pos hphase]
      exact .executed hphase
    · rw [if_neg hphase]
      exact .outOfOrder rfl hphase
  | finalize result =>
    simp only [takenOn, toStep, RequestStep.finalize, RequestStep.perform_bind,
      RequestStep.perform_advance, RequestStep.perform_get, RequestStep.perform_pure]
    by_cases hphase : state.phase = .executed
    · rw [if_pos hphase]
      exact .finalized hphase
    · rw [if_neg hphase]
      exact .outOfOrder rfl hphase
  | filter field value =>
    simp only [takenOn, toStep, RequestStep.perform_bind, RequestStep.perform_get,
      RequestStep.perform_pure]
    exact .filtered

end LifecycleStep

/-- A state with the steps that have been taken on it and the replies to them. -/
structure Life where
  replies : List (LifecycleStep × Reply)
  state : RequestState

def Life.take (e : Enforcer) (life : Life) (step : LifecycleStep) : Life :=
  let (reply, next) := step.takenOn e life.state
  ⟨life.replies ++ [(step, reply)], next⟩

def Enforcer.life (e : Enforcer) (born : RequestState) (steps : List LifecycleStep) : Life :=
  steps.foldl (Life.take e) ⟨[], born⟩

theorem Enforcer.life_concat (e : Enforcer) (born : RequestState) (steps : List LifecycleStep)
    (step : LifecycleStep) : e.life born (steps ++ [step]) = (e.life born steps).take e step := by
  rw [life, List.foldl_append]
  rfl

/-- What comes of a whole request: its outcome, what an observer sees, and the calls of the host. -/
structure Execution where
  outcome : Except AuthorizationError ExecutionResult
  events : List Event
  calls : List HostCall

def recording (host : HostCall → ExecutionResult) (call : HostCall) :
    StateM (List HostCall) ExecutionResult := do
  modify (· ++ [call])
  return host call

def Enforcer.executed (e : Enforcer) (request : Request) (host : HostCall → ExecutionResult)
    (cache : VerifierCache) : Execution × VerifierCache :=
  let ((outcome, cache, events), calls) := (e.execute request (recording host) cache).run []
  (⟨outcome, events, calls⟩, cache)

/-- What can be done with an enforcer: a request is created, a step is taken on one of the states
created so far, or a request is executed as a whole. -/
inductive Action
  | create (request : Request)
  | take (index : Nat) (step : LifecycleStep)
  | execute (request : Request) (host : HostCall → ExecutionResult)

def Action.stepOn? (index : Nat) : Action → Option LifecycleStep
  | .take i step => if i = index then some step else none
  | _ => none

/-- The cache of an enforcer, and the lives of the states that it has created. -/
structure Session where
  cache : VerifierCache
  lives : List Life

namespace Session

/-- What an action does. A step on a state that has not been created does nothing. -/
def act (e : Enforcer) (session : Session) : Action → Session
  | .create request =>
    let (state, cache, _) := e.create request session.cache
    ⟨cache, session.lives ++ [⟨[], state⟩]⟩
  | .take index step => ⟨session.cache, session.lives.modify index (Life.take e · step)⟩
  | .execute request host => ⟨(e.executed request host session.cache).2, session.lives⟩

/-- The session after a history that begins with an empty cache. -/
def run (e : Enforcer) (history : List Action) : Session :=
  history.foldl (act e) ⟨.empty, []⟩

variable {e : Enforcer} {session : Session} {index : Nat} {life : Life}

theorem run_append (e : Enforcer) (history later : List Action) :
    run e (history ++ later) = later.foldl (act e) (run e history) := by
  rw [run, List.foldl_append]
  rfl

/-- An action bears on a life by the step that it takes on its state, and not otherwise. -/
theorem lives_act (h : session.lives[index]? = some life) (action : Action) :
    (act e session action).lives[index]? =
      some ((action.stepOn? index).toList.foldl (Life.take e) life) := by
  cases action with
  | create request =>
    have hlt : index < session.lives.length := (List.getElem?_eq_some_iff.mp h).1
    show (session.lives ++ [_])[index]? = some life
    rw [List.getElem?_append_left hlt]
    exact h
  | take i step =>
    simp only [act, Action.stepOn?, List.getElem?_modify, h]
    by_cases hi : i = index <;> simp [hi]
  | execute request host => exact h

theorem lives_foldl (h : session.lives[index]? = some life) (later : List Action) :
    (later.foldl (act e) session).lives[index]? =
      some ((later.filterMap (·.stepOn? index)).foldl (Life.take e) life) := by
  induction later generalizing session life with
  | nil => exact h
  | cons action rest ih =>
    rw [List.foldl_cons, ih (lives_act h action)]
    cases hstep : action.stepOn? index <;> simp [hstep]

theorem lives_create (e : Enforcer) (session : Session) (request : Request) :
    (act e session (.create request)).lives[session.lives.length]? =
      some ⟨[], (e.create request session.cache).1⟩ := by
  simp [act]

/-- A state that is there has been created for some request, and has lived from then on. -/
theorem exists_life_of_run (history : List Action)
    (h : (run e history).lives[index]? = some life) :
    ∃ request cache steps, life = e.life (e.create request cache).1 steps := by
  induction history using List.reverseRecOn generalizing life with
  | nil => simp [run] at h
  | append_singleton history action ih =>
    rw [run_append, List.foldl_cons, List.foldl_nil] at h
    cases hbefore : (run e history).lives[index]? with
    | some before =>
      obtain ⟨request, cache, steps, rfl⟩ := ih hbefore
      rw [lives_act hbefore, Option.some.injEq] at h
      refine ⟨request, cache, steps ++ (action.stepOn? index).toList, ?_⟩
      rw [← h, Enforcer.life, Enforcer.life, List.foldl_append]
    | none =>
      cases action with
      | create request =>
        have hle : (run e history).lives.length ≤ index := List.getElem?_eq_none_iff.mp hbefore
        rw [act, List.getElem?_append_right hle, List.getElem?_singleton] at h
        split at h
        · exact ⟨request, (run e history).cache, [], (Option.some.inj h).symm⟩
        · cases h
      | take i step => simp [act, List.getElem?_modify, hbefore] at h
      | execute request host => simp [act, hbefore] at h

end Session

end FieldAuthorization
