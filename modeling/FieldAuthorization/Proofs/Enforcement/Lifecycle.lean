import FieldAuthorization.Proofs.Access.Union
import FieldAuthorization.Proofs.Enforcement.History

/-!
The life of a request, whatever else an enforcer does and however often a step is tried.

A step that fails leaves its state as it was, though it works on it in place: it fails before it
writes. A step that succeeds leads from the phase that it requires to the next one. So a request is
enforced once at most, and its denials are those of that enforcement, however many were tried.
-/

set_option autoImplicit false
set_option relaxedAutoImplicit false

namespace FieldAuthorization

namespace LifecycleStep

/-- What a step needs in order to succeed: its phase, and if it enforces a request, a query that can
be read and redacted. -/
def Ready (e : Enforcer) (state : RequestState) : LifecycleStep → Prop
  | .enforce request => state.phase = .created ∧
      ∃ received r, Document.parse request.query = .ok received ∧
        Redaction.redact (e.authority state request) e.emptySelections received
          request.operationName = .ok r
  | .markExecuted => state.phase = .redacted
  | .finalize _ => state.phase = .executed
  | .filter _ _ => True

/-- What a step is bound to do, given its reply and the state that it leaves: to keep what the
request was created with, to change nothing if it fails, and else to lead from exactly the phase
that it requires to the next one. -/
structure Lawful (e : Enforcer) (step : LifecycleStep) (state : RequestState) (reply : Reply)
    (next : RequestState) : Prop where
  schema : next.schema = state.schema
  scopes : next.scopes = state.scopes
  verifier : next.verifier = state.verifier
  failed : ∀ error, reply = .error error → next = state
  moved : ∀ answer, reply = .ok answer →
    step.phases? = some (state.phase, next.phase) ∨ step.phases? = none ∧ next = state
  succeeds : (∃ answer, reply = .ok answer) ↔ step.Ready e state

variable {e : Enforcer} {step : LifecycleStep} {state next : RequestState} {reply : Reply}

private theorem not_ready_of_phases? {expected after : Phase}
    (hphases : step.phases? = some (expected, after)) (hphase : state.phase ≠ expected) :
    ¬ step.Ready e state := by
  cases step <;> cases hphases
  case enforce =>
    intro hready
    exact hphase hready.1
  case markExecuted => exact hphase
  case finalize => exact hphase

private theorem lawful_of_not_ready (error : AuthorizationError) (h : ¬ step.Ready e state) :
    step.Lawful e state (.error error) state := by
  refine ⟨rfl, rfl, rfl, ?failed, ?moved, ?succeeds⟩
  case failed =>
    intro _ _
    rfl
  case moved =>
    intro answer hanswer
    cases hanswer
  case succeeds =>
    constructor
    · rintro ⟨answer, hanswer⟩
      cases hanswer
    · intro hready
      exact absurd hready h

private theorem lawful_of_ready {answer : Answer} {after : Phase} {denials : List Denial}
    (h : step.Ready e state)
    (hmoved : step.phases? = some (state.phase, after) ∨
      step.phases? = none ∧ after = state.phase ∧ denials = state.denials) :
    step.Lawful e state (.ok answer) { state with phase := after, denials := denials } := by
  refine ⟨rfl, rfl, rfl, ?failed, ?moved, ?succeeds⟩
  case failed =>
    intro error herror
    cases herror
  case moved =>
    intro _ _
    obtain hphases | ⟨hnone, rfl, rfl⟩ := hmoved
    · exact .inl hphases
    · exact .inr ⟨hnone, rfl⟩
  case succeeds =>
    constructor
    · intro _
      exact h
    · intro _
      exact ⟨answer, rfl⟩

private theorem Outcome.lawful (h : Outcome e state step reply next) :
    step.Lawful e state reply next := by
  cases h with
  | outOfOrder hphases hphase =>
    apply lawful_of_not_ready
    exact not_ready_of_phases? hphases hphase
  | unread hphase hparse =>
    apply lawful_of_not_ready
    rintro ⟨-, received, r, hparse', -⟩
    rw [hparse] at hparse'
    cases hparse'
  | unredacted hphase hparse hredact =>
    apply lawful_of_not_ready
    rintro ⟨-, received, r, hparse', hredact'⟩
    rw [hparse, Except.ok.injEq] at hparse'
    rw [← hparse', hredact] at hredact'
    cases hredact'
  | enforced hphase hparse hredact =>
    apply lawful_of_ready
    · exact ⟨hphase, _, _, hparse, hredact⟩
    · rw [hphase]
      exact .inl rfl
  | executed hphase =>
    apply lawful_of_ready
    · exact hphase
    · rw [hphase]
      exact .inl rfl
  | finalized hphase =>
    apply lawful_of_ready
    · exact hphase
    · rw [hphase]
      exact .inl rfl
  | filtered =>
    apply lawful_of_ready
    · trivial
    · exact .inr ⟨rfl, rfl, rfl⟩

private theorem lawful_takenOn (step : LifecycleStep) (e : Enforcer) (state : RequestState) :
    step.Lawful e state (step.takenOn e state).1 (step.takenOn e state).2 :=
  (outcome_takenOn step e state).lawful

end LifecycleStep

def enforcement? : LifecycleStep × Reply → Option (Request × Event)
  | (.enforce request, .ok (.enforced _ event)) => some (request, event)
  | _ => none

namespace Life

variable {e : Enforcer} {life : Life}

def enforcements (life : Life) : List (Request × Event) :=
  life.replies.filterMap enforcement?

/-- The denials of a life are accounted for: there are none while the request is created, and later
they are those of its one enforcement. -/
inductive Accounted (e : Enforcer) (life : Life) : Prop
  | created (hphase : life.state.phase = .created) (hdenials : life.state.denials = [])
      (hnone : life.enforcements = [])
  | enforced (hphase : life.state.phase ≠ .created) (request : Request) (received : Document)
      (r : Redaction) (hparse : Document.parse request.query = .ok received)
      (hredact : Redaction.redact (e.authority life.state request) e.emptySelections received
        request.operationName = .ok r)
      (honce : life.enforcements = [(request, .enforced received r.document r.denials)])
      (hdenials : life.state.denials = r.denials)

private theorem Accounted.unenforced (h : life.Accounted e) {step : LifecycleStep} {reply : Reply}
    {after : Phase} (hnone : enforcement? (step, reply) = none)
    (hafter : after = .created ↔ life.state.phase = .created) :
    Accounted e ⟨life.replies ++ [(step, reply)], { life.state with phase := after }⟩ := by
  have hsame : enforcements ⟨life.replies ++ [(step, reply)], { life.state with phase := after }⟩ =
      life.enforcements := by simp [enforcements, hnone]
  cases h with
  | created hphase hdenials hnone =>
    exact .created (hafter.mpr hphase) hdenials (hsame.trans hnone)
  | enforced hphase request received r hparse hredact honce hdenials =>
    have hlater : after ≠ .created := by
      intro hcreated
      exact hphase (hafter.mp hcreated)
    exact .enforced hlater request received r hparse hredact (hsame.trans honce) hdenials

private theorem enforcement?_error (step : LifecycleStep) (error : AuthorizationError) :
    enforcement? (step, .error error) = none := by
  cases step <;> rfl

private theorem Accounted.take (h : life.Accounted e) (step : LifecycleStep) :
    (life.take e step).Accounted e := by
  have houtcome := step.outcome_takenOn e life.state
  show Accounted e ⟨life.replies ++ [(step, (step.takenOn e life.state).1)],
    (step.takenOn e life.state).2⟩
  generalize (step.takenOn e life.state).1 = reply at houtcome ⊢
  generalize (step.takenOn e life.state).2 = next at houtcome ⊢
  cases houtcome with
  -- a step that fails leaves the state, so a retry finds the account as the first try did
  | outOfOrder => exact h.unenforced (enforcement?_error _ _) Iff.rfl
  | unread => exact h.unenforced (enforcement?_error _ _) Iff.rfl
  | unredacted => exact h.unenforced (enforcement?_error _ _) Iff.rfl
  | filtered => exact h.unenforced rfl Iff.rfl
  | executed hphase => exact h.unenforced rfl (by simp [hphase])
  | finalized hphase => exact h.unenforced rfl (by simp [hphase])
  | @enforced request received r hphase hparse hredact =>
    cases h with
    | created _ hdenials hnone =>
      refine .enforced nofun request received r hparse hredact ?once ?denials
      case once =>
        rw [enforcements, List.filterMap_append, ← enforcements, hnone]
        rfl
      case denials =>
        show life.state.denials ++ r.denials = r.denials
        rw [hdenials, List.nil_append]
    | enforced hlater => exact absurd hphase hlater

private theorem accounted_life {born : RequestState} (hphase : born.phase = .created)
    (hdenials : born.denials = []) (steps : List LifecycleStep) :
    (e.life born steps).Accounted e := by
  induction steps using List.reverseRecOn with
  | nil => exact .created hphase hdenials rfl
  | append_singleton steps step ih =>
    rw [Enforcer.life_concat]
    exact ih.take step

private theorem kept_foldl (e : Enforcer) (life : Life) (steps : List LifecycleStep) :
    (steps.foldl (take e) life).state.scopes = life.state.scopes ∧
      (steps.foldl (take e) life).state.verifier = life.state.verifier := by
  induction steps generalizing life with
  | nil => exact ⟨rfl, rfl⟩
  | cons step rest ih =>
    have hlawful := step.lawful_takenOn e life.state
    obtain ⟨hscopes, hverifier⟩ := ih (life.take e step)
    exact ⟨hscopes.trans hlawful.scopes, hverifier.trans hlawful.verifier⟩

end Life

namespace Session

/-- After every history: an action on one request leaves all others as they are; a step on a request
is lawful; the scopes and the verifier with which a request has been created stay, whatever happens
later; a new request has the scopes that are found for it and no denials; and the denials of every
request are accounted for. -/
theorem lifecycle_invariant (e : Enforcer) (history : List Action) :
    (∀ (action : Action) (index : Nat) (life : Life), (run e history).lives[index]? = some life →
      action.stepOn? index = none → (run e (history ++ [action])).lives[index]? = some life) ∧
    (∀ (index : Nat) (step : LifecycleStep) (life : Life),
      (run e history).lives[index]? = some life → ∃ (reply : Reply) (next : RequestState),
        (run e (history ++ [.take index step])).lives[index]? =
          some ⟨life.replies ++ [(step, reply)], next⟩ ∧
        step.Lawful e life.state reply next) ∧
    (∀ (later : List Action) (index : Nat) (life : Life),
      (run e history).lives[index]? = some life → ∃ last : Life,
        (run e (history ++ later)).lives[index]? = some last ∧
        last.state.scopes = life.state.scopes ∧ last.state.verifier = life.state.verifier) ∧
    (∀ request : Request, ∃ state : RequestState,
      (run e (history ++ [.create request])).lives = (run e history).lives ++ [⟨[], state⟩] ∧
      state.phase = .created ∧ state.scopes = e.scopes request ∧ state.denials = []) ∧
    (∀ (index : Nat) (life : Life), (run e history).lives[index]? = some life →
      life.Accounted e) := by
  refine ⟨?others, ?lawful, ?kept, ?created, ?accounted⟩
  case others =>
    intro action index life h hother
    rw [run_append, List.foldl_cons, List.foldl_nil, lives_act h, hother]
    rfl
  case lawful =>
    intro index step life h
    refine ⟨_, _, ?_, step.lawful_takenOn e life.state⟩
    rw [run_append, List.foldl_cons, List.foldl_nil, lives_act h, Action.stepOn?, if_pos rfl]
    rfl
  case kept =>
    intro later index life h
    rw [run_append, lives_foldl h]
    exact ⟨_, rfl, Life.kept_foldl e life _⟩
  case created =>
    intro request
    rw [run_append]
    exact ⟨_, rfl, rfl, rfl, rfl⟩
  case accounted =>
    intro index life h
    obtain ⟨request, cache, steps, rfl⟩ := exists_life_of_run history h
    exact Life.accounted_life rfl rfl steps

section Witness

private def readerEnforcer : Enforcer :=
  ⟨Redaction.peopleSchema, ⟨⟨[⟨"readers", [], ClientIndex.readersSet⟩]⟩, ⟨true, 0⟩⟩,
    .fixed (.ofScopes ["readers"]), .authorizeAll, .prune⟩

private def mailRequest : Request :=
  ⟨"{ me { id mail } }", none, [], []⟩

private def brokenRequest : Request :=
  ⟨"me", none, [], []⟩

/-- Of two requests the first is enforced three times, and marked too early and in time. -/
private def mailHistory : List Action :=
  [.create mailRequest, .create mailRequest, .take 0 .markExecuted,
    .take 0 (.enforce brokenRequest), .take 0 (.enforce mailRequest),
    .take 0 (.enforce mailRequest), .take 0 .markExecuted]

private theorem parse_mailRequest : Document.parse mailRequest.query =
    .ok ⟨[.operation ⟨none, ⟨1, 1⟩, ⟨1, 18⟩, [.field ⟨⟨1, 3⟩, ⟨1, 6⟩, ⟨1, 16⟩, none, "me", [], []⟩
      [.field ⟨⟨1, 8⟩, ⟨1, 8⟩, ⟨1, 8⟩, none, "id", [], []⟩ [],
        .field ⟨⟨1, 11⟩, ⟨1, 11⟩, ⟨1, 11⟩, none, "mail", [], []⟩ []]]⟩]⟩ := by
  cbv

private theorem parse_brokenRequest :
    Document.parse brokenRequest.query = .error .malformed := by
  cbv

/-- The second of three enforcements succeeds, and its denials are those of the request. -/
theorem lifecycle_invariant_of_retries : ∃ life other : Life,
    (run readerEnforcer mailHistory).lives[0]? = some life ∧
    (run readerEnforcer mailHistory).lives[1]? = some other ∧
    life.state.phase = .executed ∧
    life.state.denials =
      [⟨.operation none, ["me", "mail"], "Person", "mail", ⟨1, 11⟩, .notPermitted⟩] ∧
    life.Accounted readerEnforcer ∧
    (run readerEnforcer (mailHistory ++ [.take 0 (.finalize .empty)])).lives[1]? = some other := by
  obtain ⟨life, other, hlives, hphase, hdenials⟩ : ∃ life other : Life,
      (run readerEnforcer mailHistory).lives = [life, other] ∧
      life.state.phase = .executed ∧ life.state.denials =
        [⟨.operation none, ["me", "mail"], "Person", "mail", ⟨1, 11⟩, .notPermitted⟩] := by
    simp only [run, mailHistory, List.foldl_cons, List.foldl_nil, act, Life.take,
      LifecycleStep.takenOn, LifecycleStep.toStep, RequestStep.enforce, RequestStep.markExecuted,
      RequestStep.perform_bind, RequestStep.perform_require, RequestStep.perform_ofQuery,
      RequestStep.perform_get, RequestStep.perform_record, RequestStep.perform_advance,
      RequestStep.perform_pure, parse_mailRequest, parse_brokenRequest]
    exact ⟨_, _, rfl, rfl, rfl⟩
  have hlife : (run readerEnforcer mailHistory).lives[0]? = some life := by rw [hlives]; rfl
  have hother : (run readerEnforcer mailHistory).lives[1]? = some other := by rw [hlives]; rfl
  obtain ⟨hframe, -, -, -, haccounted⟩ := lifecycle_invariant readerEnforcer mailHistory
  exact ⟨life, other, hlife, hother, hphase, hdenials, haccounted 0 life hlife,
    hframe _ 1 other hother rfl⟩

end Witness

end Session

end FieldAuthorization
