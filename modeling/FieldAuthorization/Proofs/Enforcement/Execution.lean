import FieldAuthorization.Proofs.Enforcement.Isolation
import FieldAuthorization.Proofs.Enforcement.Lifecycle
import FieldAuthorization.Proofs.Redaction.Soundness

/-!
A whole request: redacted, executed by its host, and reported on.

To execute a request is to take its steps by hand. Only a query that cannot be read, or of which no
operation can be chosen, is refused. Any other is redacted, and the host is asked once about what is
left of it; no later step can fail, and the denials come after the errors of the host.
-/

set_option autoImplicit false
set_option relaxedAutoImplicit false

namespace FieldAuthorization

def Request.chosen (request : Request) : Except QueryError (Document × Nat) :=
  (Document.parse request.query).bind fun received =>
    (received.chosenIndex request.operationName).map (received, ·)

namespace Request

variable {request : Request}

private theorem chosen_eq_ok {received : Document} {index : Nat} :
    request.chosen = .ok (received, index) ↔ Document.parse request.query = .ok received ∧
      received.chosenIndex request.operationName = .ok index := by
  unfold chosen
  cases Document.parse request.query with
  | error p => simp [Except.bind]
  | ok d =>
    cases hindex : d.chosenIndex request.operationName with
    | error p =>
      simp only [Except.bind, Except.map, hindex, reduceCtorEq, Except.ok.injEq, false_iff]
      rintro ⟨rfl, h⟩
      simp [hindex] at h
    | ok i =>
      simp only [Except.bind, Except.map, hindex, Except.ok.injEq, Prod.mk.injEq]
      refine and_congr_right ?_
      rintro rfl
      simp [hindex]

private theorem chosen_eq_error {q : QueryError} :
    request.chosen = .error q ↔ Document.parse request.query = .error q ∨
      ∃ received, Document.parse request.query = .ok received ∧
        received.chosenIndex request.operationName = .error q := by
  unfold chosen
  cases Document.parse request.query with
  | error p => simp [Except.bind]
  | ok d =>
    cases hindex : d.chosenIndex request.operationName <;>
      simp [Except.bind, Except.map, hindex]

end Request

/-- How a result takes up denials: the errors of the host come first and in their order, and its
data and extensions are kept if there are data. -/
structure Merged (denials : List Denial) (given final : ExecutionResult) : Prop where
  errors : final.errors = given.errors ++ denials.map Denial.toResponseError
  kept : ∀ data, given.data = some data →
    final.data = some data ∧ final.extensions = given.extensions
  dropped : given.data = none → final.data = none ∧ final.extensions = none

private theorem merged_finalResult (denials : List Denial) (given : ExecutionResult) :
    Merged denials given (Enforcer.finalResult denials given) := by
  obtain ⟨data, errors, extensions⟩ := given
  cases data with
  | none => exact ⟨rfl, nofun, fun _ => ⟨rfl, rfl⟩⟩
  | some data => exact ⟨rfl, fun _ h => ⟨h, rfl⟩, nofun⟩

namespace RequestStep

variable {e : Enforcer} {request : Request} {state : RequestState}

private theorem perform_enforce_of_error {q : QueryError} (hphase : state.phase = .created)
    (h : request.chosen = .error q) :
    (enforce e request).perform state = (.error (.query q), state) := by
  rw [Request.chosen_eq_error] at h
  simp only [enforce, perform_bind, perform_require, perform_ofQuery, perform_get, if_pos hphase]
  obtain hparse | ⟨received, hparse, hindex⟩ := h
  · rw [hparse]
    rfl
  · simp [hparse, Redaction.redact, Document.restrict, hindex, Except.mapError, Except.map]

private theorem perform_enforce_of_ok {received : Document} {index : Nat}
    (hphase : state.phase = .created) (h : request.chosen = .ok (received, index)) :
    ∃ r, Redaction.redact (e.authority state request) e.emptySelections received
        request.operationName = .ok r ∧
      (enforce e request).perform state =
        (.ok (⟨received, r.document, request.operationName⟩,
            .enforced received r.document r.denials),
          { state with phase := .redacted, denials := state.denials ++ r.denials }) := by
  obtain ⟨hparse, hindex⟩ := Request.chosen_eq_ok.mp h
  refine ⟨_, Redaction.redact_of_chosenIndex hindex, ?_⟩
  simp only [enforce, perform_bind, perform_require, perform_ofQuery, perform_get, perform_record,
    perform_advance, perform_pure, if_pos hphase, hparse, Except.mapError,
    Redaction.redact_of_chosenIndex hindex]

private theorem perform_finishing_of_redacted (hphase : state.phase = .redacted)
    (result : ExecutionResult) : (Enforcer.finishing result).perform state =
      (.ok (Enforcer.finalResult state.denials result), { state with phase := .finalized }) := by
  simp only [Enforcer.finishing, markExecuted, finalize, perform_bind, perform_advance, perform_get,
    perform_pure, if_pos hphase, if_true]

end RequestStep

namespace Enforcer

variable {request : Request} {born : RequestState}

private theorem served_of_error (e : Enforcer) (host : HostCall → ExecutionResult) {q : QueryError}
    (hphase : born.phase = .created)
    (h : request.chosen = .error q) : e.served request host born =
      ⟨.error (.query q), [.creating born.scopes request.operationName], []⟩ := by
  rw [served, RequestStep.perform_enforce_of_error hphase h]

private theorem served_of_ok (e : Enforcer) (host : HostCall → ExecutionResult)
    {received : Document} {index : Nat} (hphase : born.phase = .created)
    (hdenials : born.denials = []) (h : request.chosen = .ok (received, index)) :
    ∃ r, Redaction.redact (e.authority born request) e.emptySelections received
        request.operationName = .ok r ∧
      e.served request host born =
        ⟨.ok (finalResult r.denials
            (host ⟨r.document, request.operationName, request.variableValues⟩)),
          [.creating born.scopes request.operationName,
            .enforced received r.document r.denials],
          [⟨r.document, request.operationName, request.variableValues⟩]⟩ := by
  obtain ⟨r, hredact, henforce⟩ := RequestStep.perform_enforce_of_ok (e := e) hphase h
  refine ⟨r, hredact, ?_⟩
  rw [served, henforce]
  simp only [RequestStep.perform_finishing_of_redacted, hdenials, List.nil_append]

end Enforcer

namespace Life

def reply? (life : Life) : Option Reply :=
  life.replies.getLast?.map Prod.snd

/-- What a request has come to by its last step, if this fails or finalizes it. -/
def outcome? (life : Life) : Option (Except AuthorizationError ExecutionResult) :=
  match life.reply? with
  | some (.error failure) => some (.error failure)
  | some (.ok (.finalized result)) => some (.ok result)
  | _ => none

end Life

namespace Enforcer

variable {e : Enforcer} {request : Request} {born : RequestState}

private theorem life_of_error {q : QueryError} (hphase : born.phase = .created)
    (h : request.chosen = .error q) :
    e.life born [.enforce request] = ⟨[(.enforce request, .error (.query q))], born⟩ := by
  simp only [life, List.foldl_cons, List.foldl_nil, Life.take, LifecycleStep.takenOn,
    LifecycleStep.toStep, RequestStep.perform_bind, RequestStep.perform_enforce_of_error hphase h,
    List.nil_append]

private theorem life_of_ok {received : Document} {index : Nat} (hphase : born.phase = .created)
    (hdenials : born.denials = []) (h : request.chosen = .ok (received, index)) :
    ∃ r, Redaction.redact (e.authority born request) e.emptySelections received
        request.operationName = .ok r ∧
      (e.life born [.enforce request]).replies =
        [(.enforce request, .ok (.enforced ⟨received, r.document, request.operationName⟩
          (.enforced received r.document r.denials)))] ∧
      ∀ result, (e.life born [.enforce request, .markExecuted, .finalize result]).replies =
        [(.enforce request, .ok (.enforced ⟨received, r.document, request.operationName⟩
            (.enforced received r.document r.denials))),
          (.markExecuted, .ok .executed),
          (.finalize result, .ok (.finalized (finalResult r.denials result)))] := by
  obtain ⟨r, hredact, henforce⟩ := RequestStep.perform_enforce_of_ok (e := e) hphase h
  refine ⟨r, hredact, ?_, fun result => ?_⟩
  all_goals
    simp only [life, List.foldl_cons, List.foldl_nil, Life.take, LifecycleStep.takenOn,
      LifecycleStep.toStep, RequestStep.perform_bind, RequestStep.perform_pure, henforce,
      RequestStep.markExecuted, RequestStep.finalize, RequestStep.perform_advance,
      RequestStep.perform_get, if_true, hdenials, List.nil_append, List.cons_append]

end Enforcer

namespace Session

variable {e : Enforcer} {session : Session} {request : Request}
  {host : HostCall → ExecutionResult}

/-- Executes a request by hand: it is created and enforced and, if that succeeds, marked and
finalized with the answer of the host. Beside the session stand the calls of the host. -/
def byHand (e : Enforcer) (session : Session) (request : Request)
    (host : HostCall → ExecutionResult) : Session × List HostCall :=
  let index := session.lives.length
  let enforced := act e (act e session (.create request)) (.take index (.enforce request))
  match enforced.lives[index]?.bind Life.reply? with
  | some (.ok (.enforced query _)) =>
    let call : HostCall := ⟨query.document, query.operationName, request.variableValues⟩
    let marked := act e enforced (.take index .markExecuted)
    (act e marked (.take index (.finalize (host call))), [call])
  | _ => (enforced, [])

def handled (e : Enforcer) (session : Session) (request : Request) (steps : List LifecycleStep) :
    Session :=
  ⟨(e.create request session.cache).2.1,
    session.lives ++ [e.life (e.create request session.cache).1 steps]⟩

private theorem act_handled (steps : List LifecycleStep) (step : LifecycleStep) :
    act e (session.handled e request steps) (.take session.lives.length step) =
      session.handled e request (steps ++ [step]) := by
  simp [act, handled, List.modify_eq_take_drop, Enforcer.life_concat]

private theorem byHand_eq : session.byHand e request host =
    match (e.life (e.create request session.cache).1 [.enforce request]).reply? with
    | some (.ok (.enforced query _)) =>
      let call : HostCall := ⟨query.document, query.operationName, request.variableValues⟩
      (session.handled e request [.enforce request, .markExecuted, .finalize (host call)], [call])
    | _ => (session.handled e request [.enforce request], []) := by
  have hcreate : act e session (.create request) = session.handled e request [] := rfl
  have hreply : (session.handled e request [.enforce request]).lives[session.lives.length]?.bind
      Life.reply? =
        (e.life (e.create request session.cache).1 [.enforce request]).reply? := by
    simp [handled]
  simp only [byHand, hcreate, act_handled, List.nil_append, List.cons_append, hreply]

end Session

namespace Enforcer

/-- To execute a request is to take its steps by hand, with the same outcome, the same calls of the
host and the same events. If the query cannot be read or none of its
operations can be chosen, this is the outcome and the host is not called. Otherwise the host is
called once, about the very document that an observer is shown as redacted, no step fails, and the
denials come after the errors of the host. -/
theorem execute_faithful (e : Enforcer) (session : Session) (request : Request)
    (host : HostCall → ExecutionResult) :
    ∃ life : Life,
      session.byHand e request host =
        (⟨(e.executed request host session.cache).2, session.lives ++ [life]⟩,
          (e.executed request host session.cache).1.calls) ∧
      life.outcome? = some (e.executed request host session.cache).1.outcome ∧
      (e.executed request host session.cache).1.events =
        (e.create request session.cache).2.2 :: life.enforcements.map Prod.snd ∧
      (∀ q, request.chosen = .error q →
        (e.executed request host session.cache).1 =
          ⟨.error (.query q), [.creating (e.scopes request) request.operationName], []⟩) ∧
      ∀ (received : Document) (index : Nat), request.chosen = .ok (received, index) →
        ∃ (r : Redaction) (final : ExecutionResult),
          Redaction.redact (e.authority (e.create request session.cache).1 request)
            e.emptySelections received request.operationName = .ok r ∧
          (e.executed request host session.cache).1 =
            ⟨.ok final,
              [.creating (e.scopes request) request.operationName,
                .enforced received r.document r.denials],
              [⟨r.document, request.operationName, request.variableValues⟩]⟩ ∧
          (∀ taken ∈ life.replies, taken.2.isOk) ∧
          Merged r.denials
            (host ⟨r.document, request.operationName, request.variableValues⟩) final := by
  have hphase : (e.create request session.cache).1.phase = .created := rfl
  have hdenials : (e.create request session.cache).1.denials = [] := rfl
  rw [executed_eq, Session.byHand_eq]
  cases hchosen : request.chosen with
  | error q =>
    rw [served_of_error e host hphase hchosen, life_of_error hphase hchosen]
    refine ⟨_, rfl, ?outcome, ?events, ?_, nofun⟩
    case outcome =>
      rw [life_of_error hphase hchosen]
      rfl
    case events =>
      rw [life_of_error hphase hchosen]
      rfl
    · intro p hp
      rw [Except.error.inj hp]
      rfl
  | ok choice =>
    obtain ⟨received, index⟩ := choice
    obtain ⟨r, hredact, hserved⟩ := served_of_ok e host hphase hdenials hchosen
    obtain ⟨r', hredact', henforced, hreplies⟩ := life_of_ok (e := e) hphase hdenials hchosen
    obtain rfl : r' = r := Except.ok.inj (hredact'.symm.trans hredact)
    rw [hserved, Life.reply?, henforced]
    refine ⟨_, rfl, ?outcome, ?events, nofun, ?_⟩
    case outcome => simp [Life.outcome?, Life.reply?, hreplies]
    case events =>
      rw [Life.enforcements, hreplies]
      rfl
    · intro d i h
      obtain ⟨rfl, rfl⟩ : received = d ∧ index = i := by simpa using h
      refine ⟨r', _, hredact, rfl, ?_, merged_finalResult _ _⟩
      simp [hreplies, Except.isOk, Except.toBool]

section Witness

private def memberEnforcer : Enforcer :=
  ⟨Redaction.peopleSchema, ⟨⟨[⟨"readers", [], ClientIndex.readersSet⟩]⟩, ⟨true, 4⟩⟩,
    .fixed (.ofScopes ["readers"]), .authorizeAll, .prune⟩

private def memberRequest : Request :=
  ⟨"{ me { id mail } }", none, [], []⟩

private def twofoldRequest : Request :=
  ⟨"query A { me { id } } query B { me { id } }", none, [], []⟩

private def absentResult : ExecutionResult :=
  ⟨some (.object [("me", .null)]), [⟨"no such person", [], [], none⟩], some [("cost", .null)]⟩

private theorem parse_memberRequest : Document.parse memberRequest.query =
    .ok ⟨[.operation ⟨none, ⟨1, 1⟩, ⟨1, 18⟩, [.field ⟨⟨1, 3⟩, ⟨1, 6⟩, ⟨1, 16⟩, none, "me", [], []⟩
      [.field ⟨⟨1, 8⟩, ⟨1, 8⟩, ⟨1, 8⟩, none, "id", [], []⟩ [],
        .field ⟨⟨1, 11⟩, ⟨1, 11⟩, ⟨1, 11⟩, none, "mail", [], []⟩ []]]⟩]⟩ := by
  cbv

private theorem chosen_twofoldRequest : twofoldRequest.chosen = .error .ambiguousOperation := by
  cbv

/-- The mail is reported after the error of the host, and the second request does not reach it. -/
theorem execute_faithful_of_member : ∃ received final,
    memberRequest.chosen = .ok (received, 0) ∧
    (memberEnforcer.executed memberRequest (fun _ => absentResult) .empty).1.outcome = .ok final ∧
    final.data = absentResult.data ∧ final.extensions = absentResult.extensions ∧
    final.errors.map (·.message) =
      ["no such person", "Not authorized to access field 'mail' of type 'Person'"] ∧
    twofoldRequest.chosen = .error .ambiguousOperation ∧
    (memberEnforcer.executed twofoldRequest (fun _ => absentResult) .empty).1.calls = [] := by
  obtain ⟨_, -, -, -, -, hserved⟩ :=
    execute_faithful memberEnforcer ⟨.empty, []⟩ memberRequest fun _ => absentResult
  obtain ⟨-, -, -, -, hrefused, -⟩ :=
    execute_faithful memberEnforcer ⟨.empty, []⟩ twofoldRequest fun _ => absentResult
  have hmember : memberRequest.chosen = .ok (_, 0) :=
    Request.chosen_eq_ok.mpr ⟨parse_memberRequest, rfl⟩
  obtain ⟨r, final, hredact, hexecuted, -, hmerged⟩ := hserved _ _ hmember
  obtain ⟨hdata, hextensions⟩ := hmerged.kept _ rfl
  have hdenials : r.denials =
      [⟨.operation none, ["me", "mail"], "Person", "mail", ⟨1, 11⟩, .notPermitted⟩] :=
    congrArg Redaction.denials (Except.ok.inj hredact).symm
  refine ⟨_, final, hmember, by rw [hexecuted], hdata, hextensions, ?_, chosen_twofoldRequest, ?_⟩
  · rw [hmerged.errors, hdenials]
    rfl
  · rw [hrefused _ chosen_twofoldRequest]

end Witness

end Enforcer

end FieldAuthorization
