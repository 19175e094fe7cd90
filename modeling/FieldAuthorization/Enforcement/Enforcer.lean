import FieldAuthorization.Access.VerifierCache
import FieldAuthorization.Document.Parser
import FieldAuthorization.Enforcement.Request
import FieldAuthorization.Enforcement.Result
import FieldAuthorization.Introspection.Filter
import FieldAuthorization.Redaction.Basic

/-!
The life of a request: created, redacted, executed by its host, finalized.

An enforcer never changes; the cache of verifiers is handed from one request to the next. A step
writes to the state of its request as it goes along, so what it has written before it fails would
stay.
-/

set_option autoImplicit false
set_option relaxedAutoImplicit false

namespace FieldAuthorization

inductive Phase
  | created
  | redacted
  | executed
  | finalized
deriving DecidableEq

def Phase.label : Phase → String
  | .created => "created"
  | .redacted => "redacted"
  | .executed => "executed"
  | .finalized => "finalized"

inductive AuthorizationError
  | settings (e : SettingsError)
  | schema (e : SchemaError)
  | query (e : QueryError)
  | outOfOrder (expected actual : Phase)

def AuthorizationError.message : AuthorizationError → String
  | .settings e => "Configuration error: " ++ e.message
  | .schema e => "Schema error: " ++ e.message
  | .query e => "Query error: " ++ e.message
  | .outOfOrder expected actual =>
    "Enforcement error: Lifecycle step requires phase " ++ expected.label
      ++ ", but the request is " ++ actual.label

structure RequestState where
  schema : Schema
  phase : Phase
  scopes : ScopeSet
  verifier : SharedVerifier
  denials : List Denial

structure EnforcerOptions where
  extensions : ExtensionProvider
  emptySelections : Option EmptySelections
  cache : Option CacheSettings

structure Enforcer where
  schema : Schema
  source : VerifierSource
  scopes : ScopeProvider
  extensions : ExtensionProvider
  emptySelections : EmptySelections

/-- A redacted query with the one that it came from. -/
structure EnforcedQuery where
  received : Document
  document : Document
  operationName : Option String

/-- What a host is asked to execute. -/
structure HostCall where
  document : Document
  operationName : Option String
  variableValues : Json.Members

/-- What an observer of an enforcer sees. -/
inductive Event
  | creating (scopes : ScopeSet) (operationName : Option String)
  | enforced (received redacted : Document) (denials : List Denial)

/-- A step on the state of a request. It may fail, and the state is then left as it stands. -/
abbrev RequestStep := ExceptT AuthorizationError (StateM RequestState)

namespace RequestStep

def require (expected : Phase) : RequestStep Unit := do
  let state ← get
  if state.phase = expected then return ()
  else throw (.outOfOrder expected state.phase)

def record (denials : List Denial) : RequestStep Unit :=
  modify fun state => { state with denials := state.denials ++ denials }

def advance (expected next : Phase) : RequestStep Unit := do
  require expected
  modify fun state => { state with phase := next }

def ofQuery {α : Type} : Except QueryError α → RequestStep α
  | .ok result => return result
  | .error e => throw (.query e)

/-- What a step answers, or how it fails, and the state that it leaves. -/
def perform {α : Type} (step : RequestStep α) (state : RequestState) :
    Except AuthorizationError α × RequestState :=
  step.run.run state

/-- What a step answers and the state after it, unless it fails. -/
def on {α : Type} (step : RequestStep α) (state : RequestState) :
    Except AuthorizationError (α × RequestState) :=
  match step.perform state with
  | (.ok answer, next) => .ok (answer, next)
  | (.error e, _) => .error e

end RequestStep

namespace Enforcer

/-- Compiles the clients of the settings against a schema. -/
def build (settings : Settings) (schema : Schema) (scopes : ScopeProvider)
    (options : EnforcerOptions) : Except AuthorizationError Enforcer :=
  match ClientIndex.build schema settings.clients with
  | .error e => .error (.settings e)
  | .ok index =>
    .ok {
      schema := schema
      source := ⟨index, options.cache.getD settings.cache⟩
      scopes := scopes
      extensions := options.extensions
      emptySelections := options.emptySelections.getD settings.emptySelections }

/-- The state of a new request, and what an observer sees of its creation. -/
def create (e : Enforcer) (request : Request) (cache : VerifierCache) :
    RequestState × VerifierCache × Event :=
  let scopes := e.scopes request
  let (verifier, cache) := e.source.lookup scopes cache
  (⟨e.schema, .created, scopes, verifier, []⟩, cache, .creating scopes request.operationName)

def authority (e : Enforcer) (state : RequestState) (request : Request) : Authority :=
  ⟨state.schema, state.verifier.verifier, some (e.extensions request)⟩

/-- The result of a request: its denials come after the errors of the host, and without data nothing
but errors is kept. -/
def finalResult (denials : List Denial) (result : ExecutionResult) : ExecutionResult :=
  let errors := result.errors ++ denials.map Denial.toResponseError
  match result.data with
  | some data => ⟨some data, errors, result.extensions⟩
  | none => ⟨none, errors, none⟩

end Enforcer

namespace RequestStep

/-- Reads and redacts the query of a request. The denials are recorded after an observer has seen
them, and the request moves on last. -/
def enforce (e : Enforcer) (request : Request) : RequestStep (EnforcedQuery × Event) := do
  require .created
  let received ← ofQuery (Document.parse request.query)
  let redaction ← ofQuery (Redaction.redact (e.authority (← get) request) e.emptySelections
    received request.operationName)
  let event := Event.enforced received redaction.document redaction.denials
  record redaction.denials
  advance .created .redacted
  return (⟨received, redaction.document, request.operationName⟩, event)

/-- Notes that the host has executed the redacted query. -/
def markExecuted : RequestStep Unit :=
  advance .redacted .executed

/-- Adds the denials of a request to the host's result. -/
def finalize (result : ExecutionResult) : RequestStep ExecutionResult := do
  advance .executed .finalized
  return Enforcer.finalResult (← get).denials result

end RequestStep

namespace Enforcer

/-- Reads and redacts the query of a request. -/
def enforce (e : Enforcer) (state : RequestState) (request : Request) :
    Except AuthorizationError (EnforcedQuery × RequestState × Event) :=
  ((RequestStep.enforce e request).on state).map fun ((enforced, event), next) =>
    (enforced, next, event)

/-- Notes that the host has executed the redacted query. -/
def markExecuted (state : RequestState) : Except AuthorizationError RequestState :=
  (RequestStep.markExecuted.on state).map Prod.snd

/-- Adds the denials of a request to the host's result. -/
def finalize (state : RequestState) (result : ExecutionResult) :
    Except AuthorizationError (ExecutionResult × RequestState) :=
  (RequestStep.finalize result).on state

/-- Filters what introspection returns to a request. -/
def filter (state : RequestState) (field : String) (value : Json) : Json :=
  Introspection.filter state.verifier.verifier field value

/-- A whole request: the host is called once, and only if the query can be redacted. Beside the
outcome stand the cache afterwards and what an observer has seen. -/
def execute {m : Type → Type} [Monad m] (e : Enforcer) (request : Request)
    (host : HostCall → m ExecutionResult) (cache : VerifierCache) :
    m (Except AuthorizationError ExecutionResult × VerifierCache × List Event) := do
  let (state, cache, creating) := e.create request cache
  match e.enforce state request with
  | .error error => return (.error error, cache, [creating])
  | .ok (enforced, state, enforcing) =>
    let result ← host ⟨enforced.document, enforced.operationName, request.variableValues⟩
    let outcome := do
      let state ← markExecuted state
      let (result, _) ← finalize state result
      return result
    return (outcome, cache, [creating, enforcing])

end Enforcer

end FieldAuthorization
