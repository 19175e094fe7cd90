import FieldAuthorization.Proofs.Access.Union
import FieldAuthorization.Proofs.Enforcement.History

/-!
Requests do not bear on one another, nor does the cache on any of them.

A cached verifier is the one that the index has for just its scopes, so a request is given the same
verifier whether it is found or built. Only the number of its building may differ, and no step reads
that. So whatever an enforcer has done before, a request is served as by one that has done nothing
and keeps no cache.
-/

set_option autoImplicit false
set_option relaxedAutoImplicit false

namespace FieldAuthorization

/-- Every entry holds the verifier that the index has for its scopes. -/
def VerifierCache.Faithful (c : VerifierCache) (x : ClientIndex) : Prop :=
  ∀ entry ∈ c.entries, entry.2.verifier = x.verifier entry.1

namespace VerifierCache.Faithful

variable {c : VerifierCache} {source : VerifierSource} {scopes : ScopeSet}

private theorem of_find? {x : ClientIndex} (h : c.Faithful x) {shared : SharedVerifier}
    (hfind : c.find? scopes = some shared) : shared.verifier = x.verifier scopes := by
  obtain ⟨entry, hentry, rfl⟩ := Option.map_eq_some_iff.mp hfind
  have hscopes : entry.1 = scopes := by simpa using List.find?_some hentry
  rw [← hscopes]
  exact h entry (List.mem_of_find?_eq_some hentry)

theorem verifier_lookup (h : c.Faithful source.index) (scopes : ScopeSet) :
    (source.lookup scopes c).1.verifier = source.index.verifier scopes := by
  unfold VerifierSource.lookup
  split
  · rfl
  · cases hfind : c.find? scopes with
    | some shared => exact h.of_find? hfind
    | none => dsimp only; split <;> rfl

private theorem lookup (h : c.Faithful source.index) (scopes : ScopeSet) :
    (source.lookup scopes c).2.Faithful source.index := by
  unfold VerifierSource.lookup
  split
  · exact h
  · cases c.find? scopes with
    | some shared => exact h
    | none =>
      dsimp only
      split
      · exact h
      · intro entry hentry
        rcases List.mem_append.mp hentry with hbefore | hadded
        · exact h entry hbefore
        · rw [List.mem_singleton.mp hadded]

end VerifierCache.Faithful

def RequestState.unnumbered (state : RequestState) : RequestState :=
  { state with verifier := ⟨0, state.verifier.verifier⟩ }

namespace RequestStep

/-- The step does not read the number of the verifier. -/
def Blind {α : Type} (step : RequestStep α) : Prop :=
  ∀ state : RequestState, step.perform state.unnumbered =
    ((step.perform state).1, (step.perform state).2.unnumbered)

variable {α β : Type}

private theorem blind_pure (answer : α) : Blind (pure answer) := by
  intro state
  simp

private theorem blind_bind {first : RequestStep α} {rest : α → RequestStep β} (hfirst : first.Blind)
    (hrest : ∀ answer, (rest answer).Blind) : (first >>= rest).Blind := by
  intro state
  rw [perform_bind, perform_bind, hfirst state]
  rcases first.perform state with ⟨failure | answer, next⟩
  · rfl
  · exact hrest answer next

private theorem blind_get_bind {rest : RequestState → RequestStep α}
    (hread : ∀ state : RequestState, rest state.unnumbered = rest state)
    (hrest : ∀ state, (rest state).Blind) : (get >>= rest).Blind := by
  intro state
  have hget (state : RequestState) : (get >>= rest).perform state = (rest state).perform state := by
    simp
  rw [hget, hget, hread]
  exact hrest state state

private theorem blind_ofQuery (outcome : Except QueryError α) : (ofQuery outcome).Blind := by
  intro state
  rw [perform_ofQuery, perform_ofQuery]

private theorem blind_record (denials : List Denial) : (record denials).Blind := by
  intro state
  rfl

private theorem blind_require (expected : Phase) : (require expected).Blind := by
  intro state
  have hphase : state.unnumbered.phase = state.phase := rfl
  rw [perform_require, perform_require, hphase]
  split <;> rfl

private theorem blind_advance (expected next : Phase) : (advance expected next).Blind := by
  intro state
  have hphase : state.unnumbered.phase = state.phase := rfl
  rw [perform_advance, perform_advance, hphase]
  split <;> rfl

private theorem blind_enforce (e : Enforcer) (request : Request) : (enforce e request).Blind := by
  apply blind_bind (blind_require _)
  intro _
  apply blind_bind (blind_ofQuery _)
  intro received
  -- of the state, redaction is told what the verifier allows, and not its number
  apply blind_get_bind
  · intro state
    rfl
  intro state
  apply blind_bind (blind_ofQuery _)
  intro redaction
  apply blind_bind (blind_record _)
  intro _
  apply blind_bind (blind_advance _ _)
  intro _
  apply blind_pure

private theorem blind_finalize (result : ExecutionResult) : (finalize result).Blind := by
  apply blind_bind (blind_advance _ _)
  intro _
  apply blind_get_bind
  · intro state
    rfl
  intro state
  apply blind_pure

end RequestStep

private theorem LifecycleStep.blind_toStep (step : LifecycleStep) (e : Enforcer) :
    (step.toStep e).Blind := by
  cases step with
  | enforce request =>
    apply RequestStep.blind_bind (RequestStep.blind_enforce e request)
    intro _
    apply RequestStep.blind_pure
  | markExecuted =>
    apply RequestStep.blind_bind (RequestStep.blind_advance _ _)
    intro _
    apply RequestStep.blind_pure
  | finalize result =>
    apply RequestStep.blind_bind (RequestStep.blind_finalize result)
    intro _
    apply RequestStep.blind_pure
  | filter field value =>
    apply RequestStep.blind_get_bind
    · intro state
      rfl
    intro state
    apply RequestStep.blind_pure

def Life.unnumbered (life : Life) : Life :=
  { life with state := life.state.unnumbered }

namespace Enforcer

def withCache (e : Enforcer) (settings : CacheSettings) : Enforcer :=
  { e with source := ⟨e.source.index, settings⟩ }

variable {e : Enforcer}

private theorem life_unnumbered (e : Enforcer) (born : RequestState) (steps : List LifecycleStep) :
    e.life born.unnumbered steps = (e.life born steps).unnumbered := by
  have htake (life : Life) (step : LifecycleStep) :
      life.unnumbered.take e step = (life.take e step).unnumbered := by
    have hblind := step.blind_toStep e life.state
    simp only [Life.take, Life.unnumbered, LifecycleStep.takenOn, hblind]
  show steps.foldl (Life.take e) (Life.unnumbered ⟨[], born⟩) = _
  exact List.foldl_hom Life.unnumbered htake

private theorem life_withCache (e : Enforcer) (settings : CacheSettings) (born : RequestState)
    (steps : List LifecycleStep) : (e.withCache settings).life born steps = e.life born steps := by
  have htake : Life.take (e.withCache settings) = Life.take e := by
    funext life step
    cases step <;> rfl
  rw [life, life, htake]

def finishing (result : ExecutionResult) : RequestStep ExecutionResult := do
  RequestStep.markExecuted
  RequestStep.finalize result

private theorem blind_finishing (result : ExecutionResult) : (finishing result).Blind := by
  apply RequestStep.blind_bind (RequestStep.blind_advance _ _)
  intro _
  apply RequestStep.blind_finalize

private theorem perform_finishing (state : RequestState) (result : ExecutionResult) :
    ((finishing result).perform state).1 =
      (markExecuted state).bind fun marked => (finalize marked result).map Prod.fst := by
  simp only [finishing, markExecuted, finalize, RequestStep.on, RequestStep.perform_bind]
  rcases RequestStep.markExecuted.perform state with ⟨failure | answer, marked⟩
  · rfl
  · simp only [Except.map, Except.bind]
    rcases (RequestStep.finalize result).perform marked with ⟨failure | answer, last⟩ <;> rfl

/-- What comes of a request that has been created, its steps being taken on its state in place. -/
def served (e : Enforcer) (request : Request) (host : HostCall → ExecutionResult)
    (born : RequestState) : Execution :=
  let creating := Event.creating born.scopes request.operationName
  match (RequestStep.enforce e request).perform born with
  | (.error failure, _) => ⟨.error failure, [creating], []⟩
  | (.ok (query, enforcing), next) =>
    let call : HostCall := ⟨query.document, query.operationName, request.variableValues⟩
    ⟨((finishing (host call)).perform next).1, [creating, enforcing], [call]⟩

theorem executed_eq (e : Enforcer) (request : Request) (host : HostCall → ExecutionResult)
    (cache : VerifierCache) : e.executed request host cache =
      (e.served request host (e.create request cache).1, (e.create request cache).2.1) := by
  unfold executed execute served
  simp only [enforce, RequestStep.on]
  rcases (RequestStep.enforce e request).perform (e.create request cache).1 with
    ⟨failure | ⟨query, enforcing⟩, next⟩
  · rfl
  · simp only [perform_finishing]
    rfl

theorem served_unnumbered (e : Enforcer) (request : Request) (host : HostCall → ExecutionResult)
    (born : RequestState) : e.served request host born.unnumbered = e.served request host born := by
  unfold served
  rw [RequestStep.blind_enforce e request born]
  rcases (RequestStep.enforce e request).perform born with ⟨failure | ⟨query, enforcing⟩, next⟩
  · rfl
  · simp only [blind_finishing _ next]
    rfl

private theorem create_withoutCache {cache : VerifierCache} (h : cache.Faithful e.source.index)
    (request : Request) (maxEntries : Nat) :
    ((e.withCache ⟨false, maxEntries⟩).create request .empty).1 =
      (e.create request cache).1.unnumbered := by
  have hverifier := h.verifier_lookup (e.scopes request)
  simp only [create, RequestState.unnumbered, hverifier]
  rfl

private theorem build_withCache {settings : Settings} {schema : Schema} {scopes : ScopeProvider}
    {options : EnforcerOptions} (h : build settings schema scopes options = .ok e)
    (cache : CacheSettings) :
    build settings schema scopes { options with cache := some cache } =
      .ok (e.withCache cache) := by
  unfold build at h ⊢
  cases hindex : ClientIndex.build schema settings.clients with
  | error failure => simp [hindex] at h
  | ok index =>
    simp only [hindex, Except.ok.injEq] at h ⊢
    rw [← h]
    rfl

end Enforcer

namespace Session

variable {e : Enforcer}

private theorem faithful_act {session : Session} (h : session.cache.Faithful e.source.index)
    (action : Action) : (act e session action).cache.Faithful e.source.index := by
  cases action with
  | create request => exact h.lookup (e.scopes request)
  | take index step => exact h
  | execute request host =>
    rw [act, Enforcer.executed_eq]
    exact h.lookup (e.scopes request)

theorem faithful_run (e : Enforcer) (history : List Action) :
    (run e history).cache.Faithful e.source.index := by
  induction history using List.reverseRecOn with
  | nil => exact nofun
  | append_singleton history action ih =>
    rw [run_append]
    exact faithful_act ih action

end Session

/-- Nothing differs between two lives but the number of the verifier. -/
structure Life.Alike (life other : Life) : Prop where
  replies : life.replies = other.replies
  schema : life.state.schema = other.state.schema
  phase : life.state.phase = other.state.phase
  scopes : life.state.scopes = other.state.scopes
  verifier : life.state.verifier.verifier = other.state.verifier.verifier
  denials : life.state.denials = other.state.denials
  filter : ∀ (field : String) (value : Json),
    Enforcer.filter life.state field value = Enforcer.filter other.state field value

private theorem Life.alike_unnumbered (life : Life) : life.Alike life.unnumbered :=
  ⟨rfl, rfl, rfl, rfl, rfl, rfl, fun _ _ => rfl⟩

namespace Enforcer

/-- An enforcer that has been built with any cache serves a request, after whatever it has done
before, as one that is built without a cache does at first. A whole request has the same outcome,
with the same calls of the host and the same events. A request that is created, and then taken
through any steps among whatever else is done, lives the life that it has by itself on the other
enforcer. -/
theorem build_isolated {settings : Settings} {schema : Schema} {scopes : ScopeProvider}
    {options : EnforcerOptions} {e : Enforcer}
    (h : build settings schema scopes options = .ok e) (maxEntries : Nat) :
    ∃ fresh : Enforcer,
      build settings schema scopes { options with cache := some ⟨false, maxEntries⟩ } = .ok fresh ∧
      ∀ (history : List Action) (request : Request),
        (∀ host : HostCall → ExecutionResult,
          (e.executed request host (Session.run e history).cache).1 =
            (fresh.executed request host .empty).1) ∧
        ∀ later : List Action, ∃ life : Life,
          (Session.run e (history ++ .create request :: later)).lives[
              (Session.run e history).lives.length]? = some life ∧
          life.Alike (fresh.life (fresh.create request .empty).1
            (later.filterMap (·.stepOn? (Session.run e history).lives.length))) := by
  refine ⟨e.withCache ⟨false, maxEntries⟩, build_withCache h _, ?_⟩
  intro history request
  -- the two requests are created alike, and no step tells them apart from then on
  have hcreate := create_withoutCache (Session.faithful_run e history) request maxEntries
  constructor
  · intro host
    rw [executed_eq, executed_eq, hcreate]
    exact (served_unnumbered e request host _).symm
  · intro later
    have hborn := Session.lives_create e (Session.run e history) request
    refine ⟨e.life (e.create request (Session.run e history).cache).1
      (later.filterMap (·.stepOn? (Session.run e history).lives.length)), ?_, ?_⟩
    · rw [Session.run_append, List.foldl_cons]
      exact Session.lives_foldl hborn later
    · rw [life_withCache, hcreate, life_unnumbered]
      apply Life.alike_unnumbered

section Witness

private def staffSettings : Settings :=
  { Settings.initial with clients := ClientIndex.staffClients }

private def staffOptions (cache : CacheSettings) : EnforcerOptions :=
  ⟨.authorizeAll, none, some cache⟩

private def staffRequest (query scopes : String) : Request :=
  ⟨query, none, [], [("scopes", scopes)]⟩

/-- Support is served first and fills the cache, and a reader's request is under way. -/
private def staffHistory : List Action :=
  [.execute (staffRequest ClientIndex.supportQuery "support:a") (fun _ => .empty),
    .create (staffRequest ClientIndex.readersQuery "readers"),
    .take 0 (.enforce (staffRequest ClientIndex.supportQuery "support:a"))]

/-- Support finds its verifier in the cache, and a reader finds the cache full. -/
theorem build_isolated_of_staff : ∃ e fresh : Enforcer,
    build staffSettings Redaction.peopleSchema (.ofAttribute "scopes") (staffOptions ⟨true, 1⟩) =
      .ok e ∧
    build staffSettings Redaction.peopleSchema (.ofAttribute "scopes") (staffOptions ⟨false, 0⟩) =
      .ok fresh ∧
    ∀ scopes ∈ ["support:a", "readers"],
      (e.executed (staffRequest ClientIndex.supportQuery scopes) (fun _ => .empty)
          (Session.run e staffHistory).cache).1 =
        (fresh.executed (staffRequest ClientIndex.supportQuery scopes) (fun _ => .empty)
          .empty).1 := by
  obtain ⟨x, hx⟩ := ClientIndex.exists_build_staffClients
  have hbuild : build staffSettings Redaction.peopleSchema (.ofAttribute "scopes")
      (staffOptions ⟨true, 1⟩) = .ok ⟨Redaction.peopleSchema, ⟨x, ⟨true, 1⟩⟩,
        .ofAttribute "scopes", .authorizeAll, .prune⟩ := by
    simp only [build, staffSettings, hx]
    rfl
  obtain ⟨fresh, hfresh, hisolated⟩ := build_isolated hbuild 0
  refine ⟨_, fresh, hbuild, hfresh, fun scopes _ => ?_⟩
  exact (hisolated staffHistory (staffRequest ClientIndex.supportQuery scopes)).1 _

end Witness

end Enforcer

end FieldAuthorization
