import FieldAuthorization.CommandLine.Run
import FieldAuthorization.Files.Tree
import FieldAuthorization.Proofs.Schema.Types

/-!
Validated settings build.

Validation looks at every client before any declaration is compiled, and the index looks at each
client just before it compiles the client's declarations. Both find the same faults, so settings
that pass validation can only fail to build for a declaration, and what the index refuses for any
other reason, validation refuses too.
-/

set_option autoImplicit false
set_option relaxedAutoImplicit false

namespace FieldAuthorization

namespace SettingsError

/-- The index and validation report one fault. Validation alone names the client of a pattern. -/
inductive Matches : SettingsError → SettingsError → Prop
  | noClients : Matches .noClients .noClients
  | noQueries (id : String) : Matches (.noQueries id) (.noQueries id)
  | invalidPattern (pattern id : String) :
      Matches (.invalidPattern pattern none) (.invalidPattern pattern (some id))

/-- Nothing but validation asks for identifiers, and for room in the cache. -/
def IsOutsideIndex (fault : SettingsError) : Prop :=
  fault = .emptyClientId ∨ fault = .noCacheEntries

end SettingsError

variable {β : Type}

/-- What validation says of settings, and what comes of building them. A fault is found by both,
unless it lies in a declaration or is none of the index's concern. -/
inductive Agrees : Except SettingsError Unit → Except SettingsError β → Prop
  | refused {e fault : SettingsError} : e.Matches fault → Agrees (.error fault) (.error e)
  | outside {fault : SettingsError} (result : Except SettingsError β) :
      fault.IsOutsideIndex → Agrees (.error fault) result
  | declaration (verdict : Except SettingsError Unit) (d : DeclarationError) :
      Agrees verdict (.error (.declaration d))
  | built (made : β) : Agrees (.ok ()) (.ok made)

private theorem Client.agrees (s : Schema) (id : String) (client : Client) :
    Agrees (client.validate id) (IndexedClient.build s id client) := by
  unfold validate IndexedClient.build
  split
  · exact .outside _ (.inl rfl)
  · split
    · exact .refused (.noQueries id)
    · cases ScopePattern.compileAll client.scopes with
      | error pattern => exact .refused (.invalidPattern pattern id)
      | ok patterns =>
        cases Declaration.compile s id client.queries with
        | error d => exact .declaration _ d
        | ok permissions => exact .built _

namespace Agrees

variable {α γ : Type} {verdict next : Except SettingsError Unit} {result : Except SettingsError β}

private theorem bind {more : β → Except SettingsError γ} (h : Agrees verdict result)
    (hnext : ∀ made, Agrees next (more made)) :
    Agrees (verdict >>= fun _ => next) (result >>= more) := by
  cases h with
  | refused hmatches => exact .refused hmatches
  | outside _ houtside => exact .outside _ houtside
  | declaration _ d => exact .declaration _ d
  | built made => exact hnext made

private theorem map (h : Agrees verdict result) (f : β → γ) : Agrees verdict (result.map f) := by
  cases h with
  | refused hmatches => exact .refused hmatches
  | outside _ houtside => exact .outside _ houtside
  | declaration _ d => exact .declaration _ d
  | built made => exact .built (f made)

private theorem forM_mapM {validate : α → Except SettingsError Unit}
    {build : α → Except SettingsError β} (h : ∀ x, Agrees (validate x) (build x)) (l : List α) :
    Agrees (l.forM validate) (l.mapM build) := by
  induction l with
  | nil => exact .built []
  | cons x rest ih =>
    have hrest (made : β) : Agrees (rest.forM validate)
        (rest.mapM build >>= fun more => pure (made :: more)) := by
      rw [bind_pure_comp]
      exact ih.map (made :: ·)
    rw [List.mapM_cons]
    exact (h x).bind hrest

end Agrees

private theorem Settings.agrees (settings : Settings) (s : Schema) :
    Agrees settings.validate (ClientIndex.build s settings.clients) := by
  have hclients := Agrees.forM_mapM
    (fun entry : String × Client => entry.2.agrees s entry.1) settings.clients.toList
  unfold validate ClientIndex.build
  split
  · exact .refused .noClients
  · have hcache (index : ClientIndex) : Agrees settings.cache.validate (pure index) := by
      unfold CacheSettings.validate
      split
      · exact .outside _ (.inr rfl)
      · exact .built index
    have h := (hclients.map ClientIndex.mk).bind hcache
    rwa [bind_pure] at h

variable {settings : Settings} {s : Schema} {e fault : SettingsError}

private theorem ClientIndex.exists_declaration (h : settings.validate = .ok ())
    (he : build s settings.clients = .error e) : ∃ d, e = .declaration d := by
  have hagrees := settings.agrees s
  rw [h, he] at hagrees
  cases hagrees with
  | declaration _ d => exact ⟨d, rfl⟩

private theorem Settings.exists_fault (he : ClientIndex.build s settings.clients = .error e)
    (hnot : ∀ d, e ≠ .declaration d) :
    ∃ fault, settings.validate = .error fault ∧ (e.Matches fault ∨ fault.IsOutsideIndex) := by
  have hagrees := settings.agrees s
  rw [he] at hagrees
  generalize settings.validate = verdict at hagrees
  cases hagrees with
  | refused hmatches => exact ⟨_, rfl, .inl hmatches⟩
  | outside _ houtside => exact ⟨_, rfl, .inr houtside⟩
  | declaration _ d => exact absurd rfl (hnot d)

private theorem ClientIndex.exists_error (h : settings.validate = .error fault)
    (hinside : ¬ fault.IsOutsideIndex) (s : Schema) : ∃ e, build s settings.clients = .error e := by
  have hagrees := settings.agrees s
  rw [h] at hagrees
  generalize build s settings.clients = result at hagrees
  cases hagrees with
  | refused => exact ⟨_, rfl⟩
  | outside _ houtside => exact absurd houtside hinside
  | declaration => exact ⟨_, rfl⟩

namespace Settings

private theorem validate_of_ofSetting {root : Setting} (h : ofSetting root = .ok settings) :
    settings.validate = .ok () := by
  unfold ofSetting at h
  split at h
  · cases h
  · split at h
    · cases h
    · rename_i hvalid
      cases h
      exact hvalid

private theorem validate_of_ofToml {toml : String} (h : ofToml toml = .ok settings) :
    settings.validate = .ok () := by
  unfold ofToml at h
  split at h
  · cases h
  · exact validate_of_ofSetting h

variable {m : Type → Type} [Monad m] [LawfulMonad m]

private theorem validate_of_load (lookup : FileLookup m) (env : Environment)
    (path : Option String) :
    SatisfiesM (fun loaded => ∀ settings, loaded = .ok settings → settings.validate = .ok ())
      (load lookup env path) := by
  unfold load
  extract_lets afterwards
  have hafterwards (source : Option (String × FileEntry)) :
      SatisfiesM (fun loaded => ∀ settings, loaded = .ok settings → settings.validate = .ok ())
        (afterwards source) := by
    unfold afterwards
    split
    · exact SatisfiesM.pure fun settings => validate_of_ofSetting
    · exact SatisfiesM.pure nofun
    · refine SatisfiesM.bind SatisfiesM.trivial fun root _ => ?_
      split
      · exact SatisfiesM.pure nofun
      · exact SatisfiesM.pure fun settings => validate_of_ofSetting
  split
  · refine SatisfiesM.bind SatisfiesM.trivial fun entry _ => ?_
    exact SatisfiesM.bind SatisfiesM.trivial fun source _ => hafterwards source
  · exact SatisfiesM.bind SatisfiesM.trivial fun source _ => hafterwards source

end Settings

namespace CommandLine

/-- Why settings that have been validated can fail their check: there is no schema to check them
against, or a declaration does not fit it. -/
inductive CheckFault : CommandError → Prop
  | noSchema : CheckFault .noSchema
  | schemaNotFound (path : String) : CheckFault (.settings (.schemaNotFound path))
  | schemaUnreadable : CheckFault (.settings .unreadable)
  | schema (e : SchemaError) : CheckFault (.settings (.schema e))
  | declaration (d : DeclarationError) : CheckFault (.settings (.declaration d))

variable {m : Type → Type} [Monad m] [LawfulMonad m]

private theorem checkFault_of_load (lookup : FileLookup m) (path : String) :
    SatisfiesM (fun loaded => ∀ e, loaded = .error e → CheckFault (.settings e))
      (Schema.load lookup path) := by
  unfold Schema.load
  refine SatisfiesM.bind SatisfiesM.trivial fun entry _ => ?_
  split
  · exact SatisfiesM.pure fun e he => Except.error.inj he ▸ .schemaNotFound path
  · split
    · exact SatisfiesM.pure fun e he => Except.error.inj he ▸ .schemaUnreadable
    · split
      · exact SatisfiesM.pure fun e he => Except.error.inj he ▸ .schema _
      · exact SatisfiesM.pure nofun

variable {around : Surroundings m} {o : Options}

private theorem perform_check {Fault : CommandError → Prop} (h : settings.validate = .ok ())
    (hcheck : o.check = true) (hnone : o.schema.or settings.schema = none → Fault .noSchema)
    (hload : ∀ path, o.schema.or settings.schema = some path →
      SatisfiesM (fun loaded => ∀ e, loaded = .error e → Fault (.settings e))
        (Schema.load around.lookup path))
    (hbuild : ∀ d, Fault (.settings (.declaration d))) :
    SatisfiesM (fun outcome => ∀ e, outcome = .error e → Fault e) (perform around o settings) := by
  unfold perform
  split
  · rename_i hschema
    exact SatisfiesM.pure fun e he => Except.error.inj he ▸ hnone hschema
  · rename_i path hschema
    refine SatisfiesM.bind (hload path hschema) fun loaded hloaded => ?_
    split
    · rename_i e
      exact SatisfiesM.pure fun e' he' => Except.error.inj he' ▸ hloaded e rfl
    · rw [if_pos hcheck]
      split
      · rename_i schema _ e he
        obtain ⟨d, rfl⟩ := ClientIndex.exists_declaration h he
        exact SatisfiesM.pure fun e' he' => Except.error.inj he' ▸ hbuild d
      · exact SatisfiesM.pure nofun

private theorem checkFault_of_perform (h : settings.validate = .ok ()) (hcheck : o.check = true) :
    SatisfiesM (fun outcome => ∀ e, outcome = .error e → CheckFault e)
      (perform around o settings) :=
  perform_check h hcheck (fun _ => .noSchema) (fun path _ => checkFault_of_load around.lookup path)
    .declaration

private theorem exists_declaration_of_perform (h : settings.validate = .ok ())
    (hcheck : o.check = true) {path : String} (hpath : o.schema.or settings.schema = some path)
    (hload : SatisfiesM (fun loaded => ∃ s, loaded = .ok s) (Schema.load around.lookup path)) :
    SatisfiesM (fun outcome => ∀ e, outcome = .error e → ∃ d, e = .settings (.declaration d))
      (perform around o settings) := by
  refine perform_check h hcheck (fun hnone => ?none) (fun other hother => ?load) fun d => ⟨d, rfl⟩
  case none => simp [hnone] at hpath
  case load =>
    obtain rfl : path = other := Option.some.inj (hpath.symm.trans hother)
    refine hload.imp fun hloaded e he => ?_
    obtain ⟨s, rfl⟩ := hloaded
    cases he

end CommandLine

private theorem Enforcer.exists_declaration (h : settings.validate = .ok ())
    {scopes : ScopeProvider} {options : EnforcerOptions} {e : AuthorizationError}
    (he : build settings s scopes options = .error e) : ∃ d, e = .settings (.declaration d) := by
  unfold build at he
  split at he
  · rename_i fault hfault
    obtain ⟨d, rfl⟩ := ClientIndex.exists_declaration h hfault
    exact ⟨d, (Except.error.inj he).symm⟩
  · cases he

namespace Settings

/-- Validation of settings agrees with building them: all settings that are loaded have been
validated, and validated settings can only fail for a declaration, be it as an index, as an enforcer
or in a check of the command line that has loaded a schema. What an index refuses for any other
reason, validation refuses for the same one, unless it finds a client without identifier before; and
what validation refuses, an index refuses as well, but for such a client or a cache without room. -/
theorem validate_agrees_with_build {m : Type → Type} [Monad m] [LawfulMonad m]
    (settings : Settings) (s : Schema) :
    (settings.validate = .ok () →
      (∀ e, ClientIndex.build s settings.clients = .error e → ∃ d, e = .declaration d) ∧
      (∀ scopes options e, Enforcer.build settings s scopes options = .error e →
        ∃ d, e = .settings (.declaration d)) ∧
      ∀ (around : CommandLine.Surroundings m) (o : CommandLine.Options), o.check = true →
        SatisfiesM (fun outcome => ∀ e, outcome = .error e → CommandLine.CheckFault e)
          (CommandLine.perform around o settings) ∧
        ∀ path, o.schema.or settings.schema = some path →
          SatisfiesM (fun loaded => ∃ s, loaded = .ok s) (Schema.load around.lookup path) →
          SatisfiesM (fun outcome => ∀ e, outcome = .error e → ∃ d, e = .settings (.declaration d))
            (CommandLine.perform around o settings)) ∧
    (∀ e, ClientIndex.build s settings.clients = .error e → (∀ d, e ≠ .declaration d) →
      ∃ fault, settings.validate = .error fault ∧ (e.Matches fault ∨ fault.IsOutsideIndex)) ∧
    (∀ fault, settings.validate = .error fault → ¬ fault.IsOutsideIndex →
      ∃ e, ClientIndex.build s settings.clients = .error e) ∧
    (∀ toml, ofToml toml = .ok settings → settings.validate = .ok ()) ∧
    ∀ (lookup : FileLookup m) (env : Environment) (path : Option String),
      SatisfiesM (fun loaded => ∀ settings, loaded = .ok settings → settings.validate = .ok ())
        (load lookup env path) := by
  refine ⟨fun h => ⟨?index, ?enforcer, ?check⟩, ?refused, ?validated, ?read, validate_of_load⟩
  case index => exact fun e => ClientIndex.exists_declaration h
  case enforcer => exact fun scopes options e => Enforcer.exists_declaration h
  case check =>
    intro around o hcheck
    exact ⟨CommandLine.checkFault_of_perform h hcheck,
      fun path => CommandLine.exists_declaration_of_perform h hcheck⟩
  case refused => exact fun e => exists_fault
  case validated => exact fun fault h hinside => ClientIndex.exists_error h hinside s
  case read => exact fun toml => validate_of_ofToml

section Witness

private def pingText : String :=
  "type Query { ping: String }"

private def pingDocument : SchemaDocument :=
  ⟨[.type "Query" (.object [] [⟨"ping", "String", []⟩])]⟩

private def pingSchema : Schema :=
  ⟨pingDocument.linkedTypes, "Query", none, none⟩

private def pingAround : CommandLine.Surroundings Id :=
  ⟨(FileTree.ofPaths [("schema/ping.graphql", .file pingText.toUTF8.toList)]).lookup,
    FileEntry.missing, []⟩

private def pingCheck : CommandLine.Options :=
  { CommandLine.Options.none with schema := some "./schema/ping.graphql", check := true }

private theorem load_pingCheck :
    Schema.load pingAround.lookup "./schema/ping.graphql" = pure (.ok pingSchema) := by
  have hentry : pingAround.lookup "./schema/ping.graphql" = .file pingText.toUTF8.toList := by rfl
  have htext : (FileEntry.file pingText.toUTF8.toList).text? = some pingText := by cbv
  have hparse : SchemaDocument.parse pingText = .ok pingDocument := by cbv
  have hschema : Schema.parse pingText = .ok pingSchema :=
    Schema.parse_eq_ok.mpr ⟨_, hparse, by rfl⟩
  simp only [Schema.load, hentry, htext, hschema, bind, pure]

private def withClients (clients : List (String × Client)) : Settings :=
  { initial with clients := .ofList clients compare }

/-- The declaration is of a field that the schema lacks. -/
private def strayingSettings : Settings :=
  withClients [("guests", ⟨["{ pong }"], ["guest"]⟩)]

/-- Neither the pattern nor the declaration can be compiled. -/
private def openSettings : Settings :=
  withClients [("guests", ⟨["{ pong }"], ["("]⟩)]

/-- The first settings pass validation and fail for their declaration, in a check of the command
line as well; the second fail both times, for their pattern. -/
theorem validate_agrees_with_build_of_guests :
    (strayingSettings.validate = .ok () ∧
      (∃ e, ClientIndex.build pingSchema strayingSettings.clients = .error e ∧
        ∃ d, e = .declaration d) ∧
      ∃ e, CommandLine.perform pingAround pingCheck strayingSettings = pure (.error e) ∧
        ∃ d, e = .settings (.declaration d)) ∧
    ClientIndex.build pingSchema openSettings.clients = .error (.invalidPattern "(" none) ∧
    ∃ fault, openSettings.validate = .error fault ∧
      ((SettingsError.invalidPattern "(" none).Matches fault ∨ fault.IsOutsideIndex) := by
  have hvalid : strayingSettings.validate = .ok () := by cbv
  have hstrays : ClientIndex.build pingSchema strayingSettings.clients =
      .error (.declaration ⟨"guests", .unknownField "Query" "pong"⟩) := by cbv
  have hopen : ClientIndex.build pingSchema openSettings.clients =
      .error (.invalidPattern "(" none) := by cbv
  have hpath : pingCheck.schema.or strayingSettings.schema = some "./schema/ping.graphql" := rfl
  have hcheck : pingCheck.check = true := rfl
  have hperform : CommandLine.perform pingAround pingCheck strayingSettings =
      pure (.error (.settings (.declaration ⟨"guests", .unknownField "Query" "pong"⟩))) := by
    simp only [CommandLine.perform, hpath, bind, load_pingCheck, pure, hcheck, if_true, hstrays]
  obtain ⟨hvalidated, -⟩ := validate_agrees_with_build (m := Id) strayingSettings pingSchema
  obtain ⟨-, hrefused, -⟩ := validate_agrees_with_build (m := Id) openSettings pingSchema
  obtain ⟨hindex, -, hchecked⟩ := hvalidated hvalid
  have hloads : SatisfiesM (m := Id) (fun loaded => ∃ s, loaded = .ok s)
      (Schema.load pingAround.lookup "./schema/ping.graphql") :=
    SatisfiesM_Id_eq.mpr ⟨_, load_pingCheck⟩
  have hfails := SatisfiesM_Id_eq.mp ((hchecked pingAround pingCheck hcheck).2 _ hpath hloads)
  exact ⟨⟨hvalid, ⟨_, hstrays, hindex _ hstrays⟩, _, hperform, hfails _ hperform⟩, hopen,
    hrefused _ hopen (by simp)⟩

end Witness

end Settings

end FieldAuthorization
