import FieldAuthorization.CommandLine.Options
import FieldAuthorization.Document.Printer
import FieldAuthorization.Enforcement.Enforcer
import FieldAuthorization.Schema.Load
import FieldAuthorization.Settings.Load

/-!
The command line: checks settings against their schema, or redacts one query for given scopes.
-/

set_option autoImplicit false
set_option relaxedAutoImplicit false

namespace FieldAuthorization.CommandLine

structure Surroundings (m : Type → Type) where
  lookup : FileLookup m
  standardInput : m FileEntry
  environment : Environment

structure Outcome where
  exitCode : UInt32
  output : String
  /-- A report of what went wrong. -/
  report : Option String

inductive CommandError
  | settings (e : SettingsError)
  | noSchema
  | authorization (e : AuthorizationError)
  | queryUnreadable (path : String)
  | inputUnreadable

def CommandError.message : CommandError → String
  | .settings e => e.message
  | .noSchema =>
    "No schema given; pass --schema or set \x60schema\x60 in the configuration"
  | .authorization e => e.message
  | .queryUnreadable path => "Failed to read query file '" ++ path ++ "'"
  | .inputUnreadable => "Failed to read query from stdin"

def versionText : String :=
  "gql-authz 0.1.0\n"

def helpText : String :=
  "\n".intercalate
    ["Redacts GraphQL queries by client scopes",
      "",
      "Usage: gql-authz [OPTIONS]",
      "",
      "Options:",
      "  -c, --config <CONFIG>                  Path to the configuration file",
      "  -s, --schema <SCHEMA>                  Path to the schema",
      "      --scope <SCOPES>                   Caller scope; repeat for several",
      "  -q, --query <QUERY>                    File with the query to redact",
      "      --operation-name <OPERATION_NAME>  Operation to execute",
      "      --output <OUTPUT>                  Output format: text or json",
      "      --check                            Only load and compile the configuration",
      "      --log-level <LOG_LEVEL>            Log level",
      "  -h, --help                             Print help",
      "  -V, --version                          Print version",
      ""]

/-- The rules of every client, and the number of clients. -/
def checkText (index : ClientIndex) : String :=
  let clientText (c : IndexedClient) : String :=
    c.id ++ ": " ++ toString c.permissions.ruleCount ++ " field rules\n"
      ++ String.join (c.permissions.rules.toList.map (fun rule => "  " ++ rule.text ++ "\n"))
  String.join (index.clients.map clientText)
    ++ "Configuration OK (" ++ toString index.clients.length ++ " clients)\n"

def redactionText (format : OutputFormat) (document : Document) (denials : List Denial) : String :=
  match format with
  | .text =>
    let denied :=
      if denials.isEmpty then ""
      else "\nDenied fields:\n" ++ String.join (denials.map (fun d => "  - " ++ d.text ++ "\n"))
    document.print ++ denied
  | .json =>
    let report : Json := .object
      [("query", .text document.print),
        ("errors", .array (denials.map (fun d => d.toResponseError.toJson)))]
    report.sortKeys.print 0 ++ "\n"

variable {m : Type → Type} [Monad m]

/-- The query to redact: from a file if one is named, else from standard input. -/
def readQuery (around : Surroundings m) (path : Option String) :
    m (Except CommandError String) := do
  match path with
  | some path => return ((← around.lookup path).text?).elim (.error (.queryUnreadable path)) .ok
  | none => return ((← around.standardInput).text?).elim (.error .inputUnreadable) .ok

def redact (enforcer : Enforcer) (o : Options) (query : String) : Except CommandError String :=
  let request : Request := ⟨query, o.operationName, [], []⟩
  let (state, _, _) := enforcer.create request .empty
  match enforcer.enforce state request with
  | .error e => .error (.authorization e)
  | .ok (enforced, state, _) =>
    .ok (redactionText (o.output.getD .text) enforced.document state.denials)

def perform (around : Surroundings m) (o : Options) (settings : Settings) :
    m (Except CommandError String) := do
  match o.schema.or settings.schema with
  | none => return .error .noSchema
  | some path =>
    match ← Schema.load around.lookup path with
    | .error e => return .error (.settings e)
    | .ok schema =>
      if o.check then
        match ClientIndex.build schema settings.clients with
        | .error e => return .error (.settings e)
        | .ok index => return .ok (checkText index)
      else
        let scopes := ScopeProvider.fixed (ScopeSet.ofScopes o.scopes)
        match Enforcer.build settings schema scopes ⟨.authorizeAll, none, none⟩ with
        | .error e => return .error (.authorization e)
        | .ok enforcer =>
          match ← readQuery around o.query with
          | .error e => return .error e
          | .ok query => return redact enforcer o query

def execute (around : Surroundings m) (o : Options) : m (Except CommandError String) := do
  let o := o.withEnvironment around.environment
  match ← Settings.load around.lookup around.environment o.settings with
  | .error e => return .error (.settings e)
  | .ok settings => perform around o settings

def run (around : Surroundings m) (arguments : List String) : m Outcome := do
  match Invocation.ofArguments arguments with
  | .version => return ⟨0, versionText, none⟩
  | .help => return ⟨0, helpText, none⟩
  | .misuse => return ⟨2, "", none⟩
  | .run o =>
    match ← execute around o with
    | .ok output => return ⟨0, output, none⟩
    | .error e => return ⟨1, "", some ("Error: " ++ e.message)⟩

end FieldAuthorization.CommandLine
