import FieldAuthorization.Settings.Environment

/-!
Options of the command line. Every option may be given once, save scopes, and takes the next
argument for its value unless the value is attached.
-/

set_option autoImplicit false
set_option relaxedAutoImplicit false

namespace FieldAuthorization.CommandLine

inductive OutputFormat
  | text
  | json
deriving DecidableEq

structure Options where
  settings : Option String
  schema : Option String
  scopes : List String
  query : Option String
  operationName : Option String
  output : Option OutputFormat
  check : Bool
  logLevel : Option String

namespace Options

def none : Options :=
  ⟨.none, .none, [], .none, .none, .none, false, .none⟩

end Options

inductive ValueOption
  | settings
  | schema
  | scope
  | query
  | operationName
  | output
  | logLevel
deriving DecidableEq

inductive Argument
  | valued (option : ValueOption) (attached : Option String)
  | check
  | version
  | help
  /-- Only operands may follow, of which there are none. -/
  | endOfOptions
deriving DecidableEq

namespace Argument

def long? (name : String) (attached : Option String) : Option Argument :=
  match name, attached with
  | "config", v => some (.valued .settings v)
  | "schema", v => some (.valued .schema v)
  | "scope", v => some (.valued .scope v)
  | "query", v => some (.valued .query v)
  | "operation-name", v => some (.valued .operationName v)
  | "output", v => some (.valued .output v)
  | "log-level", v => some (.valued .logLevel v)
  | "check", none => some .check
  | "version", none => some .version
  | "help", none => some .help
  | _, _ => none

/-- A value right behind a letter, where an equals sign in front does not count. -/
def attachedValue? : List Char → Option String
  | [] => none
  | '=' :: s => some (String.ofList s)
  | s => some (String.ofList s)

/-- The option of a letter, with what stands behind the letter. -/
def short? (letter : Char) (rest : List Char) : Option Argument :=
  match letter with
  | 'c' => some (.valued .settings (attachedValue? rest))
  | 's' => some (.valued .schema (attachedValue? rest))
  | 'q' => some (.valued .query (attachedValue? rest))
  | 'V' => some .version
  | 'h' => some .help
  | _ => none

def read? (s : String) : Option Argument :=
  match s.toList with
  | ['-', '-'] => some .endOfOptions
  | '-' :: '-' :: s =>
    let name := String.ofList (s.takeWhile (· != '='))
    match s.dropWhile (· != '=') with
    | [] => long? name none
    | _ :: value => long? name (some (String.ofList value))
  | '-' :: letter :: rest => short? letter rest
  | _ => none

/-- Whether an argument looks like an option, so that it is no value. -/
def looksLikeOption (s : String) : Bool :=
  match s.toList with
  | '-' :: _ :: _ => true
  | _ => false

end Argument

namespace Options

/-- Gives an option that takes one value its value, once. -/
def setOnce {α : Type} (old : Option α) (value : α) : Option (Option α) :=
  if old.isSome then .none else some (some value)

/-- Gives an option its value; an unknown format or an option given before is refused. -/
def set (o : Options) (option : ValueOption) (value : String) : Option Options :=
  match option with
  | .settings => (setOnce o.settings value).map ({ o with settings := · })
  | .schema => (setOnce o.schema value).map ({ o with schema := · })
  | .scope => some { o with scopes := o.scopes ++ [value] }
  | .query => (setOnce o.query value).map ({ o with query := · })
  | .operationName => (setOnce o.operationName value).map ({ o with operationName := · })
  | .output => do
    let format ← match value with
      | "text" => some OutputFormat.text
      | "json" => some OutputFormat.json
      | _ => .none
    (setOnce o.output format).map ({ o with output := · })
  | .logLevel => (setOnce o.logLevel value).map ({ o with logLevel := · })

/-- Takes from the environment what the command line leaves open. -/
def withEnvironment (o : Options) (env : Environment) : Options :=
  { o with
    settings := o.settings.or (env.lookup "GQL_AUTHZ_CONFIG")
    schema := o.schema.or (env.lookup "GQL_AUTHZ_SCHEMA")
    logLevel := o.logLevel.or (env.lookup "GQL_AUTHZ_LOG_LEVEL") }

end Options

inductive Invocation
  | run (options : Options)
  | version
  | help
  | misuse

namespace Invocation

/-- Reads arguments in order. A request for the version or for help counts at once; a mistake before
it goes first. -/
def read (o : Options) : List String → Invocation
  | [] => .run o
  | argument :: rest =>
    match Argument.read? argument with
    | none => .misuse
    | some .endOfOptions => if rest.isEmpty then .run o else .misuse
    | some .version => .version
    | some .help => .help
    | some .check => if o.check then .misuse else read { o with check := true } rest
    | some (.valued option (some value)) =>
      match o.set option value with
      | none => .misuse
      | some o => read o rest
    | some (.valued option none) =>
      match rest with
      | [] => .misuse
      | value :: rest =>
        if Argument.looksLikeOption value then .misuse
        else
          match o.set option value with
          | none => .misuse
          | some o => read o rest

def ofArguments (arguments : List String) : Invocation :=
  read .none arguments

end Invocation

end FieldAuthorization.CommandLine
