import ModuleTrace.Affix
import ModuleTrace.Path

/-!
# Arguments of the command line

Arguments are read in one or two scopes: that of the program, up to the name of a command, and
that of the command. Options are known in both, and what a command is given counts before what
the program is given. A value that stands in an argument of its own waits until the next argument
is read, so the faults of that one can come first.
-/

namespace ModuleTrace.Cli

inductive OutputFormat where
  | text
  | json
  | compact
  deriving DecidableEq, Repr, Inhabited

def OutputFormat.ofName? : String → Option OutputFormat
  | "text" => some .text
  | "json" => some .json
  | "compact" => some .compact
  | _ => none

inductive UsageError where
  | displayHelp
  | displayVersion
  | helpOnMissingArgument
  | invalidSubcommand
  | missingSubcommand
  | unknownArgument
  | invalidValue
  | tooManyValues
  | argumentConflict
  | missingRequiredArgument
  deriving DecidableEq, Repr, Inhabited

def UsageError.label : UsageError → String
  | .displayHelp => "DisplayHelp"
  | .displayVersion => "DisplayVersion"
  | .helpOnMissingArgument => "DisplayHelpOnMissingArgumentOrSubcommand"
  | .invalidSubcommand => "InvalidSubcommand"
  | .missingSubcommand => "MissingSubcommand"
  | .unknownArgument => "UnknownArgument"
  | .invalidValue => "InvalidValue"
  | .tooManyValues => "TooManyValues"
  | .argumentConflict => "ArgumentConflict"
  | .missingRequiredArgument => "MissingRequiredArgument"

inductive ValueOption where
  | format
  | config
  | supportedModule
  deriving DecidableEq, Repr

inductive Switch where
  | noCheckExternal
  | restricted
  | noWorkspace
  | logJson
  | verbose
  | help
  | version
  deriving DecidableEq, Repr

inductive CommandName where
  | resolve
  | collect
  | workspace
  deriving DecidableEq, Repr, Inhabited

/-- Where arguments are read: for the program, or for a command. -/
abbrev Scope := Option CommandName

def CommandName.ofName? : String → Option CommandName
  | "resolve" => some .resolve
  | "collect" => some .collect
  | "workspace" => some .workspace
  | _ => none

def ValueOption.ofName? : String → Option ValueOption
  | "format" => some .format
  | "config" => some .config
  | "supported-module" => some .supportedModule
  | _ => none

/-- Only the program itself has a version. -/
def Switch.ofName? (scope : Scope) : String → Option Switch
  | "no-check-external" => some .noCheckExternal
  | "restricted" => some .restricted
  | "no-workspace" => some .noWorkspace
  | "log-json" => some .logJson
  | "verbose" => some .verbose
  | "help" => some .help
  | "version" => if scope.isNone then some .version else none
  | _ => none

def Switch.ofLetter? (scope : Scope) : Char → Option Switch
  | 'v' => some .verbose
  | 'h' => some .help
  | 'V' => if scope.isNone then some .version else none
  | _ => none

structure GivenOptions where
  format : Option OutputFormat := none
  config : Option Path := none
  supported : Option (List String) := none
  noCheckExternal : Bool := false
  restricted : Bool := false
  noWorkspace : Bool := false
  logJson : Bool := false
  verbosity : Nat := 0
  deriving DecidableEq, Repr, Inhabited

namespace GivenOptions

def isEmpty (o : GivenOptions) : Bool :=
  o = {}

/-- Options of a command before those of the program. -/
def within (inner outer : GivenOptions) : GivenOptions :=
  { format := inner.format <|> outer.format
    config := inner.config <|> outer.config
    supported := inner.supported <|> outer.supported
    noCheckExternal := inner.noCheckExternal || outer.noCheckExternal
    restricted := inner.restricted || outer.restricted
    noWorkspace := inner.noWorkspace || outer.noWorkspace
    logJson := inner.logJson || outer.logJson
    verbosity := if inner.verbosity = 0 then outer.verbosity else inner.verbosity }

private def path? (text : String) : Except UsageError Path :=
  if text.isEmpty then .error .invalidValue else .ok ⟨text⟩

/-- Sets an option. All but modules can be set once. -/
def setValue (o : GivenOptions) (option : ValueOption) (text : String) :
    Except UsageError GivenOptions :=
  match option with
  | .format =>
      if o.format.isSome then .error .argumentConflict
      else
        match OutputFormat.ofName? text with
        | some format => .ok { o with format := some format }
        | none => .error .invalidValue
  | .config =>
      if o.config.isSome then .error .argumentConflict
      else do
        let path ← path? text
        return { o with config := some path }
  | .supportedModule => .ok { o with supported := some (o.supported.getD [] ++ [text]) }

/-- Sets a switch. All but verbosity can be set once. -/
def setSwitch (o : GivenOptions) : Switch → Except UsageError GivenOptions
  | .noCheckExternal =>
      if o.noCheckExternal then .error .argumentConflict else .ok { o with noCheckExternal := true }
  | .restricted =>
      if o.restricted then .error .argumentConflict else .ok { o with restricted := true }
  | .noWorkspace =>
      if o.noWorkspace then .error .argumentConflict else .ok { o with noWorkspace := true }
  | .logJson => if o.logJson then .error .argumentConflict else .ok { o with logJson := true }
  | .verbose => .ok { o with verbosity := o.verbosity + 1 }
  | .help => .error .displayHelp
  | .version => .error .displayVersion

end GivenOptions

/-- What waits until the next argument is read. -/
inductive Pending where
  | option (option : ValueOption) (value : Option String)
  | operands (values : List String)
  deriving DecidableEq, Repr

structure Reading where
  options : GivenOptions := {}
  operands : List Path := []
  pending : Option Pending := none
  /-- Only operands follow. -/
  isTrailing : Bool := false
  deriving Inhabited

namespace Reading

def settle (r : Reading) : Except UsageError Reading :=
  match r.pending with
  | none => .ok r
  | some (.option _ none) => .error .invalidValue
  | some (.option option (some value)) => do
      let options ← r.options.setValue option value
      return { r with options, pending := none }
  | some (.operands values) => do
      let paths ← values.mapM GivenOptions.path?
      return { r with operands := r.operands ++ paths, pending := none }

def awaitsValue (r : Reading) : Bool :=
  match r.pending with
  | some (.option _ none) => true
  | _ => false

private def readSwitch (r : Reading) (switch : Switch) : Except UsageError Reading := do
  let r ← r.settle
  let options ← r.options.setSwitch switch
  return { r with options }

/-- Reads an option with two hyphens; a value may stand behind a sign of equality. -/
private def readLong (scope : Scope) (r : Reading) (body : List Char) :
    Except UsageError Reading :=
  let name := String.ofList (body.takeWhile (· ≠ '='))
  let attached := (body.dropWhile (· ≠ '=')).tail?.map String.ofList
  match ValueOption.ofName? name, Switch.ofName? scope name, attached with
  | some option, _, some value => do
      let r ← r.settle
      let options ← r.options.setValue option value
      return { r with options }
  | some option, _, none => do
      let r ← r.settle
      return { r with pending := some (.option option none) }
  | none, some _, some _ => .error .tooManyValues
  | none, some switch, none => r.readSwitch switch
  | none, none, _ => .error .unknownArgument

private def readShort (scope : Scope) (r : Reading) (letters : List Char) :
    Except UsageError Reading :=
  letters.foldlM (fun r c =>
    match Switch.ofLetter? scope c with
    | some switch => r.readSwitch switch
    | none => .error .unknownArgument) r

private def takesMore (scope : Scope) (r : Reading) : Bool :=
  match scope with
  | none => false
  | some .resolve => true
  | some _ => r.operands.isEmpty && !(r.pending matches some (.operands _))

private def readOperand (scope : Scope) (r : Reading) (text : String) :
    Except UsageError Reading :=
  if r.takesMore scope then
    match r.pending with
    | some (.operands values) => .ok { r with pending := some (.operands (values ++ [text])) }
    | _ => do
        let r ← r.settle
        return { r with pending := some (.operands [text]) }
  else
    let isCommand := (CommandName.ofName? text).isSome || text = "help"
    .error (if scope.isNone && !(r.isTrailing && isCommand) then .invalidSubcommand
      else .unknownArgument)

def readArgument (scope : Scope) (r : Reading) (text : String) : Except UsageError Reading :=
  if r.isTrailing then r.readOperand scope text
  else
    match text.toList with
    | ['-', '-'] => .ok { r with isTrailing := true }
    | '-' :: '-' :: body => r.readLong scope body
    | '-' :: c :: letters => r.readShort scope (c :: letters)
    | _ =>
        match r.pending with
        | some (.option option none) =>
            .ok { r with pending := some (.option option (some text)) }
        | _ => r.readOperand scope text

end Reading

def readHelp : List String → UsageError
  | [] => .displayHelp
  | [name] =>
      if (CommandName.ofName? name).isSome || name = "help" then .displayHelp
      else .invalidSubcommand
  | _ => .invalidSubcommand

def readCommand (command : CommandName) (arguments : List String) : Except UsageError Reading := do
  let r ← arguments.foldlM (Reading.readArgument (some command)) {}
  r.settle

/-- Reads the arguments of the program up to a command, and those of the command. -/
def readProgram (r : Reading) :
    List String → Except UsageError (Reading × Option (CommandName × Reading))
  | [] => do return (← r.settle, none)
  | text :: rest => do
      let isName := !r.isTrailing && !r.awaitsValue
      if isName && text = "help" then throw (readHelp rest)
      match if isName then CommandName.ofName? text else none with
      | some command =>
          let inner ← readCommand command rest
          if command = .resolve && inner.operands.isEmpty then throw .missingRequiredArgument
          return (← r.settle, some (command, inner))
      | none => readProgram (← r.readArgument none text) rest

inductive Command where
  | resolve (entrypoints : List Path)
  | collect (root : Path)
  | workspace (directory : Path)
  deriving DecidableEq, Repr, Inhabited

structure Invocation where
  command : Command
  format : OutputFormat
  options : GivenOptions
  deriving DecidableEq, Repr, Inhabited

private def commandOf (name : CommandName) (operands : List Path) : Command :=
  match name with
  | .resolve => .resolve operands
  | .collect => .collect (operands.headD ⟨"."⟩)
  | .workspace => .workspace (operands.headD ⟨"."⟩)

def parse (arguments : List String) : Except UsageError Invocation := do
  let (outer, command) ← readProgram {} arguments
  match command with
  | some (name, inner) =>
      let options := inner.options.within outer.options
      return ⟨commandOf name inner.operands, options.format.getD .text, options⟩
  | none =>
      if outer.options.isEmpty then throw .helpOnMissingArgument else throw .missingSubcommand

end ModuleTrace.Cli
