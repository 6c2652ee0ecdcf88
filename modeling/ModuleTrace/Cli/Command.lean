import ModuleTrace.Cli.Report
import ModuleTrace.Settings

/-!
# Commands

A command runs in a project, which is the directory that the program was started in. It prints a
report, and says whether problems were found.
-/

namespace ModuleTrace.Cli

inductive CommandError where
  | settings (error : SettingsError)
  | workspace (error : WorkspaceError)
  | noRules
  deriving DecidableEq, Repr

def CommandError.message : CommandError → String
  | .settings error => error.message
  | .workspace error => error.message
  | .noRules =>
      "No match rules configured. Add [[match_rules]] to .depscope/config.toml or depscope.toml."

structure Outcome where
  text : String
  hasProblems : Bool
  deriving DecidableEq, Repr, Inhabited

def GivenOptions.apply (o : GivenOptions) (settings : Settings) : Settings :=
  { settings with
    supported := settings.supported ++ o.supported.getD []
    checksModules := settings.checksModules && !o.noCheckExternal
    isRestricted := settings.isRestricted || o.restricted }

section

variable {m : Type → Type} [Monad m] (host : Host m)

def loadSettings (project : Path) (options : GivenOptions) :
    m (Except CommandError Settings) := do
  match ← Settings.load host.files project options.config with
  | .ok settings => return .ok (options.apply settings)
  | .error error => return .error (.settings error)

/-- The workspace around a project; one that cannot be listed counts as none. -/
def workspaceOf (project : Path) (options : GivenOptions) : m (Option Workspace) := do
  if options.noWorkspace then return none
  else
    match ← host.locate project with
    | .ok found => return found.map Prod.snd
    | .error _ => return none

def openSession (project : Path) (settings : Settings) (options : GivenOptions) :
    m (Session m) := do
  let workspace ← workspaceOf host project options
  return ⟨host.files.loader, SyntaxSupport.all.extract, settings.options project, workspace⟩

def runResolve (project : Path) (entrypoints : List Path) (invocation : Invocation) :
    m (Except CommandError Outcome) := do
  match ← loadSettings host project invocation.options with
  | .error error => return .error error
  | .ok settings =>
      let session ← openSession host project settings invocation.options
      let paths := entrypoints.map fun entrypoint => (project.join entrypoint).normalize
      let (results, _) ← (session.resolveAll paths).run {}
      let reports := (paths.zip results).map fun entry => ResolveReport.of entry.1 entry.2
      return .ok ⟨ResolveReport.print invocation.format reports,
        reports.any fun report => !report.isResolved⟩

def runCollect (project root : Path) (invocation : Invocation) :
    m (Except CommandError Outcome) := do
  let root := (project.join root).normalize
  match ← loadSettings host root invocation.options with
  | .error error => return .error error
  | .ok settings =>
      if settings.rules.isEmpty then return .error .noRules
      else
        let session ← openSession host root settings invocation.options
        let (collection, _) ← (Suite.collect session host.files root settings.rules).run {}
        return .ok ⟨Report.printCollection invocation.format collection,
          !collection.errors.isEmpty⟩

def runWorkspace (project directory : Path) (invocation : Invocation) :
    m (Except CommandError Outcome) := do
  let directory := (project.join directory).normalize
  match ← host.locate directory with
  | .error error => return .error (.workspace error)
  | .ok (some (detection, workspace)) =>
      return .ok ⟨Report.printWorkspace invocation.format detection (some workspace), false⟩
  | .ok none =>
      let detection ← host.detect directory
      return .ok ⟨Report.printWorkspace invocation.format detection none, false⟩

def run (project : Path) (invocation : Invocation) : m (Except CommandError Outcome) :=
  match invocation.command with
  | .resolve entrypoints => runResolve host project entrypoints invocation
  | .collect root => runCollect host project root invocation
  | .workspace directory => runWorkspace host project directory invocation

end

end ModuleTrace.Cli
