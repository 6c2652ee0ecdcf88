import ModuleTrace.Affix
import ModuleTrace.FileSystem
import ModuleTrace.Workspace.Manager

/-!
# Detecting a package manager

Six sources are asked one after another, and the first that names a manager decides: who started
the program, with which script, a lockfile nearby, a configuration file nearby, a program that
can be run, and a default. Within a source managers are tried by priority, but a nearer
directory comes before a farther one.
-/

namespace ModuleTrace

/-- What the process was told by the one that started it. -/
structure Environment where
  /-- Names the manager that started the process, as in `pnpm/9.1.0 node/v20.11.0`. -/
  userAgent : Option String := none
  /-- The script of the manager that started the process. -/
  execPath : Option Path := none
  /-- Directories in which programs are looked for. -/
  searchPath : Option (List Path) := none
  deriving DecidableEq, Repr, Inhabited

inductive DetectionSource where
  | userAgent
  | execPath
  | lockfile
  | configFile
  | executable
  | standard
  deriving DecidableEq, Repr, Inhabited

def DetectionSource.label : DetectionSource → String
  | .userAgent => "UserAgent"
  | .execPath => "ExecPath"
  | .lockfile => "Lockfile"
  | .configFile => "ConfigFile"
  | .executable => "Executable"
  | .standard => "Default"

structure Detection where
  manager : PackageManager
  source : DetectionSource
  deriving DecidableEq, Repr, Inhabited

namespace Detection

private def isLowerLetter (c : Char) : Bool :=
  'a' ≤ c && c ≤ 'z'

/-- The manager that a user agent begins with, before a slash. -/
def ofUserAgent? (agent : String) : Option PackageManager :=
  let name := agent.toList.takeWhile isLowerLetter
  if (agent.toList.drop name.length).head? = some '/' then
    PackageManager.ofCommand? (String.ofList name)
  else none

/-- Whether a file name is that of a manager's script. -/
def namesScript (name : String) (manager : PackageManager) : Bool :=
  name = manager.command || Affix.begins (manager.command ++ ".") name
    || Affix.begins (manager.command ++ "-") name

def ofExecPath? (path : Path) : Option PackageManager :=
  path.name?.bind fun name => PackageManager.priority.find? (namesScript (Affix.lower name))

section

variable {m : Type → Type} [Monad m] (fs : FileSystem m)

/-- The first manager that has a file of some names in a directory. -/
def inDirectory? (names : PackageManager → List String) (directory : Path) :
    List PackageManager → m (Option PackageManager)
  | [] => return none
  | manager :: rest => do
      match ← Path.firstThat fs.isFile ((names manager).map (directory / ·)) with
      | some _ => return some manager
      | none => inDirectory? names directory rest

/-- The first manager found in some directories, directory by directory. -/
def inDirectories? (names : PackageManager → List String) :
    List Path → m (Option PackageManager)
  | [] => return none
  | directory :: rest => do
      match ← inDirectory? fs names directory PackageManager.priority with
      | some manager => return some manager
      | none => inDirectories? names rest

/-- Whether a directory of the search path holds a program. -/
def finds (environment : Environment) (command : String) : m Bool :=
  match environment.searchPath with
  | none => return false
  | some paths =>
      return (← Path.firstThat fs.isExecutable (paths.map (· / command))).isSome

/-- The first manager whose program is found. -/
def ofExecutables? (finds : String → m Bool) : List PackageManager → m (Option PackageManager)
  | [] => return none
  | manager :: rest => do
      if ← finds manager.command then return some manager
      else ofExecutables? finds rest

def ask (finds : String → m Bool) (environment : Environment) (directory : Path) :
    DetectionSource → m (Option PackageManager)
  | .userAgent => return environment.userAgent.bind ofUserAgent?
  | .execPath => return environment.execPath.bind ofExecPath?
  | .lockfile => inDirectories? fs PackageManager.lockfiles directory.ancestors
  | .configFile => inDirectories? fs PackageManager.configFiles directory.ancestors
  | .executable => ofExecutables? finds PackageManager.priority
  | .standard => return some .npm

def askAll (finds : String → m Bool) (environment : Environment) (directory : Path) :
    List DetectionSource → m Detection
  | [] => return ⟨.npm, .standard⟩
  | source :: rest => do
      match ← ask fs finds environment directory source with
      | some manager => return ⟨manager, source⟩
      | none => askAll finds environment directory rest

end

def sources : List DetectionSource :=
  [.userAgent, .execPath, .lockfile, .configFile, .executable]

def detect {m : Type → Type} [Monad m] (fs : FileSystem m) (environment : Environment)
    (directory : Path) (finds : String → m Bool := finds fs environment) : m Detection :=
  askAll fs finds environment directory sources

end Detection

end ModuleTrace
