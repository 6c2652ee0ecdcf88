import ModuleTrace.FileSystem.Ignoring
import ModuleTrace.Suite.Rule

/-!
# Finding tests

The tests of a rule are the files below its directory that one of its patterns matches and none
of its exceptions. Files that are ignored are no tests.
-/

namespace ModuleTrace

inductive SuiteError where
  | invalidPattern (text : String) (fault : Glob.Fault)
  | unreadable (directory path : Path) (cause : ReadError)
  | invalidIgnoring (directory : Path) (faults : List (Path × IgnoreFault))
  deriving DecidableEq, Repr

namespace SuiteError

def message : SuiteError → String
  | .invalidPattern text fault =>
      "invalid pattern: " ++ text ++ ": " ++ Glob.parseMessage text fault
  | .unreadable directory path cause =>
      "error walking " ++ directory.text ++ ": " ++ path.text ++ ": IO error for operation on "
        ++ path.text ++ ": " ++ cause.message
  | .invalidIgnoring directory faults =>
      "error walking " ++ directory.text ++ ": "
        ++ Affix.joinWith "\n" (faults.map fun entry => entry.1.text ++ ": " ++ entry.2.message)

end SuiteError

namespace Suite

/-- Directories of packages from elsewhere hold no tests of the suite. -/
def passedBy : List String :=
  ["node_modules"]

/-- What the files of a suite are found with. -/
structure Search (m : Type → Type) where
  reader : Glob.Reader
  isDirectory : Path → m Bool
  /-- Files below a directory, but for those that are ignored. -/
  walk : Path → m (Except SuiteError (List Path))
  /-- All files below a directory. -/
  filesUnder : Path → m (List Path)

section

variable {m : Type → Type} [Monad m] (fs : FileSystem m)

def layersAround (directory : Path) : m (List IgnoreLayer) :=
  (directory.normalize.ancestors.drop 1).mapM (IgnoreLayer.read fs)

def unignoredFiles (directory : Path) : m (Except SuiteError (List Path)) := do
  let layers ← if ← fs.isDirectory directory then layersAround fs directory else pure []
  let faults := layers.reverse.flatMap IgnoreLayer.faults
  if !faults.isEmpty then return .error (.invalidIgnoring directory faults)
  else
    let visits ← fs.walk (Guide.respectful fs passedBy) layers directory
    match Visit.failure? visits with
    | some (path, cause) => return .error (.unreadable directory path cause)
    | none => return .ok (Visit.paths .file visits)

def allFiles (directory : Path) : m (List Path) := do
  return Visit.paths .file (← fs.walk (Guide.avoiding []) () directory)

def Search.of : Search m where
  reader := Glob.reader
  isDirectory := fs.isDirectory
  walk := unignoredFiles fs
  filesUnder := allFiles fs

instance : Coe (FileSystem m) (Search m) := ⟨Search.of⟩

end

def parsePatterns (reader : Glob.Reader) (texts : List String) :
    Except SuiteError (List (String → Bool)) :=
  texts.mapM fun text =>
    match reader text with
    | .ok test => .ok test
    | .error fault => .error (.invalidPattern text fault)

structure Selection where
  included : List (String → Bool)
  excluded : List (String → Bool)

def Selection.parse (reader : Glob.Reader) (rule : MatchRule) : Except SuiteError Selection := do
  let included ← parsePatterns reader rule.patterns
  let excluded ← parsePatterns reader rule.excluded
  return ⟨included, excluded⟩

def Selection.selects (s : Selection) (relative : Path) : Bool :=
  s.included.any (· relative.text) && !s.excluded.any (· relative.text)

def findTests {m : Type → Type} [Monad m] (search : Search m) (rule : MatchRule)
    (directory : Path) : m (Except SuiteError (List Path)) := do
  match Selection.parse search.reader rule with
  | .error error => return .error error
  | .ok selection =>
      match ← search.walk directory with
      | .error error => return .error error
      | .ok files =>
          return .ok (Path.sort (files.filter fun path =>
            (path.relativeTo? directory).any selection.selects))

end Suite

end ModuleTrace
