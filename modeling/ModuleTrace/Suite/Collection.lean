import ModuleTrace.Suite.Discovery
import ModuleTrace.Traversal.Session

/-!
# Collecting a suite

A collection holds the tests of some rules, their snapshots, and all local files that they need.
What goes wrong with a test is noted, and the collection goes on.
-/

namespace ModuleTrace

structure SuiteCollection where
  files : List Path
  errors : List FileFailure
  deriving DecidableEq, Repr, Inhabited

namespace Suite

structure Gathering where
  files : List Path := []
  errors : List FileFailure := []
  deriving DecidableEq, Repr, Inhabited

namespace Gathering

def addFiles (g : Gathering) (files : List Path) : Gathering :=
  { g with files := g.files ++ files }

def addError (g : Gathering) (file : Path) (message : String) : Gathering :=
  { g with errors := g.errors ++ [⟨file, message⟩] }

end Gathering

def dropRepeated : List Path → List Path
  | p :: q :: rest => if p.same q then dropRepeated (p :: rest) else p :: dropRepeated (q :: rest)
  | paths => paths

/-- The paths in order, each as it was met first. -/
def distinct (paths : List Path) : List Path :=
  dropRepeated (Path.sort paths)

def addReach (g : Gathering) (test : Path) (reach : Reach) : Gathering :=
  let noted :=
    if reach.problems.isEmpty then g else g.addError test reach.problems.message
  noted.addFiles (reach.files.map SourceFile.path ++ [test])

section

variable {m : Type → Type} [Monad m] (s : Session m) (search : Search m)

def collectTest (rule : MatchRule) (directory : Path) (g : Gathering) (test : Path) :
    StateT Memory m Gathering := do
  let snapshots := rule.snapshotDirectory directory test
  let g ←
    if ← search.isDirectory snapshots then
      pure (g.addFiles (← (search.filesUnder snapshots : m (List Path))))
    else pure g
  match ← s.collect test with
  | .ok reach => return addReach g test reach
  | .error error => return g.addError test error.message

def collectRule (root : Path) (g : Gathering) (rule : MatchRule) :
    StateT Memory m Gathering := do
  let directory := rule.directoryIn root
  match ← (findTests search rule directory : m (Except SuiteError (List Path))) with
  | .error error => return g.addError directory error.message
  | .ok tests => tests.foldlM (collectTest s search rule directory) g

def collect (root : Path) (rules : List MatchRule) : StateT Memory m SuiteCollection := do
  let g ← rules.foldlM (collectRule s search root) {}
  return ⟨distinct g.files, g.errors⟩

end

end Suite

end ModuleTrace
