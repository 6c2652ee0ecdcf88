import ModuleTrace.SourceFile
import Std.Data.HashMap

/-!
# Loading sources

A loader answers questions about files. The cache of a session asks it for the contents of a
source file until the file was read once, and whether a path is a file once. Paths of equal
parts share their answers.
-/

namespace ModuleTrace

inductive ReadError where
  | notFound
  | denied
  | isDirectory
  | notDirectory
  | notText
  | other (message : String)
  deriving DecidableEq, Repr, Inhabited

namespace ReadError

def message : ReadError → String
  | .notFound => "No such file or directory (os error 2)"
  | .denied => "Permission denied (os error 13)"
  | .isDirectory => "Is a directory (os error 21)"
  | .notDirectory => "Not a directory (os error 20)"
  | .notText => "stream did not contain valid UTF-8"
  | .other message => message

end ReadError

structure Loader (m : Type → Type) where
  read : Path → m (Except ReadError String)
  isFile : Path → m Bool
  isDirectory : Path → m Bool
  /-- No traversal meets more files than this. -/
  extent : Nat

inductive Access where
  | read (path : Path)
  | probe (path : Path)
  deriving DecidableEq, Repr

structure SourceCache where
  files : Std.HashMap (List Path.Part) SourceFile := ∅
  existence : Std.HashMap (List Path.Part) Bool := ∅
  /-- Number of files loaded. -/
  readCount : Nat := 0
  /-- Questions put to the loader, the latest first. -/
  journal : List Access := []
  deriving Inhabited

namespace SourceCache

section

variable {m : Type → Type} [Monad m] (loader : Loader m)

def readFresh (path : Path) : StateT SourceCache m (Except ReadError String) := do
  modify fun cache => { cache with journal := .read path :: cache.journal }
  loader.read path

/-- The file at a path; once read, it stays what it was. -/
def load (path : Path) : StateT SourceCache m (Except ReadError SourceFile) := do
  let cache ← get
  match cache.files[path.parts]? with
  | some file => return .ok file
  | none =>
      match ← readFresh loader path with
      | .error error => return .error error
      | .ok contents =>
          let file : SourceFile := ⟨path, contents⟩
          modify fun cache =>
            { cache with
              files := cache.files.insert path.parts file
              existence := cache.existence.insert path.parts true
              readCount := cache.readCount + 1 }
          return .ok file

/-- Whether a path is a file, as it was when this was first asked or the file was loaded. -/
def isFile (path : Path) : StateT SourceCache m Bool := do
  let cache ← get
  match cache.existence[path.parts]? with
  | some answer => return answer
  | none =>
      let answer ← loader.isFile path
      modify fun cache =>
        { cache with
          existence := cache.existence.insert path.parts answer
          journal := .probe path :: cache.journal }
      return answer

def isDirectory (path : Path) : StateT SourceCache m Bool :=
  loader.isDirectory path

end

end SourceCache

end ModuleTrace
