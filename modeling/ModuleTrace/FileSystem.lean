import ModuleTrace.Resolution.Loader

/-!
# File systems

What the library asks of files and directories, in any monad: a tree in memory answers at once,
a disk with effects.
-/

namespace ModuleTrace

inductive EntryKind where
  | file
  | directory
  | other
  deriving DecidableEq, Repr, Inhabited

structure FileSystem (m : Type → Type) where
  read : Path → m (Except ReadError String)
  kind : Path → m (Except ReadError EntryKind)
  /-- Names in a directory, in any order. -/
  entries : Path → m (Except ReadError (List (String × EntryKind)))
  isExecutable : Path → m Bool
  /-- There are fewer files than this, and no directory lies deeper. -/
  extent : Nat

def Path.firstThat {m : Type → Type} [Monad m] (test : Path → m Bool) :
    List Path → m (Option Path)
  | [] => return none
  | path :: rest => do
      if ← test path then return some path else firstThat test rest

namespace FileSystem

variable {m : Type → Type} [Monad m] (fs : FileSystem m)

def isFile (path : Path) : m Bool := do
  match ← fs.kind path with
  | .ok .file => return true
  | _ => return false

def isDirectory (path : Path) : m Bool := do
  match ← fs.kind path with
  | .ok .directory => return true
  | _ => return false

def isPresent (path : Path) : m Bool := do
  match ← fs.kind path with
  | .ok _ => return true
  | .error _ => return false

def loader : Loader m where
  read := fs.read
  isFile := fs.isFile
  isDirectory := fs.isDirectory
  extent := fs.extent

end FileSystem

end ModuleTrace
