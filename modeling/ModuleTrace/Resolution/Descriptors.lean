import ModuleTrace.Project.Config
import ModuleTrace.Project.Manifest
import ModuleTrace.Resolution.Loader

/-!
# Descriptors of a directory

A directory is governed by the nearest manifest and the nearest project configuration in it or
above it, looked for one by one and not above a root. Every directory passed on the way
remembers the answer.
-/

namespace ModuleTrace

structure Knowledge where
  sources : SourceCache := {}
  manifests : Std.HashMap (List Path.Part) (Option Manifest) := ∅
  configs : Std.HashMap (List Path.Part) (Option ProjectConfig) := ∅
  deriving Inhabited

namespace Knowledge

section

variable {m : Type → Type} [Monad m]

def withSources {α : Type} (operation : StateT SourceCache m α) : StateT Knowledge m α := do
  let knowledge ← get
  let (value, sources) ← operation.run knowledge.sources
  set { knowledge with sources }
  return value

variable (loader : Loader m)

def isFile (path : Path) : StateT Knowledge m Bool :=
  withSources (SourceCache.isFile loader path)

def load (path : Path) : StateT Knowledge m (Except ReadError SourceFile) :=
  withSources (SourceCache.load loader path)

def readFresh (path : Path) : StateT Knowledge m (Except ReadError String) :=
  withSources (SourceCache.readFresh loader path)

def read? (path : Path) : StateT Knowledge m (Option String) := do
  return (← readFresh loader path).toOption

/-- The manifest of a directory itself. One that cannot be read does not count. -/
def manifestIn (directory : Path) : StateT Knowledge m (Option Manifest) := do
  let path := directory / Manifest.fileName
  if ← isFile loader path then
    return (← read? loader path).bind (Manifest.parse? · path)
  else return none

def firstFile : List Path → StateT Knowledge m (Option Path)
  | [] => return none
  | path :: rest => do if ← isFile loader path then return some path else firstFile rest

/-- The configuration of a directory itself: only the first file of a configuration's name
counts, and only if it can be used. -/
def configIn (directory : Path) : StateT Knowledge m (Option ProjectConfig) := do
  match ← firstFile loader (ProjectConfig.fileNames.map (directory / ·)) with
  | none => return none
  | some path => return (← ProjectConfig.load (read? loader) path).toOption

end

/-- One kind of descriptor: where its answers are remembered, and how it is found in a
directory. -/
structure Kind (m : Type → Type) (α : Type) where
  known? : Knowledge → List Path.Part → Option (Option α)
  remember : Knowledge → List Path.Part → Option α → Knowledge
  findIn : Path → StateT Knowledge m (Option α)

section

variable {m : Type → Type} [Monad m]

def manifestKind (loader : Loader m) : Kind m Manifest where
  known? knowledge key := knowledge.manifests[key]?
  remember knowledge key answer :=
    { knowledge with manifests := knowledge.manifests.insert key answer }
  findIn := manifestIn loader

def configKind (loader : Loader m) : Kind m ProjectConfig where
  known? knowledge key := knowledge.configs[key]?
  remember knowledge key answer :=
    { knowledge with configs := knowledge.configs.insert key answer }
  findIn := configIn loader

variable {α : Type} (kind : Kind m α) (root : Option Path)

/-- Looks through directories, the nearest first: the answer, and those passed on the way. -/
def search : List Path → List Path → StateT Knowledge m (Option α × List Path)
  | [], passed => return (none, passed)
  | directory :: rest, passed => do
      match kind.known? (← get) directory.parts with
      | some answer => return (answer, passed)
      | none =>
          match ← kind.findIn directory with
          | some found => return (some found, directory :: passed)
          | none =>
              if root.any directory.same then return (none, directory :: passed)
              else search rest (directory :: passed)

def nearest (directory : Path) : StateT Knowledge m (Option α) := do
  let (answer, passed) ← search kind root directory.ancestors []
  modify fun knowledge =>
    passed.foldl (fun knowledge directory => kind.remember knowledge directory.parts answer)
      knowledge
  return answer

end

section

variable {m : Type → Type} [Monad m] (loader : Loader m) (root : Option Path)

def manifestFor (directory : Path) : StateT Knowledge m (Option Manifest) :=
  nearest (manifestKind loader) root directory

def configFor (directory : Path) : StateT Knowledge m (Option ProjectConfig) :=
  nearest (configKind loader) root directory

end

end Knowledge

end ModuleTrace
