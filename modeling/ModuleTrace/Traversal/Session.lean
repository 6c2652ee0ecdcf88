import ModuleTrace.Resolution.Classifier
import ModuleTrace.Traversal.Policy
import ModuleTrace.Traversal.Problem

/-!
# Sessions

A session resolves entrypoints one after another and remembers what it has learned from each
file. From an entrypoint it walks the graph of local dependencies breadth first, every file
once, and collects the problems on the way.
-/

namespace ModuleTrace

structure Options where
  /-- Modules that are supported besides those of the runtime. -/
  supported : List String := []
  checksModules : Bool := true
  /-- Files must stay in the package of the file that includes them. -/
  isRestricted : Bool := false
  /-- Descriptors are not looked for above this directory. -/
  root : Option Path := none
  /-- A traversal must not reach more files than this. -/
  fileLimit : Option Nat := none
  deriving DecidableEq, Repr, Inhabited

structure Analysis where
  specifiers : List String := []
  dependencies : Dependencies := {}
  failure : Option String := none
  deriving DecidableEq, Repr, Inhabited

structure Session (m : Type → Type) where
  loader : Loader m
  extractor : Extractor
  options : Options
  workspace : Option Workspace

structure Memory where
  knowledge : Knowledge := {}
  analyses : Std.HashMap (List Path.Part) Analysis := ∅
  deriving Inhabited

structure Reach where
  entrypoint : SourceFile
  /-- Files reached, without the entrypoint, in the order of discovery. -/
  files : List SourceFile := []
  missing : List Path := []
  unsupported : List UnsupportedModules := []
  failures : List FileFailure := []
  deriving DecidableEq, Repr, Inhabited

structure Resolved where
  entrypoint : SourceFile
  files : List SourceFile
  deriving DecidableEq, Repr, Inhabited

namespace Reach

def problems (r : Reach) : Problems :=
  ⟨r.entrypoint.path, r.missing, r.unsupported, r.failures⟩

/-- The files, if there is no problem. -/
def validate (r : Reach) : Except ResolveError Resolved :=
  if r.problems.isEmpty then .ok ⟨r.entrypoint, r.files⟩ else .error (.problems r.problems)

def addMissing (r : Reach) (path : Path) : Reach :=
  if r.missing.any path.same then r else { r with missing := r.missing ++ [path] }

def addUnsupported (r : Reach) (file : Path) (names : List String) : Reach :=
  if names.isEmpty then r else { r with unsupported := r.unsupported ++ [⟨file, names⟩] }

def addFailure (r : Reach) (file : Path) (message : String) : Reach :=
  { r with failures := r.failures ++ [⟨file, message⟩] }

end Reach

/-- A traversal on its way: what was found, what was met, and what waits to be taken apart. -/
structure Frontier where
  reach : Reach
  visited : List (List Path.Part)
  queue : List SourceFile
  deriving Inhabited

namespace Session

section

variable {m : Type → Type} [Monad m] (s : Session m)

/-- The directory that a file's dependencies must stay in. -/
def boundary (file : SourceFile) : Option Path :=
  if s.options.isRestricted then
    match s.workspace.bind fun workspace => workspace.byPath file.path with
    | some package => some package.path
    | none => s.options.root
  else none

def surroundings (file : SourceFile) : Surroundings :=
  ⟨s.options.root, s.workspace, s.boundary file⟩

def withKnowledge {α : Type} (operation : StateT Knowledge m α) : StateT Memory m α := do
  let memory ← get
  let (value, knowledge) ← operation.run memory.knowledge
  set { memory with knowledge }
  return value

def load (path : Path) : StateT Memory m (Except ReadError SourceFile) :=
  withKnowledge (Knowledge.load s.loader path)

def classifyAll (file : SourceFile) (specifiers : List String) :
    StateT Memory m (List Classification) :=
  specifiers.mapM fun specifier =>
    withKnowledge (Classifier.classify s.loader (s.surroundings file) file specifier)

def analyze (file : SourceFile) : StateT Memory m (Except ResolveError Analysis) := do
  match (← get).analyses[file.path.parts]? with
  | some analysis => return .ok analysis
  | none =>
      match s.extractor file with
      | .error error => return .error (.ofExtraction error)
      | .ok extraction =>
          let analysis ←
            match extraction with
            | .syntaxError message => pure { failure := some message : Analysis }
            | .specifiers found => do
                let classifications ← s.classifyAll file found
                pure ⟨found, .ofClassifications classifications, none⟩
          modify fun memory =>
            { memory with analyses := memory.analyses.insert file.path.parts analysis }
          return .ok analysis

def noteProblems (file : SourceFile) (analysis : Analysis) (reach : Reach) : Reach :=
  let reach := analysis.dependencies.missing.foldl (fun reach dependency =>
    reach.addMissing dependency.attempted) reach
  if s.options.checksModules then
    reach.addUnsupported file.path
      (Policy.unsupported s.options.supported analysis.dependencies.external)
  else reach

/-- Meets a local dependency: a path met for the first time is loaded and queued. -/
def meet (frontier : Frontier) (path : Path) :
    StateT Memory m (Except ResolveError Frontier) := do
  if frontier.visited.contains path.parts then return .ok frontier
  else
    let frontier := { frontier with visited := path.parts :: frontier.visited }
    let reach := frontier.reach
    match s.options.fileLimit.filter (· ≤ reach.files.length) with
    | some limit => return .error (.limitExceeded reach.entrypoint.path limit)
    | none =>
        match ← s.load path with
        | .ok file =>
            return .ok { frontier with
              reach := { reach with files := reach.files ++ [file] }
              queue := frontier.queue ++ [file] }
        | .error error =>
            return .ok { frontier with
              reach := reach.addFailure path ("cannot read file: " ++ error.message) }

def meetAll : List Path → Frontier → StateT Memory m (Except ResolveError Frontier)
  | [], frontier => return .ok frontier
  | path :: rest, frontier => do
      match ← s.meet frontier path with
      | .error error => return .error error
      | .ok frontier => meetAll rest frontier

/-- Takes the next file apart and meets its dependencies. -/
def visit (file : SourceFile) (frontier : Frontier) :
    StateT Memory m (Except ResolveError Frontier) := do
  match ← s.analyze file with
  | .error error => return .error error
  | .ok analysis =>
      match analysis.failure with
      | some message =>
          return .ok { frontier with reach := frontier.reach.addFailure file.path message }
      | none =>
          let reach := s.noteProblems file analysis frontier.reach
          s.meetAll (analysis.dependencies.locals.map LocalDependency.path)
            { frontier with reach }

/-- Visits queued files until none waits. A loader that serves more files than it says it has is
stopped as by a limit. -/
def traverse : Nat → Frontier → StateT Memory m (Except ResolveError Frontier)
  | 0, frontier =>
      match frontier.queue with
      | [] => return .ok frontier
      | _ :: _ => return .error (.limitExceeded frontier.reach.entrypoint.path s.loader.extent)
  | fuel + 1, frontier => do
      match frontier.queue with
      | [] => return .ok frontier
      | file :: queue =>
          match ← s.visit file { frontier with queue } with
          | .error error => return .error error
          | .ok frontier => traverse fuel frontier

/-- Walks the graph from an entrypoint and collects files and problems. Every file is queued
once, so one round more than there are files suffices. -/
def collect (entrypoint : Path) : StateT Memory m (Except ResolveError Reach) := do
  let path := entrypoint.normalize
  match ← s.load path with
  | .error error => return .error (.entrypointUnreadable path error)
  | .ok file =>
      let start : Frontier := ⟨{ entrypoint := file }, [file.path.parts], [file]⟩
      match ← s.traverse (s.loader.extent + 1) start with
      | .error error => return .error error
      | .ok frontier => return .ok frontier.reach

def resolve (entrypoint : Path) : StateT Memory m (Except ResolveError Resolved) := do
  match ← s.collect entrypoint with
  | .error error => return .error error
  | .ok reach => return reach.validate

def resolveAll (entrypoints : List Path) :
    StateT Memory m (List (Except ResolveError Resolved)) :=
  entrypoints.mapM s.resolve

end

end Session

end ModuleTrace
