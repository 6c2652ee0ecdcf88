import ModuleTrace.Resolution.Candidate
import ModuleTrace.Resolution.Dependency
import ModuleTrace.Resolution.Descriptors
import ModuleTrace.Specifier
import ModuleTrace.Workspace.Package

/-!
# Classification

Rules are tried in a fixed order, and the first one that finds a file wins: a specifier written
as a path is looked for beside the importing file; any other one by the aliases of the project,
in its base directory, in the directory of the nearest manifest unless that lists its exports,
and as a package of the workspace. What no rule finds comes from elsewhere.
-/

namespace ModuleTrace

/-- What classification knows besides files. -/
structure Surroundings where
  /-- Descriptors are not looked for above this directory. -/
  root : Option Path := none
  workspace : Option Workspace := none
  /-- Files outside this directory are not found. -/
  boundary : Option Path := none
  deriving Inhabited

namespace Surroundings

def permits (s : Surroundings) (path : Path) : Bool :=
  match s.boundary with
  | none => true
  | some boundary => path.isUnder boundary

def inside (s : Surroundings) (package : Package) : Surroundings :=
  { s with boundary := s.boundary.map fun _ => package.path }

end Surroundings

namespace Classifier

/-- Manifests that lead to one another are followed this far. -/
def manifestDepth : Nat := 8

section

variable {m : Type → Type} [Monad m] (loader : Loader m)

def firstSome {α β : Type} (action : α → StateT Knowledge m (Option β)) :
    List α → StateT Knowledge m (Option β)
  | [] => return none
  | a :: rest => do
      match ← action a with
      | some found => return some found
      | none => firstSome action rest

/-- The manifest at a path. A manifest that cannot be used is none, even when one above it
governs the directory. -/
def manifestAt (root : Option Path) (path : Path) :
    StateT Knowledge m (Option (Path × Manifest)) := do
  if ← Knowledge.isFile loader path then
    match path.parent? with
    | none => return none
    | some directory =>
        match ← Knowledge.manifestFor loader root directory with
        | some manifest =>
            return if manifest.path.same path then some (directory, manifest) else none
        | none => return none
  else return none

def probes (target : Path) (config : Option ProjectConfig) : List Candidate :=
  let places :=
    match config with
    | some config => config.sourcePaths target
    | none => [target]
  places.flatMap Candidate.of

/-- The first file that a target stands for and that may be found. A manifest stands for the
targets it names, under the configuration of its own directory. -/
def lookup (s : Surroundings) :
    Nat → Path → Option ProjectConfig → StateT Knowledge m (Option Path)
  | depth, target, config =>
      firstSome (fun candidate =>
        match candidate with
        | .file path => do
            if ← Knowledge.isFile loader path then
              return if s.permits path then some path else none
            else return none
        | .manifest path =>
            match depth with
            | 0 => return none
            | depth + 1 => do
                if config.all fun config => config.moduleResolution.allowsManifests then
                  match ← manifestAt loader s.root path with
                  | none => return none
                  | some (directory, manifest) =>
                      let config ← Knowledge.configFor loader s.root directory
                      firstSome (fun entry =>
                        lookup s depth (directory / entry).normalize config) manifest.entries
                else return none) (probes target config)

def found (specifier : String) (rule : Rule) (path : Option Path) :
    Option LocalDependency :=
  path.map fun path => ⟨specifier, path, rule⟩

def byRule (s : Surroundings) (specifier : String) (config : Option ProjectConfig)
    (rule : Rule) (target : Path) : StateT Knowledge m (Option LocalDependency) := do
  return found specifier rule (← lookup loader s manifestDepth target config)

def byAlias (s : Surroundings) (config : ProjectConfig) (specifier : String) :
    StateT Knowledge m (Option LocalDependency) :=
  firstSome (fun (candidate : AliasCandidate) =>
    byRule loader s specifier (some config) (.aliased candidate.pattern candidate.target)
      candidate.path.normalize) (Alias.allCandidates config.aliases specifier)

def byBase (s : Surroundings) (config : ProjectConfig) (specifier : String) :
    StateT Knowledge m (Option LocalDependency) :=
  match config.baseUrl with
  | none => return none
  | some base => byRule loader s specifier (some config) .base (base / specifier).normalize

def byPackage (s : Surroundings) (directory : Path) (config : Option ProjectConfig)
    (specifier : String) : StateT Knowledge m (Option LocalDependency) := do
  match ← Knowledge.manifestFor loader s.root directory with
  | none => return none
  | some manifest =>
      if manifest.hasExports then return none
      else byRule loader s specifier config .package (manifest.relativePath specifier).normalize

def subpath (name specifier : String) : String :=
  Affix.trimLeft (· = '/') ((Affix.dropStart? name specifier).getD "")

def byWorkspace (s : Surroundings) (specifier : String) :
    StateT Knowledge m (Option LocalDependency) := do
  let name := Specifier.packageName specifier
  match s.workspace.bind fun workspace => workspace.byName name with
  | none => return none
  | some package =>
      let rest := subpath name specifier
      let target := if rest.isEmpty then package.path else (package.path / rest).normalize
      let config ← Knowledge.configFor loader s.root package.path
      byRule loader (s.inside package) specifier config (.workspace package.name) target

def bare (s : Surroundings) (directory : Path) (config : Option ProjectConfig)
    (specifier : String) : StateT Knowledge m (Option LocalDependency) :=
  let configured :=
    match config with
    | none => []
    | some config => [byAlias loader s config specifier, byBase loader s config specifier]
  firstSome id (configured
    ++ [byPackage loader s directory config specifier, byWorkspace loader s specifier])

def classify (s : Surroundings) (file : SourceFile) (specifier : String) :
    StateT Knowledge m Classification := do
  if Specifier.hasScheme specifier then return .external specifier
  else
    let directory := file.directory
    let config ← Knowledge.configFor loader s.root directory
    if Specifier.isLocal specifier then
      let target := (directory / specifier).normalize
      match ← byRule loader s specifier config .relative target with
      | some dependency => return .localFile dependency
      | none => return .missing ⟨specifier, target⟩
    else
      match ← bare loader s directory config specifier with
      | some dependency => return .localFile dependency
      | none => return .external specifier

end

end Classifier

end ModuleTrace
