import ModuleTrace.Proofs.Resolution.Likeness

/-!
# Answers without memory

What a loader that never changes its answers says of descriptors and files, asked anew each time.
All files that a target may stand for are listed first, in the order in which they are tried; the
target means the first of them that is there and may be found.
-/

namespace ModuleTrace

/-- A loader that gives the same answer for the same path, however it is spelled, and that reads
only what it reports as a file. The loader of a disk is not quite one: with a slash behind its name
a file is none. `Session.Answered` says of which runs over a disk that makes no difference. -/
structure Loader.Fixed (loader : Loader Id) : Prop where
  read_same : ∀ p q : Path, p.same q → loader.read p = loader.read q
  isFile_same : ∀ p q : Path, p.same q → loader.isFile p = loader.isFile q
  isFile_of_read : ∀ (path : Path) (contents : String),
    (loader.read path).run = .ok contents → (loader.isFile path).run = true

namespace Loader

/-- The loader of some texts, each under the parts of its path. -/
def ofTexts (texts : List (List Path.Part × String)) : Loader Id where
  read path :=
    match texts.lookup path.parts with
    | some text => .ok text
    | none => .error .notFound
  isFile path := (texts.lookup path.parts).isSome
  isDirectory _ := false
  extent := texts.length

theorem ofTexts_fixed (texts : List (List Path.Part × String)) : (ofTexts texts).Fixed where
  read_same p q h := by simp [ofTexts, (Path.same_iff p q).1 h]
  isFile_same p q h := by simp [ofTexts, (Path.same_iff p q).1 h]
  isFile_of_read path contents h := by
    simp only [ofTexts] at h ⊢
    cases htext : texts.lookup path.parts with
    | none =>
        rw [htext] at h
        cases h
    | some text => rfl

/-- The first descriptor in some directories; the root is the last one that is looked into. -/
def nearest {α : Type} (findIn : Path → Option α) (root : Option Path) : List Path → Option α
  | [] => none
  | directory :: rest =>
      match findIn directory with
      | some found => some found
      | none => if root.any directory.same then none else nearest findIn root rest

section

variable (loader : Loader Id)

def has (path : Path) : Bool :=
  (loader.isFile path).run

def text? (path : Path) : Id (Option String) :=
  (loader.read path).run.toOption

def manifestIn (directory : Path) : Option Manifest :=
  let path := directory / Manifest.fileName
  if loader.has path then (loader.text? path).run.bind (Manifest.parse? · path) else none

def configIn (directory : Path) : Option ProjectConfig :=
  match (ProjectConfig.fileNames.map (directory / ·)).find? loader.has with
  | none => none
  | some path => (ProjectConfig.load loader.text? path).run.toOption

variable (root : Option Path)

def manifestFor (directory : Path) : Option Manifest :=
  nearest loader.manifestIn root directory.ancestors

def configFor (directory : Path) : Option ProjectConfig :=
  nearest loader.configIn root directory.ancestors

/-- The manifest at a path, if it is the one that governs its directory. -/
def manifestAt (path : Path) : Option (Path × Manifest) :=
  if loader.has path then
    match path.parent? with
    | none => none
    | some directory =>
        match loader.manifestFor root directory with
        | some manifest => if manifest.path.same path then some (directory, manifest) else none
        | none => none
  else none

/-- All files that a target may stand for, in order. A manifest stands for the files of its
entries. -/
def scan : Nat → Path → Option ProjectConfig → List Path
  | depth, target, config =>
      (Classifier.probes target config).flatMap fun candidate =>
        match candidate with
        | .file path => [path]
        | .manifest path =>
            match depth with
            | 0 => []
            | depth + 1 =>
                if config.all fun config => config.moduleResolution.allowsManifests then
                  match loader.manifestAt root path with
                  | none => []
                  | some (directory, manifest) =>
                      manifest.entries.flatMap fun entry =>
                        scan depth (directory / entry).normalize (loader.configFor root directory)
                else []

end

structure Attempt where
  rule : Rule
  target : Path
  config : Option ProjectConfig
  surroundings : Surroundings

section

variable (loader : Loader Id)

def outcome (specifier : String) (attempt : Attempt) : Option LocalDependency :=
  ((loader.scan attempt.surroundings.root Classifier.manifestDepth attempt.target
    attempt.config).find? fun path =>
      loader.has path && attempt.surroundings.permits path).map fun path =>
        ⟨specifier, path, attempt.rule⟩

variable (s : Surroundings)

def aliasAttempts (config : ProjectConfig) (specifier : String) : List Attempt :=
  (Alias.allCandidates config.aliases specifier).map fun candidate =>
    ⟨.aliased candidate.pattern candidate.target, candidate.path.normalize, some config, s⟩

def baseAttempts (config : ProjectConfig) (specifier : String) : List Attempt :=
  config.baseUrl.toList.map fun base => ⟨.base, (base / specifier).normalize, some config, s⟩

def packageAttempts (directory : Path) (config : Option ProjectConfig) (specifier : String) :
    List Attempt :=
  match loader.manifestFor s.root directory with
  | none => []
  | some manifest =>
      if manifest.hasExports then []
      else [⟨.package, (manifest.relativePath specifier).normalize, config, s⟩]

def workspaceAttempts (specifier : String) : List Attempt :=
  let name := Specifier.packageName specifier
  match s.workspace.bind fun workspace => workspace.byName name with
  | none => []
  | some package =>
      let rest := Classifier.subpath name specifier
      let target := if rest.isEmpty then package.path else (package.path / rest).normalize
      [⟨.workspace package.name, target, loader.configFor s.root package.path, s.inside package⟩]

def bareAttempts (directory : Path) (config : Option ProjectConfig) (specifier : String) :
    List Attempt :=
  (match config with
    | none => []
    | some config => aliasAttempts s config specifier ++ baseAttempts s config specifier)
    ++ (loader.packageAttempts s directory config specifier
      ++ loader.workspaceAttempts s specifier)

def meaning (file : SourceFile) (specifier : String) : Classification :=
  if Specifier.hasScheme specifier then .external specifier
  else
    let directory := file.directory
    let config := loader.configFor s.root directory
    if Specifier.isLocal specifier then
      let target := (directory / specifier).normalize
      match loader.outcome specifier ⟨.relative, target, config, s⟩ with
      | some dependency => .localFile dependency
      | none => .missing ⟨specifier, target⟩
    else
      match (loader.bareAttempts s directory config specifier).findSome?
          (loader.outcome specifier) with
      | some dependency => .localFile dependency
      | none => .external specifier

end

end Loader

end ModuleTrace
