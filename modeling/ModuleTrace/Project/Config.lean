import ModuleTrace.Json.Reader
import ModuleTrace.Json.Relaxed
import ModuleTrace.Project.Alias

/-!
# Project configurations

The configuration of a project says how bare specifiers become paths and where the sources of
compiled files lie. A configuration may extend others; what it says itself counts first, then
what the last one extended says, and so on.
-/

namespace ModuleTrace

inductive ModuleResolution where
  | classic
  | node10
  | node16
  | nodeNext
  | bundler
  deriving DecidableEq, Repr, Inhabited

namespace ModuleResolution

def standard : ModuleResolution := .node10

def parse? (text : String) : Option ModuleResolution :=
  match Affix.lower text with
  | "classic" => some .classic
  | "node" | "node10" => some .node10
  | "node16" => some .node16
  | "nodenext" => some .nodeNext
  | "bundler" => some .bundler
  | _ => none

/-- Whether the manifest of a directory says what the directory stands for. -/
def allowsManifests (m : ModuleResolution) : Bool :=
  m ≠ .classic

end ModuleResolution

structure ConfigOptions where
  baseUrl : Option Path := none
  /-- Aliases in the order of their patterns, and the directory of the file that has them. -/
  paths : Option (List (String × List String) × Path) := none
  moduleResolution : Option ModuleResolution := none
  outDir : Option Path := none
  rootDir : Option Path := none
  rootDirs : Option (List Path) := none
  composite : Option Bool := none
  deriving Repr, Inhabited

namespace ConfigOptions

/-- Own options where they are set, else inherited ones. -/
def extending (own inherited : ConfigOptions) : ConfigOptions :=
  { baseUrl := own.baseUrl <|> inherited.baseUrl
    paths := own.paths <|> inherited.paths
    moduleResolution := own.moduleResolution <|> inherited.moduleResolution
    outDir := own.outDir <|> inherited.outDir
    rootDir := own.rootDir <|> inherited.rootDir
    rootDirs := own.rootDirs <|> inherited.rootDirs
    composite := own.composite <|> inherited.composite }

def aliasEntries (members : List (String × Json)) : List (String × List String) :=
  members.filterMap fun (pattern, targets) =>
    targets.array?.map fun items => (pattern, Json.strings items)

def ofJson (directory : Path) (json : Json) : ConfigOptions :=
  let option := fun key => json.member? key
  let located := fun text => (directory / text).normalize
  let path := fun key => ((option key).bind Json.string?).map located
  { baseUrl := path "baseUrl"
    paths := ((option "paths").bind Json.object?).map fun members =>
      (aliasEntries members, directory)
    moduleResolution :=
      ((option "moduleResolution").bind Json.string?).bind ModuleResolution.parse?
    outDir := path "outDir"
    rootDir := path "rootDir"
    rootDirs := ((option "rootDirs").bind Json.array?).map fun items =>
      (Json.strings items).map located
    composite := (option "composite").bind Json.bool? }

end ConfigOptions

inductive ConfigError where
  | unreadable (path : Path)
  | invalidJson (path : Path)
  deriving DecidableEq, Repr

namespace ConfigError

def message : ConfigError → String
  | .unreadable path => "failed to read " ++ path.text
  | .invalidJson path => "invalid JSON in " ++ path.text

end ConfigError

structure ProjectConfig where
  path : Path
  baseUrl : Option Path
  /-- The most specific alias first. -/
  aliases : List Alias
  moduleResolution : ModuleResolution
  outDir : Option Path
  rootDir : Option Path
  rootDirs : List Path
  composite : Bool
  deriving Repr, Inhabited

namespace ProjectConfig

/-- Names of configuration files; the first one hides the second in one directory. -/
def fileNames : List String := ["tsconfig.json", "jsconfig.json"]

/-- Configurations extended beyond this are left out, so that cycles end. -/
def extensionDepth : Nat := 16

def directoryOf (path : Path) : Path :=
  path.parent?.getD ⟨"."⟩

def directory (config : ProjectConfig) : Path :=
  directoryOf config.path

/-- The file that an extension names; packages are not followed. -/
def extendedPath? (directory : Path) (text : String) : Option Path :=
  if text.toList.head? = some '.' || (Path.mk text).isAbsolute then
    let path := (directory / text).normalize
    some (if path.extension? = some "json" then path else path.append "json")
  else none

def extensions (json : Json) : List String :=
  match json.member? "extends" with
  | some (.string text) => [text]
  | some (.array items) => Json.strings items
  | _ => []

section

variable {m : Type → Type} [Monad m] (read : Path → m (Option String))

/-- The options of a configuration and all that it extends. Of several extended ones the later
one counts first, and those that cannot be used count for nothing. -/
def loadOptions : Nat → Path → String → m (Except ConfigError ConfigOptions)
  | depth, path, contents => do
      match Json.parse? (Json.strict contents) with
      | none => return .error (.invalidJson path)
      | some json =>
          let directory := directoryOf path
          let own := ConfigOptions.ofJson directory ((json.member? "compilerOptions").getD .null)
          match depth with
          | 0 => return .ok own
          | depth + 1 =>
              let parents := (extensions json).filterMap (extendedPath? directory)
              let inherited ← parents.foldlM (fun inherited parent => do
                match ← read parent with
                | none => return inherited
                | some contents =>
                    match ← loadOptions depth parent contents with
                    | .ok options => return options.extending inherited
                    | .error _ => return inherited) ({} : ConfigOptions)
              return .ok (own.extending inherited)

end

def aliasesOf (options : ConfigOptions) : List Alias :=
  match options.paths with
  | none => []
  | some (entries, directory) =>
      let base := options.baseUrl.getD directory
      Alias.order (entries.map fun (pattern, targets) => Alias.of base pattern targets)

def ofOptions (path : Path) (options : ConfigOptions) : ProjectConfig :=
  { path
    baseUrl := options.baseUrl
    aliases := aliasesOf options
    moduleResolution := options.moduleResolution.getD .standard
    outDir := options.outDir
    rootDir := options.rootDir
    rootDirs := options.rootDirs.getD []
    composite := options.composite.getD false }

/-- The configuration that a text says, following what it extends. -/
def parseWith {m : Type → Type} [Monad m] (read : Path → m (Option String)) (contents : String)
    (path : Path) : m (Except ConfigError ProjectConfig) := do
  match ← loadOptions read extensionDepth path contents with
  | .ok options => return .ok (ofOptions path options)
  | .error error => return .error error

/-- The configuration that a text says; what it extends is not followed. -/
def parse (contents : String) (path : Path) : Except ConfigError ProjectConfig :=
  Id.run (parseWith (fun _ => none) contents path)

def load {m : Type → Type} [Monad m] (read : Path → m (Option String)) (path : Path) :
    m (Except ConfigError ProjectConfig) := do
  match ← read path with
  | none => return .error (.unreadable path)
  | some contents => parseWith read contents path

/-- Drops each path that is the same as the one before it. -/
def dropRepeats : List Path → List Path
  | [] => []
  | p :: rest =>
      match dropRepeats rest with
      | [] => [p]
      | q :: kept => if p.same q then p :: kept else p :: q :: kept

/-- Where the source of a path may lie: a path in the output directory is first looked for in
the directories of the sources. -/
def sourcePaths (config : ProjectConfig) (path : Path) : List Path :=
  let mapped :=
    match config.outDir.bind path.relativeTo? with
    | none => []
    | some relative =>
        match config.rootDir.toList ++ config.rootDirs with
        | [] => [config.directory.join relative]
        | roots => roots.map fun root => root.join relative
  dropRepeats (mapped ++ [path])

end ProjectConfig

end ModuleTrace
