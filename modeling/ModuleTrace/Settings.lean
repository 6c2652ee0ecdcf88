import ModuleTrace.FileSystem
import ModuleTrace.Suite.Rule
import ModuleTrace.Toml.Reader
import ModuleTrace.Traversal.Session

/-!
# Settings of a project

Settings are read from a TOML file. What the file does not say has a default, and keys that are
not known are passed over, but a known key must have a value of its kind.
-/

namespace ModuleTrace

structure Settings where
  supported : List String := []
  checksModules : Bool := true
  isRestricted : Bool := false
  /-- Descriptors are not looked for above this directory, which is relative to the project. -/
  root : Option Path := none
  fileLimit : Option Nat := none
  rules : List MatchRule := []
  deriving DecidableEq, Repr, Inhabited

inductive SettingsError where
  | missing (path : Path)
  | unreadable (path : Path) (cause : ReadError)
  | malformed (path : Path)
  deriving DecidableEq, Repr, Inhabited

def SettingsError.message : SettingsError → String
  | .missing path => "config file not found: " ++ path.text
  | .unreadable path _ => "Failed to read " ++ path.text
  | .malformed path => "Failed to parse " ++ path.text

namespace Toml

def boolean? : Toml → Option Bool
  | .boolean value => some value
  | _ => none

def natural? : Toml → Option Nat
  | .integer value => if 0 ≤ value then some value.toNat else none
  | _ => none

def listOf? {α : Type} (item? : Toml → Option α) : Toml → Option (List α)
  | .array items => items.mapM item?
  | _ => none

/-- The value of a key, or a default if the key is not there; none if the value is of another
kind. -/
def field? {α : Type} (entries : List (String × Toml)) (key : String) (standard : α)
    (kind? : Toml → Option α) : Option α :=
  match entries.lookup key with
  | none => some standard
  | some value => kind? value

end Toml

namespace MatchRule

private def text? (value : Toml) : Option (Option String) :=
  value.string?.map some

private def path? (value : Toml) : Option (Option Path) :=
  value.string?.map fun text => some ⟨text⟩

private def ofEntries? (entries : List (String × Toml)) : Option MatchRule := do
  let name ← Toml.field? entries "name" none text?
  let testDirectory ← Toml.field? entries "test_dir" none path?
  let included ← Toml.field? entries "test_match" [] (Toml.listOf? Toml.string?)
  let excluded ← Toml.field? entries "test_ignore" [] (Toml.listOf? Toml.string?)
  let snapshotTemplate ← Toml.field? entries "snapshot_path_template" none text?
  return { name, testDirectory, included, excluded, snapshotTemplate }

/-- Keys of a rule, in the order in which an array may give their values. -/
def keys : List String :=
  ["name", "test_dir", "test_match", "test_ignore", "snapshot_path_template"]

/-- Reads a rule from a table, or from the values of its keys in an array. A date says nothing
of any key. -/
def ofToml? : Toml → Option MatchRule
  | .table entries => ofEntries? entries
  | .array items => ofEntries? (keys.zip items)
  | .dateTime => some {}
  | _ => none

end MatchRule

namespace Settings

private def ofEntries? (entries : List (String × Toml)) : Option Settings := do
  let supported ← Toml.field? entries "supported_modules" [] (Toml.listOf? Toml.string?)
  let checksModules ← Toml.field? entries "check_unsupported_modules" true Toml.boolean?
  let isRestricted ← Toml.field? entries "restricted" false Toml.boolean?
  let root ← Toml.field? entries "root" none fun value =>
    value.string?.map fun text => some (Path.mk text)
  let fileLimit ← Toml.field? entries "max_files" none fun value => value.natural?.map some
  let rules ← Toml.field? entries "match_rules" [] (Toml.listOf? MatchRule.ofToml?)
  return { supported, checksModules, isRestricted, root, fileLimit, rules }

/-- Reads settings; none if the text is no TOML or a value is of the wrong kind. -/
def parse? (text : String) : Option Settings :=
  (Toml.parse? text).bind ofEntries?

def options (settings : Settings) (project : Path) : Options :=
  { supported := settings.supported
    checksModules := settings.checksModules
    isRestricted := settings.isRestricted
    root := settings.root.map project.join
    fileLimit := settings.fileLimit }

/-- Files that hold settings, in the order in which they are tried. -/
def fileNames : List String :=
  [".depscope/config.toml", "depscope.toml"]

section

variable {m : Type → Type} [Monad m] (fs : FileSystem m)

/-- The file of settings that is named, or the first one in the project. -/
def findFile (project : Path) (named : Option Path) : m (Option Path) :=
  Path.firstThat fs.isPresent
    (match named with
      | some path => [path]
      | none => fileNames.map (project / ·))

def loadFile (path : Path) : m (Except SettingsError Settings) := do
  match ← fs.read path with
  | .error cause => return .error (.unreadable path cause)
  | .ok text =>
      match parse? text with
      | some settings => return .ok settings
      | none => return .error (.malformed path)

/-- The settings of a project; without a file they are the default, but a file that is named
must be there. -/
def load (project : Path) (named : Option Path) : m (Except SettingsError Settings) := do
  match ← findFile fs project named with
  | some path => loadFile fs path
  | none =>
      match named with
      | some path => return .error (.missing path)
      | none => return .ok {}

end

end Settings

end ModuleTrace
