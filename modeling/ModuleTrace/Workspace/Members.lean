import ModuleTrace.FileSystem.Walk
import ModuleTrace.Glob.Matching
import ModuleTrace.Project.Manifest
import ModuleTrace.Workspace.Package
import ModuleTrace.Workspace.Problem

/-!
# Members of a workspace

A workspace lists its members by patterns of directories below its root; patterns behind an
exclamation mark take directories out again. A directory is a member if it has a manifest with a
name.
-/

namespace ModuleTrace.Workspace

def passedBy : List String :=
  ["node_modules", ".git"]

def dropHere : List Char → List Char
  | '.' :: '/' :: rest => dropHere rest
  | cs => cs

/-- The text of a pattern without `./` before it and slashes behind it. -/
def trimPattern (text : String) : String :=
  Affix.trimRight (· = '/') (String.ofList (dropHere text.toList))

def parsePatterns (reader : Glob.Reader) (texts : List String) :
    Except WorkspaceError (List (String → Bool)) :=
  texts.mapM fun text =>
    let trimmed := trimPattern text
    match reader trimmed with
    | .ok test => .ok test
    | .error fault => .error (.invalidPattern trimmed fault)

structure Selection where
  included : List (String → Bool)
  excluded : List (String → Bool)

def Selection.parse (reader : Glob.Reader) (texts : List String) :
    Except WorkspaceError Selection := do
  let included ← parsePatterns reader (texts.filter fun text => !Affix.begins "!" text)
  let excluded ← parsePatterns reader (texts.filterMap (Affix.dropStart? "!"))
  return ⟨included, excluded⟩

def Selection.selects (s : Selection) (relative : Path) : Bool :=
  relative.text ≠ "" && s.included.any (· relative.text) && !s.excluded.any (· relative.text)

section

variable {m : Type → Type} [Monad m] (fs : FileSystem m)

def memberDirectories (root : Path) (patterns : List String)
    (reader : Glob.Reader := Glob.reader) : m (Except WorkspaceError (List Path)) := do
  match Selection.parse reader patterns with
  | .error error => return .error error
  | .ok selection =>
      let visits ← fs.walk (Guide.avoiding passedBy) () root
      let selected := (Visit.paths .directory visits).filter fun path =>
        (path.relativeTo? root).any selection.selects
      return .ok (Path.sort selected)

def readJson (path : Path) : m (Except WorkspaceError Json) := do
  match ← fs.read path with
  | .error cause => return .error (.unreadable path cause)
  | .ok contents =>
      match Json.parse? contents with
      | some json => return .ok json
      | none => return .error (.malformed path)

/-- The package in a directory, if its manifest names it. -/
def readMember? (directory : Path) : m (Option Package) := do
  match ← readJson fs (directory / Manifest.fileName) with
  | .error _ => return none
  | .ok json =>
      return ((json.member? "name").bind Json.string?).map fun name =>
        ⟨name, directory, (json.member? "workspaces").bind Manifest.workspacePatterns?⟩

end

def directoryName (directory : Path) : String :=
  directory.name?.getD ""

/-- The name that a file gives to the package in a directory. -/
def nameIn (json : Json) (directory : Path) : String :=
  ((json.member? "name").bind Json.string?).getD (directoryName directory)

end ModuleTrace.Workspace
