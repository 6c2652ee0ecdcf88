import ModuleTrace.Affix
import ModuleTrace.Json.Reader
import ModuleTrace.Path

/-!
# Package manifests

The manifest of a package names it, says which files importers of the package get, and may list
the members of a workspace.
-/

namespace ModuleTrace

structure Manifest where
  path : Path
  name : Option String
  /-- Files to try for the package, relative to its directory. -/
  entries : List String
  /-- The package says itself what can be imported from it. -/
  hasExports : Bool
  workspaces : Option (List String)
  deriving Repr, Inhabited

namespace Manifest

def fileName : String := "package.json"

/-- Tried after the entry that the manifest names. -/
def defaultEntry : String := "index"

def directory (m : Manifest) : Path :=
  m.path.parent?.getD ⟨"/"⟩

/-- Patterns of the members, given as a list or under `packages`. -/
def workspacePatterns? (json : Json) : Option (List String) :=
  match json with
  | .array items => some (Json.strings items)
  | .object _ => (json.member? "packages").bind Json.array? |>.map Json.strings
  | _ => none

def ofJson (path : Path) (json : Json) : Manifest :=
  let main := ((json.member? "main").bind Json.string?).filter fun main => !Affix.isBlank main
  { path
    name := (json.member? "name").bind Json.string?
    entries := main.toList ++ [defaultEntry]
    hasExports := (json.member? "exports").any fun value => !value.isNull
    workspaces := (json.member? "workspaces").bind workspacePatterns? }

def parse? (contents : String) (path : Path) : Option Manifest :=
  (Json.parse? contents).map (ofJson path)

def invalidMessage (path : Path) : String :=
  "invalid JSON in " ++ path.text

/-- What a specifier means inside the package: the package may be named by itself. -/
def relativePath (m : Manifest) (specifier : String) : Path :=
  match m.name with
  | none => m.directory / specifier
  | some name =>
      if specifier = name then m.directory
      else
        match Affix.dropStart? (name ++ "/") specifier with
        | some rest => m.directory / rest
        | none => m.directory / specifier

end Manifest

end ModuleTrace
