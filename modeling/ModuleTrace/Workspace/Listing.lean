import ModuleTrace.Json.Relaxed
import ModuleTrace.Workspace.Manager
import ModuleTrace.Workspace.Members

/-!
# Listing a workspace

Managers say in three ways what a workspace holds: in the manifest of its root, in a
configuration file of their own, or through a program that lists the packages.
-/

namespace ModuleTrace

/-- How a manager lists the packages of a workspace. -/
inductive ListingKind where
  | manifest
  | deno
  | pnpm
  deriving DecidableEq, Repr, Inhabited

def PackageManager.listing : PackageManager → ListingKind
  | .npm | .yarn | .bun => .manifest
  | .pnpm => .pnpm
  | .deno => .deno

namespace Workspace

def denoFiles : List String :=
  ["deno.json", "deno.jsonc"]

def pnpmMarker : String := "pnpm-workspace.yaml"

def pnpmArguments : List String :=
  ["list", "--recursive", "--depth", "-1", "--json"]

structure ListedPackage where
  name : Option String
  path : Path
  deriving DecidableEq, Repr

namespace ListedPackage

/-- The only member of a name; none if there are several. -/
private def single? (key : String) (members : List (String × Json)) :
    Option (Option Json) :=
  match members.filter fun entry => entry.1 = key with
  | [] => some none
  | [(_, value)] => some (some value)
  | _ => none

private def ofFields? (name : Option Json) (path : Json) : Option ListedPackage :=
  match name, path with
  | none, .string path | some .null, .string path => some ⟨none, ⟨path⟩⟩
  | some (.string name), .string path => some ⟨some name, ⟨path⟩⟩
  | _, _ => none

/-- A package is an object, or an array of name and path. -/
def ofJson? : Json → Option ListedPackage
  | .object members => do
      let name ← single? "name" members
      let path ← single? "path" members
      ofFields? name (← path)
  | .array [name, path] => ofFields? (some name) path
  | _ => none

def parseAll? (output : String) : Option (List ListedPackage) :=
  ((Json.parseRaw? output).bind Json.array?).bind fun items => items.mapM ofJson?

/-- A package without a name has that of its directory. -/
def package (p : ListedPackage) : Package :=
  ⟨p.name.getD (directoryName p.path), p.path, none⟩

end ListedPackage

/-- The workspace of listed packages: the last one at the root is the root. -/
def ofListing (root : Path) (listed : List ListedPackage) : Workspace :=
  let packages := listed.map ListedPackage.package
  let atRoot := packages.filter fun package => package.path.same root
  ⟨atRoot.getLast?.getD ⟨directoryName root, root, none⟩,
    packages.filter fun package => !package.path.same root⟩

section

variable {m : Type → Type} [Monad m] (fs : FileSystem m)

/-- The first readable configuration of a directory. -/
def denoConfig? (directory : Path) : List String → m (Option (Path × Json))
  | [] => return none
  | name :: rest => do
      let path := directory / name
      match ← fs.read path with
      | .error _ => denoConfig? directory rest
      | .ok contents =>
          match Json.parse? (Json.strict contents) with
          | some json => return some (path, json)
          | none => denoConfig? directory rest

/-- Patterns of members, given as a list or under `members`. -/
def denoPatterns? (json : Json) : Option (List String) :=
  match json.member? "workspace" with
  | some (.array items) => some (Json.strings items)
  | some (.object members) =>
      some (((members.lookup "members").bind Json.array?).map Json.strings |>.getD [])
  | _ => none

/-- The package in a directory: its own configuration names it, or its manifest does. -/
def readDenoMember? (directory : Path) : m (Option Package) := do
  match ← denoConfig? fs directory denoFiles with
  | none => readMember? fs directory
  | some (_, json) =>
      match (json.member? "name").bind Json.string? with
      | some name => return some ⟨name, directory, none⟩
      | none => readMember? fs directory

/-- A workspace from the patterns that its root declares. -/
private def ofPatterns (reader : Glob.Reader) (root : Path) (name : String)
    (patterns : List String) (readPackage : Path → m (Option Package)) :
    m (Except WorkspaceError Workspace) := do
  match ← memberDirectories fs root patterns reader with
  | .error error => return .error error
  | .ok directories =>
      let members ← directories.mapM readPackage
      return .ok ⟨⟨name, root, some patterns⟩, members.filterMap id⟩

def resolveManifest (root : Path) (reader : Glob.Reader := Glob.reader) :
    m (Except WorkspaceError Workspace) := do
  match ← readJson fs (root / Manifest.fileName) with
  | .error error => return .error error
  | .ok json =>
      let patterns := ((json.member? "workspaces").bind Manifest.workspacePatterns?).getD []
      ofPatterns fs reader root (nameIn json root) patterns (readMember? fs)

def resolveDeno (root : Path) (reader : Glob.Reader := Glob.reader) :
    m (Except WorkspaceError Workspace) := do
  match ← denoConfig? fs root denoFiles with
  | none => return .error (.noConfig root)
  | some (path, json) =>
      match denoPatterns? json with
      | none => return .error (.noWorkspace path)
      | some patterns => ofPatterns fs reader root (nameIn json root) patterns (readDenoMember? fs)

def resolvePnpm (run : CommandRunner m) (root : Path) : m (Except WorkspaceError Workspace) := do
  match ← run "pnpm" pnpmArguments root with
  | .error failure => return .error (.command "pnpm" pnpmArguments failure)
  | .ok output =>
      match ListedPackage.parseAll? output with
      | none => return .error (.invalidListing "pnpm")
      | some listed => return .ok (ofListing root listed)

def resolve (run : CommandRunner m) (kind : ListingKind) (root : Path) :
    m (Except WorkspaceError Workspace) :=
  match kind with
  | .manifest => resolveManifest fs root
  | .deno => resolveDeno fs root
  | .pnpm => resolvePnpm run root

def isRoot (kind : ListingKind) (directory : Path) : m Bool := do
  match kind with
  | .manifest =>
      match ← readJson fs (directory / Manifest.fileName) with
      | .ok json => return (json.member? "workspaces").isSome
      | .error _ => return false
  | .deno =>
      match ← denoConfig? fs directory denoFiles with
      | some (_, json) => return (json.member? "workspace").isSome
      | none => return false
  | .pnpm => fs.isFile (directory / pnpmMarker)

def findRoot (kind : ListingKind) (start : Path) : m (Option Path) :=
  Path.firstThat (isRoot fs kind) start.ancestors

end

end Workspace

end ModuleTrace
