import ModuleTrace.FileSystem.Walk
import ModuleTrace.Glob.IgnoreList

/-!
# Ignoring files

Each directory may have lists of files to ignore, and its lists count for all that lies below.
The nearest list that says something of a path decides. Lists of a repository count only inside
one, up to its root; lists of the plain kind count everywhere and come first.
-/

namespace ModuleTrace

structure IgnoreLayer where
  directory : Path
  isRepository : Bool
  plain : IgnoreList
  tracked : IgnoreList
  /-- The list that the repository keeps for itself. -/
  kept : IgnoreList
  deriving Inhabited

namespace IgnoreLayer

section

variable {m : Type → Type} [Monad m] (fs : FileSystem m)

private def readList (path : Path) : m IgnoreList := do
  match ← fs.read path with
  | .ok text => return .ofText text
  | .error _ => return {}

def read (directory : Path) : m IgnoreLayer := do
  let isRepository ← fs.isPresent (directory / ".git")
  let plain ← readList fs (directory / ".ignore")
  let tracked ← readList fs (directory / ".gitignore")
  let kept ← readList fs (directory / ".git/info/exclude")
  return ⟨directory, isRepository, plain, tracked, kept⟩

end

/-- Lines that hold no pattern, each with the file it stands in. -/
def faults (l : IgnoreLayer) : List (Path × IgnoreFault) :=
  l.plain.faults.map ((l.directory / ".ignore", ·))
    ++ l.tracked.faults.map ((l.directory / ".gitignore", ·))
    ++ l.kept.faults.map ((l.directory / ".git/info/exclude", ·))

def verdictOf? (list : IgnoreLayer → IgnoreList) (layers : List IgnoreLayer) (path : Path)
    (isDirectory : Bool) : Option Verdict :=
  layers.findSome? fun layer =>
    (path.relativeTo? layer.directory).bind fun relative =>
      (list layer).verdict? relative.text isDirectory

/-- The layers of the repository around the nearest one; none outside of repositories. -/
def ofRepository : List IgnoreLayer → List IgnoreLayer
  | [] => []
  | layer :: rest =>
      if layer.isRepository then [layer]
      else if rest.any isRepository then layer :: ofRepository rest else []

def verdict? (layers : List IgnoreLayer) (path : Path) (isDirectory : Bool) : Option Verdict :=
  let inner := ofRepository layers
  verdictOf? plain layers path isDirectory <|> verdictOf? tracked inner path isDirectory
    <|> verdictOf? kept inner path isDirectory

def ignores (layers : List IgnoreLayer) (name : String) (kind : EntryKind) : Bool :=
  match layers.head? with
  | none => false
  | some here => verdict? layers (here.directory / name) (kind = .directory) = some .ignored

end IgnoreLayer

/-- Follows what no list ignores, and passes by some names. -/
def Guide.respectful {m : Type → Type} [Monad m] (fs : FileSystem m) (names : List String) :
    Guide m (List IgnoreLayer) where
  enter layers directory := do
    return (← IgnoreLayer.read fs directory.normalize) :: layers
  follows layers name kind := !names.contains name && !IgnoreLayer.ignores layers name kind

end ModuleTrace
