import ModuleTrace.Workspace.Detection
import ModuleTrace.Workspace.Listing

/-!
# Locating a workspace

The manager of a directory says what the root of a workspace is and what the workspace holds.
-/

namespace ModuleTrace

structure Host (m : Type → Type) where
  files : FileSystem m
  run : CommandRunner m
  environment : Environment

namespace Host

variable {m : Type → Type} [Monad m] (host : Host m)

def detect (directory : Path) : m Detection :=
  Detection.detect host.files host.environment directory

/-- The workspace around a directory and the manager that it was found with; none if the
directory is in no workspace. -/
def locate (start : Path) : m (Except WorkspaceError (Option (Detection × Workspace))) := do
  let detection ← host.detect start
  let kind := detection.manager.listing
  match ← Workspace.findRoot host.files kind start with
  | none => return .ok none
  | some root =>
      match ← Workspace.resolve host.files host.run kind root with
      | .error error => return .error error
      | .ok workspace => return .ok (some (detection, workspace))

end Host

end ModuleTrace
