import ModuleTrace.Path

/-!
# Source files
-/

namespace ModuleTrace

inductive FileKind where
  | plain
  | typed
  | data
  deriving DecidableEq, Repr, Inhabited

namespace FileKind

def extensions : FileKind → List String
  | .plain => ["js", "mjs", "cjs", "jsx"]
  | .typed => ["ts", "mts", "cts", "tsx"]
  | .data => ["json"]

def all : List FileKind := [.plain, .typed, .data]

def ofExtension? (extension : String) : Option FileKind :=
  all.find? fun kind => kind.extensions.contains extension

def ofPath? (path : Path) : Option FileKind :=
  path.extension?.bind ofExtension?

def label : FileKind → String
  | .plain => "javascript"
  | .typed => "typescript"
  | .data => "json"

end FileKind

structure SourceFile where
  path : Path
  contents : String
  deriving DecidableEq, Repr, Inhabited

namespace SourceFile

def directory (file : SourceFile) : Path :=
  file.path.parent?.getD ⟨"/"⟩

def basename (file : SourceFile) : String :=
  file.path.name?.getD ""

def kind? (file : SourceFile) : Option FileKind :=
  FileKind.ofPath? file.path

end SourceFile

end ModuleTrace
