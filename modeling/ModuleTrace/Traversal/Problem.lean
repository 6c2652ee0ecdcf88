import ModuleTrace.Affix
import ModuleTrace.Extraction.Extractor
import ModuleTrace.Resolution.Loader

/-!
# Problems of a traversal

Problems in the files that an entrypoint reaches are collected and told together; a few causes
end a traversal at once.
-/

namespace ModuleTrace

structure UnsupportedModules where
  file : Path
  names : List String
  deriving DecidableEq, Repr, Inhabited

structure FileFailure where
  file : Path
  message : String
  deriving DecidableEq, Repr, Inhabited

structure Problems where
  entrypoint : Path
  missing : List Path := []
  unsupported : List UnsupportedModules := []
  failures : List FileFailure := []
  deriving DecidableEq, Repr, Inhabited

namespace Problems

def isEmpty (p : Problems) : Bool :=
  p.missing.isEmpty && p.unsupported.isEmpty && p.failures.isEmpty

def count (p : Problems) : Nat :=
  p.missing.length + p.unsupported.length + p.failures.length

def message (p : Problems) : String :=
  let head := toString p.count ++ " dependency problem(s) in " ++ p.entrypoint.text
  let missing := p.missing.map fun path => "\n  missing file: " ++ path.text
  let unsupported := p.unsupported.map fun entry =>
    "\n  unsupported dependencies in " ++ entry.file.text ++ ": "
      ++ Affix.joinWith ", " entry.names
  let failures := p.failures.map fun failure =>
    "\n  parse error in " ++ failure.file.text ++ ": " ++ failure.message
  String.join (head :: missing ++ unsupported ++ failures)

end Problems

inductive ResolveError where
  | entrypointUnreadable (path : Path) (cause : ReadError)
  | unsupportedKind (path : Path)
  | typedUnavailable (path : Path)
  | limitExceeded (entrypoint : Path) (limit : Nat)
  | problems (found : Problems)
  deriving DecidableEq, Repr

namespace ResolveError

def ofExtraction : ExtractionError → ResolveError
  | .unsupportedKind path => .unsupportedKind path
  | .typedUnavailable path => .typedUnavailable path

def message : ResolveError → String
  | .entrypointUnreadable path cause =>
      "cannot read entrypoint " ++ path.text ++ ": " ++ cause.message
  | .unsupportedKind path => (ExtractionError.unsupportedKind path).message
  | .typedUnavailable path => (ExtractionError.typedUnavailable path).message
  | .limitExceeded entrypoint limit =>
      "traversal from " ++ entrypoint.text ++ " exceeded the limit of " ++ toString limit
        ++ " files"
  | .problems found => found.message

/-- Causes of an error, the outermost first. -/
def chain : ResolveError → List String
  | .entrypointUnreadable path cause =>
      [(ResolveError.entrypointUnreadable path cause).message, cause.message]
  | error => [error.message]

end ResolveError

end ModuleTrace
