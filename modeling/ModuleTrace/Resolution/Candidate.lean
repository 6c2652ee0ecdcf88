import ModuleTrace.Path

/-!
# Candidates

A path that a specifier means is looked for in several forms: a compiled extension may stand
for its sources, a path without an extension may lack one, and a directory may be meant for its
manifest or its index. Sources go before what is compiled from them.
-/

namespace ModuleTrace

inductive Candidate where
  | file (path : Path)
  /-- The manifest of a directory, which names the files to try. -/
  | manifest (path : Path)
  deriving DecidableEq, Repr

namespace Candidate

def path : Candidate → Path
  | .file path => path
  | .manifest path => path

/-- Compiled extensions and what may stand in their place, in order. -/
def substitutions : List (String × List String) :=
  [("js", ["ts", "tsx", "js"]), ("mjs", ["mts", "mjs"]), ("cjs", ["cts", "cjs"]),
   ("jsx", ["tsx", "jsx"])]

/-- Extensions that no other one stands for. -/
def sourceExtensions : List String := ["ts", "tsx", "mts", "cts", "json"]

def dataExtension : String := "json"

/-- Extensions to add to a path that lacks one: each once, data last. -/
def addedExtensions : List String :=
  (substitutions.flatMap Prod.snd).eraseDups ++ [dataExtension]

def added (path : Path) : List Candidate :=
  addedExtensions.map fun extension => .file (path.append extension)

/-- The forms of a path without an extension: as a file, then as a directory. -/
def withoutExtension (path : Path) : List Candidate :=
  added path ++ .manifest (path / "package.json") :: added (path / "index")

/-- All forms of a path, in the order in which they are tried. -/
def of (path : Path) : List Candidate :=
  match path.extension? with
  | none => withoutExtension path
  | some extension =>
      match substitutions.lookup extension with
      | some sources => sources.map fun source => .file (path.withExtension source)
      | none =>
          if sourceExtensions.contains extension then [.file path]
          else .file path :: withoutExtension path

end Candidate

end ModuleTrace
