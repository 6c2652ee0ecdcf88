import ModuleTrace.Cli.Arguments
import ModuleTrace.Json.Printer
import ModuleTrace.Suite.Collection
import ModuleTrace.Traversal.Session
import ModuleTrace.Workspace.Location

/-!
# Reports

What the program prints: lines of text, or JSON on several lines or on one.
-/

namespace ModuleTrace.Cli

inductive ResolveReport where
  | resolved (files : Resolved)
  | problems (entrypoint : Path) (found : Problems)
  | failed (entrypoint : Path) (error : ResolveError)
  deriving DecidableEq, Repr

namespace Report

private def path (p : Path) : Json := .string p.text

private def paths (ps : List Path) : Json := .array (ps.map path)

private def failures (fs : List FileFailure) : Json :=
  .array (fs.map fun f => .object [("file", path f.file), ("message", .string f.message)])

private def unsupported (us : List UnsupportedModules) : Json :=
  .array (us.map fun u =>
    .object [("file", path u.file), ("names", .array (u.names.map Json.string))])

private def problems (p : Problems) : Json :=
  .object [("entrypoint", path p.entrypoint), ("missing_files", paths p.missing),
    ("unsupported_external_dependencies", unsupported p.unsupported),
    ("parse_errors", failures p.failures)]

def printJson (format : OutputFormat) (json : Json) : String :=
  if format = .compact then json.compact else json.pretty

private def lines (texts : List String) : String :=
  Affix.trimEnd (String.join (texts.map (· ++ "\n")))

private def indented (paths : List Path) : List String :=
  paths.map fun path => "  " ++ path.text

end Report

namespace ResolveReport

def of (entrypoint : Path) : Except ResolveError Resolved → ResolveReport
  | .ok files => .resolved files
  | .error (.problems found) => .problems entrypoint found
  | .error error => .failed entrypoint error

def isResolved : ResolveReport → Bool
  | .resolved _ => true
  | _ => false

private def json : ResolveReport → Json
  | .resolved r =>
      .object [("entrypoint", Report.path r.entrypoint.path), ("status", .string "ok"),
        ("files", Report.paths (r.files.map SourceFile.path))]
  | .problems entrypoint found =>
      .object [("entrypoint", Report.path entrypoint), ("status", .string "problems"),
        ("files", .array []), ("problems", Report.problems found)]
  | .failed entrypoint error =>
      .object [("entrypoint", Report.path entrypoint), ("status", .string "error"),
        ("files", .array []), ("error", .string error.message)]

private def lines : ResolveReport → List String
  | .resolved r =>
      (r.entrypoint.path.text ++ ": " ++ toString r.files.length ++ " file(s)")
        :: Report.indented (r.files.map SourceFile.path)
  | .problems _ found => [found.message]
  | .failed entrypoint error => [entrypoint.text ++ ": error: " ++ error.message]

def print (format : OutputFormat) (reports : List ResolveReport) : String :=
  match format with
  | .text => Report.lines (reports.flatMap lines)
  | format => Report.printJson format (.array (reports.map json))

end ResolveReport

namespace Report

private def errorLines (errors : List FileFailure) : List String :=
  if errors.isEmpty then []
  else
    ["", toString errors.length ++ " error(s):"]
      ++ errors.map fun error => "  " ++ error.file.text ++ ": " ++ error.message

def printCollection (format : OutputFormat) (c : SuiteCollection) : String :=
  match format with
  | .text =>
      lines (("Collected " ++ toString c.files.length ++ " file(s)") :: indented c.files
        ++ errorLines c.errors)
  | format =>
      printJson format (.object [("files", paths c.files), ("errors", failures c.errors)])

private def package (p : Package) : Json :=
  .object ([("name", .string p.name), ("path", path p.path)]
    ++ (p.patterns.map fun patterns =>
      ("workspace_globs", .array (patterns.map Json.string))).toList)

private def workspace (w : Workspace) : Json :=
  .object [("members", .array (w.members.map package)), ("root", package w.root)]

private def padded (width : Nat) (text : String) : String :=
  text ++ String.ofList (List.replicate (width - text.length) ' ')

private def workspaceLines (w : Workspace) : List String :=
  ("Workspace root: " ++ w.root.path.text ++ " (" ++ w.root.name ++ ")")
    :: ("Members: " ++ toString w.members.length)
    :: w.members.map fun member => "  " ++ padded 30 member.name ++ " " ++ member.path.text

def printWorkspace (format : OutputFormat) (detection : Detection) (found : Option Workspace) :
    String :=
  match format with
  | .text =>
      lines (("Package manager: " ++ detection.manager.command ++ " (detected by "
          ++ detection.source.label ++ ")")
        :: (found.map workspaceLines).getD ["No workspace found"])
  | format =>
      printJson format (.object [("detected_by", .string (Affix.lower detection.source.label)),
        ("package_manager", .string detection.manager.command),
        ("workspace", (found.map workspace).getD .null)])

end Report

end ModuleTrace.Cli
