import ModuleTrace.Cli.Command

/-!
# The program

Reads the command line and the environment, runs a command on the disk, and prints its report.
Files are read, but directories are not listed and programs are not run: what needs that reports
so.
-/

namespace ModuleTrace.Program

open Cli

/-- What an error of the system says of a file. -/
def readErrorOf : IO.Error → ReadError
  | .noFileOrDirectory .. => .notFound
  | .permissionDenied .. => .denied
  | .inappropriateType _ code details =>
      if code = 21 then .isDirectory else if code = 20 then .notDirectory else .other details
  | .userError _ => .notText
  | error => .other (toString error)

def readFromDisk (path : Path) : IO (Except ReadError String) := do
  try
    return .ok (← IO.FS.readFile path.text)
  catch error => return .error (readErrorOf error)

/-- What is at a path is told by opening it and reading a byte; a file that must not be read is
one all the same. -/
def kindOnDisk (path : Path) : IO (Except ReadError EntryKind) := do
  try
    let handle ← IO.FS.Handle.mk path.text .read
    let _ ← handle.read 1
    return .ok .file
  catch error =>
    match readErrorOf error with
    | .isDirectory => return .ok .directory
    | .denied => return .ok .file
    | cause => return .error cause

def disk : FileSystem IO where
  read := readFromDisk
  kind := kindOnDisk
  entries _ := return .error (.other "directories cannot be listed")
  isExecutable path := do
    return (← kindOnDisk path) matches .ok .file
  extent := 1000000

def environmentOfProcess : IO Environment := do
  let searchPath ← IO.getEnv "PATH"
  return {
    userAgent := ← IO.getEnv "npm_config_user_agent"
    execPath := (← IO.getEnv "npm_execpath").map Path.mk
    searchPath := searchPath.map fun paths => (Affix.split ':' paths).map Path.mk }

def usageText : String :=
  "Usage: module-trace [OPTIONS] <COMMAND>\n\n"
    ++ "Commands:\n"
    ++ "  resolve <FILE>...    Resolve the local files each entrypoint depends on\n"
    ++ "  collect [DIR]        Collect test files matched by the configured match rules\n"
    ++ "  workspace [DIR]      Show the detected package manager and workspace members\n\n"
    ++ "Options:\n"
    ++ "  --format <text|json|compact>    Output format\n"
    ++ "  --config <FILE>                 Path to the config file\n"
    ++ "  --supported-module <NAME>       Additional external module (repeatable)\n"
    ++ "  --no-check-external             Do not report unsupported external dependencies\n"
    ++ "  --restricted                    Reject local files outside the workspace root\n"
    ++ "  --no-workspace                  Skip package manager and workspace detection\n"

/-- Help and the version are no failures. -/
def printUsage (error : UsageError) : IO UInt32 := do
  match error with
  | .displayHelp | .displayVersion =>
      IO.println usageText
      return 0
  | error =>
      IO.eprintln ("error: " ++ error.label ++ "\n\n" ++ usageText)
      return 2

def run (arguments : List String) : IO UInt32 := do
  match Cli.parse arguments with
  | .error error => printUsage error
  | .ok invocation =>
      let project : Path := ⟨toString (← IO.FS.realPath ".")⟩
      let host : Host IO :=
        ⟨disk, fun _ _ _ => return .error .notRun, ← environmentOfProcess⟩
      match ← Cli.run host project invocation with
      | .error error =>
          IO.eprintln ("Error: " ++ error.message)
          return 1
      | .ok outcome =>
          IO.println outcome.text
          return if outcome.hasProblems then 1 else 0

end ModuleTrace.Program

def main (arguments : List String) : IO UInt32 :=
  ModuleTrace.Program.run arguments
