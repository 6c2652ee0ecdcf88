import ModuleTrace.Affix
import ModuleTrace.Glob.Pattern
import ModuleTrace.Resolution.Loader

/-!
# Failures of workspaces
-/

namespace ModuleTrace

inductive CommandFailure where
  | notRun
  | exited (status : Nat) (complaint : String)
  | notText
  | other (message : String)
  deriving DecidableEq, Repr, Inhabited

/-- Runs a program with arguments in a directory, and gives what it prints. -/
abbrev CommandRunner (m : Type → Type) :=
  String → List String → Path → m (Except CommandFailure String)

inductive WorkspaceError where
  | unreadable (path : Path) (cause : ReadError)
  | malformed (path : Path)
  | invalidPattern (text : String) (fault : Glob.Fault)
  | noConfig (directory : Path)
  | noWorkspace (path : Path)
  | command (program : String) (arguments : List String) (failure : CommandFailure)
  | invalidListing (program : String)
  deriving DecidableEq, Repr, Inhabited

namespace WorkspaceError

private def commandMessage (program : String) (arguments : List String) :
    CommandFailure → String
  | .notRun => "failed to run " ++ program
  | .exited status complaint =>
      Affix.joinWith " " (program :: arguments) ++ " exited with exit status: "
        ++ toString status ++ ": " ++ Affix.trimEnd (Affix.trimLeft Affix.isSpace complaint)
  | .notText => program ++ " printed invalid UTF-8"
  | .other message => message

def message : WorkspaceError → String
  | .unreadable path _ => "failed to read " ++ path.text
  | .malformed path => "invalid JSON in " ++ path.text
  | .invalidPattern text _ => "invalid workspace glob: " ++ text
  | .noConfig directory => "no deno.json in " ++ directory.text
  | .noWorkspace path => path.text ++ " declares no workspace"
  | .command program arguments failure => commandMessage program arguments failure
  | .invalidListing program => "unexpected \x60" ++ program ++ " list\x60 output"

def chain : WorkspaceError → List String
  | .unreadable path cause => [(WorkspaceError.unreadable path cause).message, cause.message]
  | .invalidPattern text fault =>
      [(WorkspaceError.invalidPattern text fault).message, Glob.parseMessage text fault]
  | error => [error.message]

end WorkspaceError

end ModuleTrace
