import ModuleTrace.Affix
import ModuleTrace.Path

/-!
# Aliases

An alias replaces a specifier by paths. Its pattern is a text with at most one wildcard, which
captures any text between the parts around it. Longer text before the wildcard makes a pattern
more specific, and of two equal ones the one without a wildcard goes first.
-/

namespace ModuleTrace

structure Pattern where
  start : String
  /-- Text behind the wildcard; none without one. -/
  stop : Option String
  deriving DecidableEq, Repr, Inhabited

namespace Pattern

def wildcard : Char := '*'

def ofString (text : String) : Pattern :=
  let cs := text.toList
  match cs.dropWhile (· ≠ wildcard) with
  | [] => ⟨text, none⟩
  | _ :: rest => ⟨String.ofList (cs.takeWhile (· ≠ wildcard)), some (String.ofList rest)⟩

def isExact (p : Pattern) : Bool :=
  p.stop.isNone

/-- The text that the wildcard stands for; a pattern without one captures the empty text. -/
def capture? (p : Pattern) (specifier : String) : Option String :=
  match p.stop with
  | none => if specifier = p.start then some "" else none
  | some stop =>
      (Affix.after? p.start.toList specifier.toList).bind fun rest =>
        (Affix.after? stop.toList.reverse rest.reverse).map fun captured =>
          String.ofList captured.reverse

end Pattern

structure AliasTarget where
  raw : String
  /-- Text before the wildcard, put behind the base of the alias. -/
  start : Path
  stop : String
  hasWildcard : Bool
  deriving DecidableEq, Repr, Inhabited

namespace AliasTarget

def ofString (base : Path) (raw : String) : AliasTarget :=
  let pattern := Pattern.ofString raw
  ⟨raw, base / pattern.start, pattern.stop.getD "", pattern.stop.isSome⟩

def path (target : AliasTarget) (captured : String) : Path :=
  if target.hasWildcard then ⟨target.start.text ++ captured ++ target.stop⟩ else target.start

end AliasTarget

structure Alias where
  text : String
  pattern : Pattern
  targets : List AliasTarget
  deriving DecidableEq, Repr, Inhabited

structure AliasCandidate where
  pattern : String
  target : String
  path : Path
  deriving DecidableEq, Repr, Inhabited

namespace Alias

def of (base : Path) (text : String) (targets : List String) : Alias :=
  ⟨text, Pattern.ofString text, targets.map (AliasTarget.ofString base)⟩

def candidates (a : Alias) (specifier : String) : List AliasCandidate :=
  match a.pattern.capture? specifier with
  | none => []
  | some captured =>
      a.targets.map fun target => ⟨a.text, target.raw, target.path captured⟩

/-- Whether an alias may stand before another one. -/
def precedes (a b : Alias) : Bool :=
  let m := a.pattern.start.utf8ByteSize
  let n := b.pattern.start.utf8ByteSize
  n < m || (m = n && (a.pattern.isExact || !b.pattern.isExact))

/-- The most specific alias first; equally specific ones keep their order. -/
def order (aliases : List Alias) : List Alias :=
  aliases.mergeSort precedes

/-- All paths that ordered aliases give for a specifier. -/
def allCandidates (aliases : List Alias) (specifier : String) : List AliasCandidate :=
  aliases.flatMap fun a => a.candidates specifier

end Alias

end ModuleTrace
