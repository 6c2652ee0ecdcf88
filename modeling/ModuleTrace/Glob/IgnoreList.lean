import ModuleTrace.Affix
import ModuleTrace.Glob.Matching

/-!
# Lists of ignored files

A list holds a pattern a line. Of the patterns that match a path the last one decides, and one
that begins with an exclamation mark keeps the path. A pattern without a slash matches in all
directories; one with a slash starts where the list lies.
-/

namespace ModuleTrace

inductive Verdict where
  | ignored
  | kept
  deriving DecidableEq, Repr, Inhabited

structure IgnoreRule where
  pattern : Glob.Pattern
  verdict : Verdict
  /-- The rule is for directories alone. -/
  isForDirectories : Bool
  deriving Repr, Inhabited

structure IgnoreFault where
  /-- Number of the line, from one. -/
  line : Nat
  text : String
  fault : Glob.Fault
  deriving DecidableEq, Repr

def IgnoreFault.message (f : IgnoreFault) : String :=
  "line " ++ toString f.line ++ ": " ++ Glob.parseMessage f.text f.fault

structure IgnoreList where
  /-- Rules, the last one of the text first. -/
  rules : List IgnoreRule := []
  faults : List IgnoreFault := []
  deriving Inhabited

namespace IgnoreRule

/-- The text without blanks at its end, unless the last one is escaped. -/
private def trimBlanks (line : String) : String :=
  if Affix.ends "\\ " line then line else Affix.trimEnd line

/-- What comes before a pattern: an escape, an exclamation mark, a slash. -/
private structure Opening where
  verdict : Verdict
  isAnchored : Bool
  rest : List Char

private def opening : List Char → Opening
  | '\\' :: '!' :: rest => ⟨.ignored, false, '!' :: rest⟩
  | '\\' :: '#' :: rest => ⟨.ignored, false, '#' :: rest⟩
  | '!' :: '/' :: rest => ⟨.kept, true, rest⟩
  | '!' :: rest => ⟨.kept, false, rest⟩
  | '/' :: rest => ⟨.ignored, true, rest⟩
  | rest => ⟨.ignored, false, rest⟩

private def dropFinalSlash (cs : List Char) : Option (List Char) :=
  match cs.reverse with
  | '/' :: '\\' :: rest => some rest.reverse
  | '/' :: rest => some rest.reverse
  | _ => none

private def complete (isAnchored : Bool) (cs : List Char) : List Char :=
  let text := String.ofList cs
  let placed :=
    if isAnchored || cs.contains '/' || text = "**" then cs else '*' :: '*' :: '/' :: cs
  if Affix.ends "/**" (String.ofList placed) then placed ++ ['/', '*'] else placed

def parse? (line : String) : Except (String × Glob.Fault) (Option IgnoreRule) :=
  let text := trimBlanks line
  if Affix.begins "#" line || text.isEmpty then .ok none
  else
    let opening := opening text.toList
    let isForDirectories := (dropFinalSlash opening.rest).isSome
    let body := (dropFinalSlash opening.rest).getD opening.rest
    match Glob.Pattern.parseLenient (String.ofList (complete opening.isAnchored body)) with
    | .ok pattern => .ok (some ⟨pattern, opening.verdict, isForDirectories⟩)
    | .error fault => .error (text, fault)

end IgnoreRule

namespace IgnoreList

private def withoutReturn (line : String) : String :=
  if Affix.ends "\r" line then String.ofList line.toList.dropLast else line

/-- The lines of a text; a mark of byte order at its start is no part of the first. -/
private def lines (text : String) : List String :=
  (Affix.split '\n' (Affix.trimLeft (· = '\ufeff') text)).map withoutReturn

private def addLine (l : IgnoreList) (line : String × Nat) : IgnoreList :=
  match IgnoreRule.parse? line.1 with
  | .ok none => l
  | .ok (some rule) => { l with rules := rule :: l.rules }
  | .error (text, fault) => { l with faults := l.faults ++ [⟨line.2, text, fault⟩] }

def ofText (text : String) : IgnoreList :=
  ((lines text).zipIdx 1).foldl addLine {}

def verdict? (l : IgnoreList) (path : String) (isDirectory : Bool) : Option Verdict :=
  (l.rules.find? fun rule =>
    (!rule.isForDirectories || isDirectory) && rule.pattern.accepts path).map IgnoreRule.verdict

end IgnoreList

end ModuleTrace
