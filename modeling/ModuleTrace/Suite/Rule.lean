import ModuleTrace.Affix
import ModuleTrace.Path

/-!
# Rules for tests

A rule says where the tests of a suite lie, how their files are named, and where the snapshots
of a test are kept. The place of snapshots is a template with names in braces.
-/

namespace ModuleTrace

structure MatchRule where
  name : Option String := none
  /-- Where tests are looked for, from the directory of the collection. -/
  testDirectory : Option Path := none
  /-- Patterns of tests; if there are none, the usual ones count. -/
  included : List String := []
  excluded : List String := []
  snapshotTemplate : Option String := none
  deriving DecidableEq, Repr, Inhabited

namespace MatchRule

/-- How tests are usually named. -/
def usualPatterns : List String :=
  ["**/*.spec.*", "**/*.test.*"]

def patterns (rule : MatchRule) : List String :=
  if rule.included.isEmpty then usualPatterns else rule.included

/-- The directory in which the tests of the rule lie. -/
def directoryIn (rule : MatchRule) (root : Path) : Path :=
  match rule.testDirectory with
  | some directory => root.join directory
  | none => root

def platform : String := "linux"

def usualTemplate : String :=
  "\x7btestDir\x7d/\x7btestFileDir\x7d/\x7btestFileName\x7d-snapshots/"

def placeholder (name : String) : String :=
  "\x7b" ++ name ++ "\x7d"

/-- What the names in braces stand for, in the order in which they are replaced. -/
def placeholders (rule : MatchRule) (directory file : Path) : List (String × String) :=
  let relative := (file.relativeTo? directory).getD file
  [("testDir", directory.text), ("snapshotDir", directory.text),
   ("testFileDir", (relative.parent?.map Path.text).getD ""),
   ("testFileName", relative.name?.getD ""), ("testFilePath", relative.text),
   ("projectName", rule.name.getD ""), ("platform", platform)]

/-- The directory part of what stands before the first brace. -/
def directoryPart (text : String) : Path :=
  let kept := text.toList.takeWhile (· ≠ '\x7b')
  ⟨String.ofList ((kept.reverse.dropWhile (· ≠ '/')).drop 1).reverse⟩

/-- The directory that holds the snapshots of a test. The template counts up to the first name
that stands for nothing known. -/
def snapshotDirectory (rule : MatchRule) (directory file : Path) : Path :=
  let filled := (rule.placeholders directory file).foldl
    (fun text entry => Affix.replace (placeholder entry.1) entry.2 text)
    (rule.snapshotTemplate.getD usualTemplate)
  (directory.join (directoryPart filled)).normalize

end MatchRule

end ModuleTrace
