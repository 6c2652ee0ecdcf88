import ModuleTrace.Extraction.Inclusion
import ModuleTrace.SourceFile
import ModuleTrace.Syntax.Language

/-!
# Extraction

What a file includes is found by parsing it in the language of its extension. Data files
include nothing and are not parsed.
-/

namespace ModuleTrace

inductive Extraction where
  /-- Specifiers in the order of the text, repeats included. -/
  | specifiers (found : List String)
  /-- The file does not fit its grammar, and nothing was taken from it. -/
  | syntaxError (message : String)
  deriving DecidableEq, Repr, Inhabited

inductive ExtractionError where
  | unsupportedKind (path : Path)
  | typedUnavailable (path : Path)
  deriving DecidableEq, Repr

namespace ExtractionError

def message : ExtractionError → String
  | .unsupportedKind path => "unsupported file kind: " ++ path.text
  | .typedUnavailable path =>
      "cannot parse " ++ path.text ++ ": TypeScript support is not available"

def about : ExtractionError → Path → ExtractionError
  | .unsupportedKind _, path => .unsupportedKind path
  | .typedUnavailable _, path => .typedUnavailable path

end ExtractionError

/-- Finds what files include. Files of no kind are refused, and paths of equal parts count as
one. -/
structure Extractor where
  find : SourceFile → Except ExtractionError Extraction
  find_of_kind?_eq_none : ∀ file : SourceFile, file.kind? = none →
    find file = .error (.unsupportedKind file.path)
  find_congr : ∀ (p q : Path) (contents : String), p.parts = q.parts →
    find ⟨q, contents⟩ = (find ⟨p, contents⟩).mapError (·.about q)

instance : CoeFun Extractor fun _ => SourceFile → Except ExtractionError Extraction :=
  ⟨Extractor.find⟩

namespace Dialect

def ofPath (path : Path) : Dialect :=
  match path.extension? with
  | some "tsx" => .typedMarkup
  | some "ts" | some "mts" | some "cts" => .typed
  | _ => .plain

end Dialect

namespace Extraction

def ofTree (source : Grammar.Text) (tree : SyntaxTree) : Extraction :=
  if tree.head.hasProblem then .syntaxError tree.describeProblem
  else .specifiers (Inclusion.specifiersOf source tree.children)

def ofScript (dialect : Dialect) (contents : String) : Extraction :=
  let source := Grammar.Text.ofString contents
  match SyntaxTree.parse dialect source with
  | some tree => ofTree source tree
  | none => .syntaxError "parser produced no tree"

end Extraction

inductive SyntaxSupport where
  | all
  /-- Typed scripts are known but cannot be parsed. -/
  | withoutTyped
  | none
  deriving DecidableEq, Repr, Inhabited

namespace SyntaxSupport

def find (support : SyntaxSupport) (file : SourceFile) : Except ExtractionError Extraction :=
  let script := Extraction.ofScript (Dialect.ofPath file.path) file.contents
  match file.kind?, support with
  | .none, _ | _, .none => .error (.unsupportedKind file.path)
  | some .data, _ => .ok (.specifiers [])
  | some .plain, _ => .ok script
  | some .typed, .all => .ok script
  | some .typed, .withoutTyped => .error (.typedUnavailable file.path)

/-- What a script gives is read off its tree. -/
theorem find_of_parse {support : SyntaxSupport} {file : SourceFile} {tree : SyntaxTree}
    (hkind : support ≠ .none ∧ file.kind? = some .plain ∨
      support = .all ∧ file.kind? = some .typed)
    (hparse : SyntaxTree.parse (Dialect.ofPath file.path) (Grammar.Text.ofString file.contents)
      = some tree) :
    support.find file = .ok (Extraction.ofTree (Grammar.Text.ofString file.contents) tree) := by
  have hscript : Extraction.ofScript (Dialect.ofPath file.path) file.contents
      = Extraction.ofTree (Grammar.Text.ofString file.contents) tree := by
    simp only [Extraction.ofScript, hparse]
  unfold find
  rw [hscript]
  rcases hkind with ⟨hsupport, hplain⟩ | ⟨rfl, htyped⟩
  · rw [hplain]
    cases support with
    | none => exact absurd rfl hsupport
    | all => rfl
    | withoutTyped => rfl
  · rw [htyped]

def extract (support : SyntaxSupport) : Extractor where
  find := support.find
  find_of_kind?_eq_none file h := by
    unfold find
    rw [h]
  find_congr p q contents h := by
    have hextension : q.extension? = p.extension? := by simp [Path.extension?, Path.name?, h]
    have hdialect : Dialect.ofPath q = Dialect.ofPath p := by simp [Dialect.ofPath, hextension]
    have hkind : SourceFile.kind? ⟨q, contents⟩ = SourceFile.kind? ⟨p, contents⟩ := by
      simp [SourceFile.kind?, FileKind.ofPath?, hextension]
    unfold find
    rw [hkind, hdialect]
    generalize Extraction.ofScript (Dialect.ofPath p) contents = script
    cases SourceFile.kind? ⟨p, contents⟩ with
    | none => rfl
    | some kind => cases kind <;> cases support <;> rfl

end SyntaxSupport

end ModuleTrace
