import ModuleTrace.Grammar.Parser
import ModuleTrace.Script.Lexer
import ModuleTrace.Script.Typed
import ModuleTrace.Syntax.Tree

/-!
# Languages of source files

A source file is a plain script, a typed script, or a typed script with markup. The table of a
language is made when its first file is parsed.
-/

namespace ModuleTrace

open Grammar (Text Tree Step Language Label)

/-- The dialects that a script may be written in. -/
inductive Dialect where
  | plain
  | typed
  | typedMarkup
  deriving DecidableEq, Repr, Inhabited

namespace Dialect

def grammar : Dialect → Grammar
  | .plain => Script.Plain.grammar
  | .typed => Script.Typed.grammar false
  | .typedMarkup => Script.Typed.grammar true

private def buildLanguage (d : Dialect) : Language :=
  let system := d.grammar.productionSystem
  let items := Grammar.ItemTable.build system
  let v := system.vocabulary
  let lexer := Script.Lexer.ofVocabulary v (d ≠ .plain)
  { table := Grammar.ParseTable.build (Grammar.Automaton.build items)
      (Script.Lexer.clashes system items.first)
    reader :=
      { read := lexer.read
        readLayout := lexer.readLayout
        keyword? := lexer.keyword?
        word := lexer.word
        recoverable := lexer.recoverable
        layout := Grammar.TokenSet.ofList lexer.layout.toList } }

private def plainLanguage : Thunk Language :=
  Thunk.mk fun _ => buildLanguage .plain

private def typedLanguage : Thunk Language :=
  Thunk.mk fun _ => buildLanguage .typed

private def typedMarkupLanguage : Thunk Language :=
  Thunk.mk fun _ => buildLanguage .typedMarkup

def language : Dialect → Language
  | .plain => plainLanguage.get
  | .typed => typedLanguage.get
  | .typedMarkup => typedMarkupLanguage.get

end Dialect

namespace SyntaxTree

/-- The steps that the children of a tree stand for; extras stand for none. -/
private def assign : List Step → List Tree → List (Tree × Option Step)
  | _, [] => []
  | steps, child :: rest =>
      if child.isExtra then (child, none) :: assign steps rest
      else (child, steps.head?) :: assign steps.tail rest

private def setField (field : Option String) : List SyntaxTree → List SyntaxTree
  | node head children :: rest =>
      match field with
      | some name => node { head with field := some name } children :: rest
      | none => node head children :: rest
  | [] => []

private def label (language : Language) (step : Option Step) (info : Grammar.TreeInfo) :
    Option (String × Bool) :=
  match info.label, step.bind Step.as with
  | .error, _ => some ("ERROR", true)
  | _, some as => some (as.name, as.isNamed)
  | .symbol number, none =>
      if info.isVisible then
        some (language.vocabulary.names.getD number "", language.vocabulary.named.getD number false)
      else none
  | .skipped, none => none

/-- The visible nodes of a parse. Hidden nodes leave their children to their parent; a hidden
node in a field gives the field to its first child. -/
private def visibleAux (language : Language) (t : Text) :
    Nat → Option Step → Tree → List SyntaxTree
  | 0, _, _ => []
  | depth + 1, step, .node info children =>
      let steps :=
        match info.item with
        | some item => (language.table.items.item item).production.steps
        | none => []
      let below := (assign steps children).flatMap fun (child, step) =>
        visibleAux language t depth step child
      let field := step.bind Step.field
      match label language step info with
      | none => setField field below
      | some (kind, isNamed) =>
          let fit :=
            if info.isMissing then .missing
            else if info.label = .error then .unexpected
            else .sound
          [node { kind, isNamed, field, fit, hasProblem := 0 < info.cost
                  place := t.place info.start, start := info.start, stop := info.stop } below]

mutual

private def depth : Tree → Nat
  | .node _ children => depthAll children + 1

private def depthAll : List Tree → Nat
  | [] => 0
  | t :: ts => max (depth t) (depthAll ts)

end

def parse (d : Dialect) (t : Text) : Option SyntaxTree :=
  let language := d.language
  (language.parse t).bind fun tree => (visibleAux language t (depth tree) none tree).head?

end SyntaxTree

end ModuleTrace
