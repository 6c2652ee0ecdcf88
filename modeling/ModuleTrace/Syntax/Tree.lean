import ModuleTrace.Grammar.Text

/-!
# Syntax trees

A syntax tree has the visible nodes of a parse: their kind, the field they stand in, their
place, and whether they or something below them does not fit the grammar.
-/

namespace ModuleTrace

open Grammar (Place)

inductive Fit where
  | sound
  /-- A part of the text that fits no rule. -/
  | unexpected
  /-- A token that is not in the text but would make it fit. -/
  | missing
  deriving DecidableEq, Repr, Inhabited

structure SyntaxNode where
  kind : String
  isNamed : Bool
  field : Option String
  fit : Fit
  /-- Whether the node or one below it does not fit. -/
  hasProblem : Bool
  place : Place
  /-- Positions of the node's text. -/
  start : Nat
  stop : Nat
  deriving DecidableEq, Repr, Inhabited

inductive SyntaxTree where
  | node (head : SyntaxNode) (children : List SyntaxTree)
  deriving Repr, Inhabited

namespace SyntaxTree

def head : SyntaxTree → SyntaxNode
  | node head _ => head

def children : SyntaxTree → List SyntaxTree
  | node _ children => children

@[inline] def kind (t : SyntaxTree) : String := t.head.kind
@[inline] def isNamed (t : SyntaxTree) : Bool := t.head.isNamed

def child? (t : SyntaxTree) (field : String) : Option SyntaxTree :=
  t.children.find? fun child => child.head.field = some field

def namedChildren (t : SyntaxTree) : List SyntaxTree :=
  t.children.filter isNamed

mutual

def size : SyntaxTree → Nat
  | node _ children => sizeAll children + 1

def sizeAll : List SyntaxTree → Nat
  | [] => 0
  | t :: ts => t.size + sizeAll ts

end

theorem sizeAll_append (as bs : List SyntaxTree) :
    sizeAll (as ++ bs) = sizeAll as + sizeAll bs := by
  induction as with
  | nil => simp [sizeAll]
  | cons t ts ih => simp [sizeAll, ih, Nat.add_assoc]

end SyntaxTree

/-- What does not fit, and where. -/
structure SyntaxProblem where
  /-- The kind of a missing token; none for text that was not expected. -/
  missing : Option String
  place : Place
  deriving DecidableEq, Repr, Inhabited

namespace SyntaxProblem

/-- Lines and columns are counted from one for the reader. -/
def message (p : SyntaxProblem) : String :=
  let what :=
    match p.missing with
    | some kind => "missing `" ++ kind ++ "`"
    | none => "unexpected token"
  "syntax error: " ++ what ++ " at line " ++ toString (p.place.line + 1) ++ ", column "
    ++ toString (p.place.column + 1)

end SyntaxProblem

namespace SyntaxNode

def problem? (n : SyntaxNode) : Option SyntaxProblem :=
  match n.fit with
  | .sound => none
  | .unexpected => some ⟨none, n.place⟩
  | .missing => some ⟨some n.kind, n.place⟩

end SyntaxNode

namespace SyntaxTree

/-- The first problem met by a search that keeps the trees yet to visit and leaves out those
without one. -/
def search : List SyntaxTree → Option SyntaxProblem
  | [] => none
  | node head children :: rest =>
      match head.problem? with
      | some problem => some problem
      | none => if head.hasProblem then search (children ++ rest) else search rest
termination_by trees => sizeAll trees
decreasing_by
  · simp [sizeAll, size, sizeAll_append]
  · simp [sizeAll, size]

def firstProblem? (t : SyntaxTree) : Option SyntaxProblem :=
  search [t]

def describeProblem (t : SyntaxTree) : String :=
  match t.firstProblem? with
  | some problem => problem.message
  | none => "syntax error"

end SyntaxTree

end ModuleTrace
