/-!
# Grammar rules

A grammar is an ordered list of named rules. A rule is a regular expression over literal
words, token classes and other rules, decorated with what ambiguity resolution and tree
building need: precedence, associativity, field names and aliases.
-/

namespace ModuleTrace

namespace Grammar

/-- Rank of a production step. Named ranks are ordered by the precedence lists of a grammar. -/
inductive Precedence where
  | unranked
  | level (value : Int)
  | named (label : String)
  deriving DecidableEq, Hashable, Repr, Inhabited

inductive Associativity where
  | left
  | right
  deriving DecidableEq, Hashable, Repr, Inhabited

/-- The name that a child carries in its parent in place of its own. -/
structure Alias where
  name : String
  isNamed : Bool
  deriving DecidableEq, Hashable, Repr, Inhabited

inductive Rule where
  | empty
  /-- Another rule of the grammar, or a token that only the layout scanner produces. -/
  | ref (name : String)
  /-- A word or mark written exactly so. -/
  | word (text : String)
  /-- A class of tokens that the lexer knows by name. -/
  | lexeme (name : String)
  | seq (first second : Rule)
  | alt (first second : Rule)
  /-- One or more. -/
  | many1 (body : Rule)
  | field (name : String) (body : Rule)
  | naming (body : Rule) (as : Alias)
  | ranked (rank : Precedence) (side : Option Associativity) (body : Rule)
  /-- Weight that decides between trees of one text, not between actions of one state. -/
  | weighted (weight : Int) (body : Rule)
  deriving DecidableEq, Hashable, Repr, Inhabited

namespace Rule

instance : Coe String Rule := ⟨Rule.word⟩

def sequence : List Rule → Rule
  | [] => .empty
  | rule :: rules => rules.foldl .seq rule

def oneOf : List Rule → Rule
  | [] => .empty
  | [rule] => rule
  | rule :: rules => .alt rule (oneOf rules)

def opt (body : Rule) : Rule :=
  .alt body .empty

def many (body : Rule) : Rule :=
  .alt (.many1 body) .empty

def separated1 (mark body : Rule) : Rule :=
  .seq body (many (.seq mark body))

def commas1 (body : Rule) : Rule :=
  separated1 "," body

def commas (body : Rule) : Rule :=
  opt (commas1 body)

def renamed (name : String) (body : Rule) : Rule :=
  .naming body ⟨name, true⟩

def left (body : Rule) : Rule :=
  .ranked (.level 0) (some .left) body

def right (body : Rule) : Rule :=
  .ranked (.level 0) (some .right) body

def rank (label : String) (body : Rule) : Rule :=
  .ranked (.named label) none body

def leftRank (label : String) (body : Rule) : Rule :=
  .ranked (.named label) (some .left) body

def rightRank (label : String) (body : Rule) : Rule :=
  .ranked (.named label) (some .right) body

def refs : Rule → List String
  | .ref name => [name]
  | .seq first second => first.refs ++ second.refs
  | .alt first second => first.refs ++ second.refs
  | .many1 body => body.refs
  | .field _ body => body.refs
  | .naming body _ => body.refs
  | .ranked _ _ body => body.refs
  | .weighted _ body => body.refs
  | _ => []

/-- Words and token classes of a rule, in the order they are written, with repeats. -/
def tokens : Rule → List Rule
  | .word text => [.word text]
  | .lexeme name => [.lexeme name]
  | .seq first second => first.tokens ++ second.tokens
  | .alt first second => first.tokens ++ second.tokens
  | .many1 body => body.tokens
  | .field _ body => body.tokens
  | .naming body _ => body.tokens
  | .ranked _ _ body => body.tokens
  | .weighted _ body => body.tokens
  | _ => []

end Rule

/-- One entry of a precedence list: a named rank, or every production of a rule. -/
inductive RankEntry where
  | label (name : String)
  | rule (name : String)
  deriving DecidableEq, Hashable, Repr, Inhabited

end Grammar

structure Grammar where
  start : String
  rules : List (String × Grammar.Rule)
  /-- Tokens of the layout scanner, in the order in which it numbers them. -/
  layout : List Grammar.Rule
  /-- Tokens that may stand anywhere. -/
  extras : List String
  /-- Rules that stand for a family and leave no node of their own. -/
  families : List String
  /-- Rules that are written out where they are mentioned. -/
  inlined : List String
  /-- Highest rank first. -/
  ranks : List (List Grammar.RankEntry)
  /-- The token class that contains all words made of letters. -/
  wordClass : String
  deriving Inhabited

namespace Grammar

/-- Replaces rules in place and appends the new ones. -/
def override (base changes : List (String × Rule)) : List (String × Rule) :=
  let replaced := base.map fun (name, rule) => (name, (changes.lookup name).getD rule)
  replaced ++ changes.filter fun change => (base.lookup change.1).isNone

private def reachAux (rules : List (String × Rule)) : Nat → List String → List String → List String
  | 0, _, seen => seen
  | _, [], seen => seen
  | fuel + 1, name :: rest, seen =>
      if seen.contains name then reachAux rules fuel rest seen
      else match rules.lookup name with
        | none => reachAux rules fuel rest seen
        | some rule => reachAux rules fuel (rule.refs.eraseDups ++ rest) (name :: seen)

/-- The rules that a text can use, in their order: those reachable from the start rule or
from a token that may stand anywhere. -/
def reachable (g : Grammar) : List (String × Rule) :=
  let roots := g.start :: g.extras ++ g.layout.flatMap Rule.refs
  let fuel := g.rules.foldl (fun n rule => n + rule.2.refs.length + 1) (roots.length + 1)
  let seen := reachAux g.rules fuel roots []
  g.rules.filter fun rule => seen.contains rule.1

end Grammar

end ModuleTrace
