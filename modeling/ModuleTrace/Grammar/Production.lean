import Std.Data.HashMap
import ModuleTrace.Grammar.Rule
import ModuleTrace.Grammar.TokenSet

/-!
# Productions

A grammar is numbered and written out as productions: tokens first, then rules, then one
auxiliary rule for every repetition. A production is a row of symbols; choices, options,
repetitions and inlined rules are gone, and every step knows its rank, side, alias and field.
-/

namespace ModuleTrace

namespace Grammar

structure Step where
  symbol : Nat
  rank : Precedence
  side : Option Associativity
  as : Option Alias
  field : Option String
  deriving DecidableEq, Hashable, Repr, Inhabited

structure Production where
  steps : List Step
  weight : Int
  deriving DecidableEq, Hashable, Repr, Inhabited

/-- The numbered names of a grammar. Number 0 is the end of the text, number 1 the class of
words; tokens come before rules. -/
structure Vocabulary where
  names : Array String
  /-- Whether a symbol leaves a node in the syntax tree. -/
  visible : Array Bool
  named : Array Bool
  tokenCount : Nat
  words : Std.HashMap String Nat
  lexemes : Std.HashMap String Nat
  /-- Tokens of the layout scanner by its own numbering. -/
  layout : Array Nat
  /-- Tokens that no lexer rule describes: only the layout scanner finds them. -/
  layoutOnly : TokenSet
  extras : TokenSet
  rules : Std.HashMap String Nat
  /-- First auxiliary rule. -/
  auxiliaryFrom : Nat
  deriving Inhabited

/-- An entry of a precedence list over symbol numbers. -/
inductive RankKey where
  | label (name : String)
  | symbol (number : Nat)
  deriving DecidableEq, Hashable, Repr, Inhabited

structure ProductionSystem where
  vocabulary : Vocabulary
  start : Nat
  /-- Productions of the symbols from `vocabulary.tokenCount` on. -/
  productions : Array (List Production)
  ranks : List (List RankKey)
  deriving Inhabited

namespace Rule

/-- Repetitions found so far: the repeated rule, and the auxiliary rule that stands for it. -/
structure Repeats where
  known : List (Rule × String)
  added : List (String × Rule)

/-- Replaces each repetition by an auxiliary rule `a := a a | body`. Equal bodies share one. -/
def expandRepeats (owner : String) : Rule → StateM Repeats Rule
  | .seq first second => return .seq (← expandRepeats owner first) (← expandRepeats owner second)
  | .alt first second => return .alt (← expandRepeats owner first) (← expandRepeats owner second)
  | .many1 body => do
      let body ← expandRepeats owner body
      let repeats ← get
      match repeats.known.lookup body with
      | some name => return .ref name
      | none =>
          let count := repeats.added.countP fun (name, _) => name.startsWith (owner ++ "_repeat")
          let name := owner ++ "_repeat" ++ toString (count + 1)
          let rule := .alt (.seq (.ref name) (.ref name)) body
          set (Repeats.mk ((body, name) :: repeats.known) (repeats.added ++ [(name, rule)]))
          return .ref name
  | .field name body => return .field name (← expandRepeats owner body)
  | .naming body as => return .naming (← expandRepeats owner body) as
  | .ranked rank side body => return .ranked rank side (← expandRepeats owner body)
  | .weighted weight body => return .weighted weight (← expandRepeats owner body)
  | rule => return rule

def rows : Rule → List Rule
  | .seq first second => first.rows.flatMap fun a => second.rows.map fun b => .seq a b
  | .alt first second => first.rows ++ second.rows
  | .field name body => body.rows.map (.field name)
  | .naming body as => body.rows.map (.naming · as)
  | .ranked rank side body => body.rows.map (.ranked rank side)
  | .weighted weight body => body.rows.map (.weighted weight)
  | rule => [rule]

structure Surroundings where
  rank : Precedence := .unranked
  side : Option Associativity := none
  as : Option Alias := none
  field : Option String := none

/-- Steps in reverse order, and the largest weight met. -/
structure Row where
  steps : List Step := []
  weight : Int := 0

/-- Gives the last step the rank and side of its surroundings. -/
def Row.relax (row : Row) (around : Surroundings) (resetSide : Bool) : Row :=
  match row.steps with
  | [] => row
  | last :: steps =>
      let side := if resetSide then around.side else last.side
      { row with steps := { last with rank := around.rank, side } :: steps }

/-- Appends the steps of a row. The last step of a ranked part keeps the rank only where the
part ends its row, since what follows there is what the rank must be compared with. -/
def appendSteps (number : Rule → Nat) (around : Surroundings) (atEnd : Bool) : Rule → Row → Row
  | .empty, row => row
  | .seq first second, row =>
      appendSteps number around atEnd second (appendSteps number around false first row)
  | .field name body, row => appendSteps number { around with field := some name } atEnd body row
  | .naming body as, row => appendSteps number { around with as := some as } atEnd body row
  | .weighted weight body, row =>
      let weight := if weight.natAbs > row.weight.natAbs then weight else row.weight
      appendSteps number around atEnd body { row with weight }
  | .ranked rank side body, row =>
      let inside := { around with rank, side := side <|> around.side }
      let result := appendSteps number inside atEnd body row
      if atEnd || result.steps.length == row.steps.length then result
      else result.relax around side.isSome
  | rule, row =>
      let step : Step := ⟨number rule, around.rank, around.side, around.as, around.field⟩
      { row with steps := step :: row.steps }

def productions (number : Rule → Nat) (rule : Rule) : List Production :=
  let flat := rule.rows.map fun row =>
    let result := appendSteps number {} true row {}
    Production.mk result.steps.reverse result.weight
  flat.eraseDups

end Rule

namespace Production

/-- The step of an inlined rule in the place of the step that mentions the rule. -/
private def graftStep (outer step : Step) : Step :=
  { step with as := outer.as <|> step.as, field := outer.field <|> step.field }

private def graftLast (outer : Step) : List Step → List Step
  | [] => []
  | [step] =>
      let rank := if step.rank = .unranked then outer.rank else step.rank
      [{ step with rank, side := step.side <|> outer.side }]
  | step :: steps => step :: graftLast outer steps

private def heavier (a b : Int) : Int :=
  if b.natAbs > a.natAbs then b else a

def inlineSteps (inlined : Nat → Option (List Production)) (weight : Int) :
    List Step → List Production
  | [] => [⟨[], weight⟩]
  | step :: steps =>
      match inlined step.symbol with
      | none =>
          (inlineSteps inlined weight steps).map fun p => { p with steps := step :: p.steps }
      | some choices =>
          choices.flatMap fun choice =>
            let grafted := graftLast step (choice.steps.map (graftStep step))
            (inlineSteps inlined weight steps).map fun p =>
              ⟨grafted ++ p.steps, heavier p.weight choice.weight⟩

def expand (inlined : Nat → Option (List Production)) (p : Production) : List Production :=
  inlineSteps inlined p.weight p.steps

end Production

/-- Tokens of a grammar in order of first mention, the class of words first. -/
private def orderedTokens (rules : List (String × Rule)) (wordRule : Rule) : List Rule :=
  wordRule :: ((rules.flatMap fun rule => rule.2.tokens).eraseDups.filter (· ≠ wordRule))

/-- A rule that is nothing but a token used nowhere else names that token. -/
private def tokenNames (rules : List (String × Rule)) : List (Rule × String) :=
  let mentions := rules.flatMap fun rule => rule.2.tokens
  rules.filterMap fun (name, rule) =>
    match rule with
    | .word _ | .lexeme _ => if mentions.count rule = 1 then some (rule, name) else none
    | _ => none

private def isHidden (name : String) : Bool :=
  name.startsWith "_"

end Grammar

namespace Grammar

/-- Numbers the symbols of a grammar and writes its rules out as productions. -/
def productionSystem (g : Grammar) : ProductionSystem :=
  let rules := g.reachable
  let kept := fun name => (rules.lookup name).isSome
  let tokenNamed := tokenNames rules
  let wordRule := (rules.lookup g.wordClass).getD .empty
  let tokens := orderedTokens rules wordRule
  let tokenRules := tokenNamed.map fun (rule, name) => (name, rule)
  let plain := rules.filter fun rule => (tokenRules.lookup rule.1).isNone
  let layoutOnly := g.layout.filterMap fun rule =>
    match rule with
    | .ref name => if (tokenRules.lookup name).isSome then none else some name
    | _ => none
  let (plain, repeats) := (plain.mapM fun (name, rule) => do
    return (name, ← Rule.expandRepeats name rule)).run ⟨[], []⟩
  let display := fun rule =>
    match tokenNamed.lookup rule, rule with
    | some name, _ => (name, !isHidden name)
    | none, .word text => (text, false)
    | none, .lexeme name => (name, false)
    | none, _ => ("", false)
  let tokenEntries := tokens.map display
  let layoutEntries := layoutOnly.map fun name => (name, !isHidden name)
  let ruleEntries := (plain ++ repeats.added).map fun (name, _) =>
    (name, !isHidden name && !g.families.contains name && (repeats.added.lookup name).isNone)
  let tokenTotal := 1 + tokens.length + layoutOnly.length
  let entries := ("end", true) :: tokenEntries ++ layoutEntries ++ ruleEntries
  let tokenNumber := fun rule => (tokens.idxOf? rule).map (· + 1)
  let names : List (String × Nat) :=
    tokenRules.filterMap (fun (name, rule) => (tokenNumber rule).map fun n => (name, n))
      ++ layoutOnly.zipIdx (1 + tokens.length)
      ++ ((plain ++ repeats.added).map Prod.fst).zipIdx tokenTotal
  let byName : Std.HashMap String Nat := Std.HashMap.ofList names
  let number := fun rule =>
    match rule with
    | .ref name => byName.getD name 0
    | rule => (tokenNumber rule).getD 0
  let written := (plain ++ repeats.added).map fun (_, rule) => rule.productions number
  let inlinedNumbers := (g.inlined.filter kept).map (byName.getD · 0)
  let lookup := fun (table : List (Nat × List Production)) n => table.lookup n
  let inlinedFirst := inlinedNumbers.map fun n => (n, written.getD (n - tokenTotal) [])
  let inlined := g.inlined.foldl (fun table _ =>
    table.map fun (n, ps) => (n, ps.flatMap (Production.expand (lookup table)))) inlinedFirst
  let productions := written.zipIdx.map fun (ps, i) =>
    if inlinedNumbers.contains (i + tokenTotal) then []
    else (ps.flatMap (Production.expand (lookup inlined))).eraseDups
  let words := tokens.zipIdx 1 |>.filterMap fun (rule, n) =>
    match rule with
    | .word text => some (text, n)
    | _ => none
  let lexemes := tokens.zipIdx 1 |>.filterMap fun (rule, n) =>
    match rule with
    | .lexeme name => some (name, n)
    | _ => none
  let ranks := g.ranks.filterMap fun row =>
    row.mapM fun entry =>
      match entry with
      | .label name => some (.label name)
      | .rule name => if kept name then some (.symbol (byName.getD name 0)) else none
  { vocabulary :=
      { names := (entries.map Prod.fst).toArray
        visible := ((entries.zipIdx).map fun (entry, i) =>
          if i < tokenTotal then !isHidden entry.1 else entry.2).toArray
        named := (entries.map Prod.snd).toArray
        tokenCount := tokenTotal
        words := Std.HashMap.ofList words
        lexemes := Std.HashMap.ofList lexemes
        layout := (g.layout.map number).toArray
        layoutOnly := TokenSet.ofList (layoutOnly.map (byName.getD · 0))
        extras := TokenSet.ofList (g.extras.map (byName.getD · 0))
        rules := byName
        auxiliaryFrom := tokenTotal + plain.length }
    start := byName.getD g.start 0
    productions := productions.toArray
    ranks }

end Grammar

end ModuleTrace
