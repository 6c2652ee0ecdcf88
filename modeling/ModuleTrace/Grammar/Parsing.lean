import ModuleTrace.Grammar.Stack

/-!
# Parses in progress

The parser follows several parses at once on a shared stack. This module has the state of such
a run, what a grammar's lexer offers, how an item is ended on every path of the stack, how a
finished parse is taken, and how parses are compared.
-/

namespace ModuleTrace.Grammar

inductive Reading where
  | token (number start stop : Nat)
  /-- Nothing that is expected starts at `start`; characters before `stop` were examined. -/
  | nothing (start stop : Nat)

structure Reader where
  /-- Reads one of the given tokens; the flag says whether the text may end. -/
  read : Text → TokenSet → Bool → Nat → Reading
  /-- Reads a token that depends on layout: its number, start and stop. -/
  readLayout : Text → (Nat → Bool) → Nat → Option (Nat × Nat × Nat)
  /-- The keyword that a word is. -/
  keyword? : Text → Nat → Nat → Option Nat
  word : Nat
  /-- Tokens that recovery looks for. -/
  recoverable : TokenSet
  layout : TokenSet

structure Language where
  table : ParseTable
  reader : Reader

structure Run where
  stack : Stack
  finished : Option Tree
  /-- Number of parses that have reached the end. -/
  accepted : Nat
  deriving Inhabited

abbrev Parsing := StateM Run

/-- Parses kept from one token to the next. -/
def parseLimit : Nat := 6

/-- Parses beyond the limit that one ending may make. -/
def overflow : Nat := 4

/-- A parse that costs this much more than another one is given up. -/
def costMargin : Nat := 1800

namespace Language

variable (language : Language)

def vocabulary : Vocabulary :=
  language.table.items.system.vocabulary

def isVisible (symbol : Nat) : Bool :=
  language.vocabulary.visible.getD symbol false

def isExtra (token : Nat) : Bool :=
  language.vocabulary.extras.contains token

def recovers (token : Nat) : Bool :=
  token = 0 || language.reader.recoverable.contains token
    || language.reader.layout.contains token

def hasAction (state : Nat) (label : Label) : Bool :=
  match label with
  | .symbol token =>
      if state = 0 then language.recovers token
      else !(language.table.actions state token).isEmpty
  | _ => false

def next (state : Nat) (label : Label) : Nat :=
  match label with
  | .symbol number => if state = 0 then 0 else language.table.next state number
  | _ => 0

def leaf (label : Label) (before start stop : Nat) (isKeyword : Bool) : Tree :=
  let isVisible :=
    match label with
    | .symbol number => language.isVisible number
    | .error => true
    | .skipped => false
  Tree.leaf isVisible label before start stop isKeyword

def branch (t : Text) (number position : Nat) (children : List Tree) : Tree :=
  let item := language.table.items.item number
  Tree.build t (language.isVisible item.rule) (.symbol item.rule) item.production.steps
    (some number) position children

end Language

/-- An error over trees that fit no production. -/
def Tree.stray (t : Text) (position : Nat) (children : List Tree) : Tree :=
  Tree.build t true .error [] none position children

def Tree.skipped (t : Text) (children : List Tree) : Tree :=
  Tree.build t false .skipped [] none 0 children

namespace Parsing

def stack : Parsing Stack :=
  return (← get).stack

def modifyStack (f : Stack → Stack) : Parsing Unit :=
  modify fun run => { run with stack := f run.stack }

def onStack {α : Type} (f : Stack → Stack × α) : Parsing α :=
  modifyGet fun run =>
    let (stack, value) := f run.stack
    (value, { run with stack })

def tryMerge (a b : Nat) : Parsing Bool :=
  onStack fun stack =>
    match stack.merge a b with
    | some stack => (stack, true)
    | none => (stack, false)

/-- Stretches of one head after the first of a list, and the others. -/
private def sameHead (stretch : Stretch) (rest : List Stretch) : List Stretch × List Stretch :=
  rest.span fun other => other.head = stretch.head

variable (language : Language) (t : Text)

/-- The best tree of an item over several stretches, with the extras behind it. -/
private def bestBranch (item position : Nat) (first : List Tree) (others : List Stretch) :
    Tree × List Tree :=
  let (children, extras) := splitExtras first
  others.foldl (fun (best, extras) stretch =>
    let (children, otherExtras) := splitExtras stretch.trees
    let other := language.branch t item position children
    let plain := Tree.build t other.info.isVisible other.label [] none position children
    if best.prefersOther plain then (other, otherExtras) else (best, extras))
    (language.branch t item position children, extras)

private def reduceAux (head item : Nat) : Nat → List Stretch → Nat → Parsing Unit
  | 0, _, _ => return
  | _, [], _ => return
  | fuel + 1, stretch :: rest, removed => do
      let (same, rest) := sameHead stretch rest
      let target := stretch.head - removed
      if parseLimit + overflow < target then
        modifyStack (·.removeHead target)
        reduceAux head item fuel rest (removed + 1)
      else
        let s ← stack
        let position := (s.top target).position
        let (tree, extras) := bestBranch language t item position stretch.trees same
        let weight := (language.table.items.item item).production.weight
        let state := language.next (s.top target).state tree.label
        modifyStack (·.push target (some (tree.addWeight weight)) state)
        for extra in extras do
          modifyStack (·.push target (some extra) state)
        match (← stack).mergeInto target target (some head) with
        | some merged =>
            modifyStack fun _ => merged
            reduceAux head item fuel rest (removed + 1)
        | none => reduceAux head item fuel rest removed

/-- Ends an item on every path of a head: the first head that this makes, if any. -/
def reduce (head item : Nat) : Parsing (Option Nat) := do
  let first := (← stack).size
  let stretches ← onStack (·.pop head (language.table.items.item item).dot)
  reduceAux language t head item stretches.length stretches 0
  return if first < (← stack).size then some first else none

/-- The root of a parse: what stands around the start symbol becomes part of it. -/
private def root? (trees : List Tree) : Option Tree :=
  let extras := (trees.reverse.takeWhile Tree.isExtra).reverse
  match trees.reverse.dropWhile Tree.isExtra with
  | [] => none
  | top :: before =>
      some (Tree.build t top.info.isVisible top.label [] none 0
        (before.reverse ++ top.children ++ extras))

def accept (head : Nat) (token : Tree) : Parsing Unit := do
  modifyStack (·.push head (some token) language.table.start)
  let stretches ← onStack (·.popAll head)
  for stretch in stretches do
    modify fun run =>
      let finished :=
        match run.finished, root? t stretch.trees with
        | none, root => root
        | some best, some root => if best.prefersOther root then some root else some best
        | best, none => best
      { run with finished, accepted := run.accepted + 1 }
  match stretches with
  | stretch :: _ => modifyStack (·.removeHead stretch.head)
  | [] => return
  modifyStack (·.setStatus head .halted)

def nodesSinceError (head : Nat) : Parsing Nat :=
  onStack fun stack =>
    let count := (stack.top head).count
    let stack := stack.modifyHead head fun h =>
      { h with countAtError := min h.countAtError count }
    (stack, count - (stack.head head).countAtError)

/-- Cost of a head; one that is about to recover has begun to pay for it. -/
def errorCost (head : Nat) : Parsing Nat := do
  let s ← stack
  let top := s.top head
  let recovering := top.state = 0 && (top.links.head?.any fun link => link.tree.isNone)
  return top.cost
    + if (s.head head).status.isPaused || recovering then Tree.costs.recovery else 0

structure Standing where
  cost : Nat
  count : Nat
  weight : Int
  inError : Bool

def standing (head : Nat) : Parsing Standing := do
  let cost ← errorCost head
  let count ← nodesSinceError head
  let s ← stack
  let paused := (s.head head).status.isPaused
  return {
    cost := if paused then cost + Tree.costs.skippedTree else cost
    count
    weight := (s.top head).weight
    inError := paused || (s.top head).state = 0 }

inductive Preference where
  | takeLeft
  | preferLeft
  | none
  | preferRight
  | takeRight
  deriving DecidableEq

/-- Compares two parses. A parse free of recovery beats one that costs more and recovers; else
the difference in cost counts the more, the more was built since the error. -/
def Standing.compare (a b : Standing) : Preference :=
  if !a.inError && b.inError then if a.cost < b.cost then .takeLeft else .preferLeft
  else if a.inError && !b.inError then if b.cost < a.cost then .takeRight else .preferRight
  else if a.cost < b.cost then
    if costMargin < (b.cost - a.cost) * (1 + a.count) then .takeLeft else .preferLeft
  else if b.cost < a.cost then
    if costMargin < (a.cost - b.cost) * (1 + b.count) then .takeRight else .preferRight
  else if b.weight < a.weight then .preferLeft
  else if a.weight < b.weight then .preferRight
  else .none

private def betterAmong (head : Nat) (own : Standing) : List Nat → Parsing Bool
  | [] => return false
  | other :: rest => do
      let s ← stack
      if other = head || !(s.head other).status.isActive
          || (s.top other).position < (s.top head).position then
        betterAmong head own rest
      else
        match own.compare (← standing other) with
        | .takeRight => return true
        | .preferRight =>
            if (← stack).canMerge other head then return true else betterAmong head own rest
        | _ => betterAmong head own rest

/-- Whether another parse is better than a head would be at a given cost. -/
def betterExists (head cost : Nat) : Parsing Bool := do
  if (← get).finished.any fun tree => tree.cost ≤ cost then return true
  else
    let count ← nodesSinceError head
    let s ← stack
    betterAmong head ⟨cost, count, (s.top head).weight, false⟩ (List.range s.size)

end Parsing

end ModuleTrace.Grammar
