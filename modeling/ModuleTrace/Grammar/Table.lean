import ModuleTrace.Grammar.Decision

/-!
# The parse table

States of one core are merged when no text can tell them apart: tokens that both know do the
same in both, tokens that only one knows neither come from the layout scanner nor hide a token
of the other, and equal symbols lead to merged states. State 0 is the state of recovery.
-/

namespace ModuleTrace.Grammar

structure TableState where
  core : Nat
  tokens : TokenSet
  /-- Tokens that end each ended item, in the order of the core's ends. -/
  ends : List TokenSet
  /-- Targets in the order of the core's transitions. -/
  targets : Array Nat
  deriving Inhabited

structure ParseTable where
  items : ItemTable
  facts : Array CoreFacts
  /-- State `n` is entry `n - 1`. -/
  states : Array TableState
  start : Nat
  deriving Inhabited

inductive Action where
  | shift (target : Nat) (repeats : Bool)
  /-- The token may stand anywhere and changes nothing. -/
  | pass
  | reduce (item : Nat)
  | accept
  deriving DecidableEq, Repr, Inhabited

namespace ParseTable

private structure Merging where
  automaton : Automaton
  facts : Array CoreFacts
  /-- Tokens of the layout scanner: a state must not learn one from another state. -/
  layout : TokenSet
  /-- Tokens that a token would hide or be hidden by, were a state to learn it. -/
  clashes : Array TokenSet

namespace Merging

private def coreFacts (m : Merging) (state : CanonicalState) : CoreFacts :=
  m.facts.getD state.core default

private def tokens (m : Merging) (state : CanonicalState) : TokenSet :=
  let facts := m.coreFacts state
  facts.ended.foldl (fun set (i, _) => set.union (state.follow.getD i ∅)) facts.reads

private def decision (m : Merging) (state : CanonicalState) (token : Nat) : Decision :=
  let facts := m.coreFacts state
  let ended := facts.ended.filterMap fun (i, number) =>
    if (state.follow.getD i ∅).contains token then some number else none
  m.automaton.table.decision facts token ended

private def hides (m : Merging) (new known : TokenSet) : Bool :=
  new.toList.any fun token => !((m.clashes.getD token ∅).inter known).isEmpty

/-- Whether a symbol leads from two states of one core to different groups. -/
private def partsAt (m : Merging) (groupOf : Array Nat) (a b : CanonicalState)
    (move : Transition × Nat) : Bool :=
  groupOf.getD (a.targets.getD move.2 0) 0 ≠ groupOf.getD (b.targets.getD move.2 0) 0
    && (!m.automaton.table.system.isToken move.1.symbol
      || ((m.decision a move.1.symbol).shifts && (m.decision b move.1.symbol).shifts))

private def parts (m : Merging) (groupOf : Array Nat) (a b : CanonicalState) : Bool :=
  (m.coreFacts a).core.transitions.zipIdx.any (m.partsAt groupOf a b)

private def partsAtToken (m : Merging) (groupOf : Array Nat) (a b : CanonicalState) : Bool :=
  (m.coreFacts a).core.transitions.zipIdx.any fun move =>
    m.automaton.table.system.isToken move.1.symbol && m.partsAt groupOf a b move

/-- Tokens that some ended item is followed by in one state and not in the other. -/
private def moved (m : Merging) (a b : CanonicalState) : TokenSet :=
  (m.coreFacts a).ended.foldl (fun set (i, _) =>
    set.union ((a.follow.getD i ∅).differ (b.follow.getD i ∅))) TokenSet.empty

private def conflict (m : Merging) (groupOf : Array Nat) (a b : CanonicalState) : Bool :=
  let known := m.tokens a
  let other := m.tokens b
  let alone := known.differ other
  !(alone.inter m.layout).isEmpty
    || (!alone.isEmpty
      && (m.hides (alone.inter known) other || m.hides (alone.inter other) known))
    || (((m.moved a b).inter known).inter other).toList.any (fun token =>
      m.decision a token ≠ m.decision b token)
    || m.partsAtToken groupOf a b

end Merging

private structure Partition where
  groups : Array (Array Nat)
  groupOf : Array Nat

/-- Keeps, in order, each state that agrees with all kept before it. -/
private def keep (apart : Nat → Nat → Bool) (group : Array Nat) : Array Nat × Array Nat :=
  group.foldl (fun (kept, rest) number =>
    if kept.any fun other => apart other number then (kept, rest.push number)
    else (kept.push number, rest)) (#[], #[])

private def splitAux (apart : Array Nat → Nat → Nat → Bool) :
    Nat → Nat → Partition → Bool → Partition × Bool
  | 0, _, p, changed => (p, changed)
  | fuel + 1, number, p, changed =>
      match p.groups[number]? with
      | none => (p, changed)
      | some group =>
          if group.size ≤ 1 then splitAux apart fuel (number + 1) p changed
          else
            let (kept, rest) := keep (apart p.groupOf) group
            if rest.isEmpty then splitAux apart fuel (number + 1) p changed
            else
              let fresh := p.groups.size
              let groupOf := rest.foldl (fun groupOf state => groupOf.set! state fresh) p.groupOf
              let groups := (p.groups.set! number kept).push rest
              splitAux apart fuel (number + 1) ⟨groups, groupOf⟩ true

private def split (apart : Array Nat → Nat → Nat → Bool) (p : Partition) : Partition × Bool :=
  splitAux apart (p.groupOf.size + p.groups.size + 1) 0 p false

private def splitWhile (apart : Array Nat → Nat → Nat → Bool) : Nat → Partition → Partition
  | 0, p => p
  | fuel + 1, p =>
      let (next, changed) := split apart p
      if changed then splitWhile apart fuel next else next

private def byCore (a : Automaton) : Partition :=
  let groups := a.states.zipIdx.foldl (fun groups (state, number) =>
    groups.modify state.core (·.push number)) (Array.replicate a.cores.size #[])
  ⟨groups, a.states.map CanonicalState.core⟩

private def partition (m : Merging) : Partition :=
  let state := fun number => m.automaton.states.getD number default
  let (first, _) := split (fun groupOf a b => m.conflict groupOf (state a) (state b))
    (byCore m.automaton)
  splitWhile (fun groupOf a b => m.parts groupOf (state a) (state b))
    m.automaton.states.size first

private def merged (m : Merging) (p : Partition) (group : Array Nat) : TableState :=
  let states := group.map fun number => m.automaton.states.getD number default
  let head := states.getD 0 default
  let facts := m.coreFacts head
  { core := head.core
    tokens := states.foldl (fun set state => set.union (m.tokens state)) ∅
    ends := facts.ended.map fun (i, _) =>
      states.foldl (fun set state => set.union (state.follow.getD i ∅)) ∅
    targets := head.targets.map fun number => p.groupOf.getD number 0 + 1 }

variable (t : ParseTable)

def state (number : Nat) : TableState :=
  if number = 0 then default else t.states.getD (number - 1) default

def coreFacts (number : Nat) : CoreFacts :=
  t.facts.getD (t.state number).core default

private def findMove (moves : Array Transition) (symbol : Nat) : Nat → Nat → Nat → Option Nat
  | 0, _, _ => none
  | fuel + 1, low, high =>
      if low < high then
        let middle := (low + high) / 2
        let found := (moves.getD middle default).symbol
        if found = symbol then some middle
        else if found < symbol then findMove moves symbol fuel (middle + 1) high
        else findMove moves symbol fuel low middle
      else none

def go (number symbol : Nat) : Nat :=
  if number = 0 then 0
  else
    let moves := (t.coreFacts number).core.transitions
    match findMove moves symbol (moves.size + 1) 0 moves.size with
    | none => 0
    | some i => (t.state number).targets.getD i 0

private def pass (number : Nat) : Nat → Nat → Nat
  | 0, target => target
  | fuel + 1, target =>
      match (t.coreFacts target).passesTo with
      | none => target
      | some rule =>
          let next := t.go number rule
          if next = 0 then target else pass number fuel next

/-- Lets the start state take the end of the text where the text may be empty. -/
private def withEmptyText : ParseTable :=
  if t.items.empty.isSome then
    { t with states := t.states.modify (t.start - 1) fun state =>
        { state with tokens := state.tokens.insert 0 } }
  else t

/-- Leaves out states that do nothing but end a hidden rule of one symbol. -/
private def withoutPasses : ParseTable :=
  { t with
    states := t.states.zipIdx.map fun (state, i) =>
      { state with targets := state.targets.map (t.pass (i + 1) 4) } }

/-- Merges the states of an automaton. `clashes` says of each token which tokens a lexer would
be misled about by it. -/
def build (a : Automaton) (clashes : Array TokenSet) : ParseTable :=
  let v := a.table.system.vocabulary
  let renamed := a.table.renamedRules
  let m : Merging :=
    { automaton := a
      facts := a.cores.map (a.table.facts renamed)
      layout := TokenSet.ofList v.layout.toList
      clashes }
  let p := partition m
  let table : ParseTable :=
    { items := a.table
      facts := m.facts
      states := p.groups.map (merged m p)
      start := p.groupOf.getD 0 0 + 1 }
  table.withoutPasses.withEmptyText

def decision (number token : Nat) : Decision :=
  let facts := t.coreFacts number
  let ended := (facts.ended.zip (t.state number).ends).filterMap fun ((_, item), set) =>
    if set.contains token then some item else none
  t.items.decision facts token ended

private def endAction (item : Nat) : Action :=
  if item = (t.items.item t.items.origin).successor then .accept else .reduce item

/-- The actions of a token in a state other than that of recovery, ends before the shift. -/
def actions (number token : Nat) : List Action :=
  let decision := t.decision number token
  let ends := decision.ends.map t.endAction
  if decision.shifts then ends ++ [.shift (t.go number token) decision.repeats]
  else if !ends.isEmpty then ends
  else if t.items.system.vocabulary.extras.contains token then [.pass]
  else if number = t.start && token = 0 then t.items.empty.toList.map .reduce
  else []

def knows (number token : Nat) : Bool :=
  (t.state number).tokens.contains token || t.items.system.vocabulary.extras.contains token

def next (number symbol : Nat) : Nat :=
  if t.items.system.isToken symbol then
    match (t.actions number symbol).getLast? with
    | some (.shift target _) => target
    | some .pass => number
    | _ => 0
  else t.go number symbol

end ParseTable

end ModuleTrace.Grammar
