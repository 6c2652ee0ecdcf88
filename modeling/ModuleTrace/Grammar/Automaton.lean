import ModuleTrace.Grammar.Item

/-!
# The canonical automaton

States are sets of items with the tokens that may follow each. States that differ only in
these tokens share a core, and what a core's transitions do to the tokens is computed once:
every item of a target receives some fixed tokens and those of some items of the source.
-/

namespace ModuleTrace.Grammar

/-- Tokens behind an item of a target: fixed ones, and those behind some items of the source. -/
structure Flow where
  fixed : TokenSet
  sources : List Nat
  deriving Inhabited

structure Transition where
  symbol : Nat
  /-- Core of the target. -/
  target : Nat
  flows : Array Flow
  /-- No flow has a source, so every state of the core leads to one and the same state. -/
  isConstant : Bool
  deriving Inhabited

structure Core where
  kernel : Array Nat
  transitions : Array Transition
  deriving Inhabited

structure CanonicalState where
  core : Nat
  /-- Tokens that may follow, one set for each item of the kernel. -/
  follow : Array TokenSet
  /-- Target states, in the order of the core's transitions. -/
  targets : Array Nat
  deriving Inhabited

structure Automaton where
  table : ItemTable
  cores : Array Core
  states : Array CanonicalState
  deriving Inhabited

structure StateKey where
  core : Nat
  follow : Array TokenSet
  deriving BEq

instance : Hashable StateKey :=
  ⟨fun key => key.follow.foldl (fun h set => mixHash h (hash set)) (hash key.core)⟩

namespace ItemTable

/-- Rules that can begin at a kernel's dots, with the tokens that may follow them there. -/
private def expected (t : ItemTable) (kernel : Array Nat) : Std.HashMap Nat Flow :=
  kernel.zipIdx.foldl (fun found (number, source) =>
    let item := t.items.getD number default
    match item.next with
    | none => found
    | some symbol =>
        if t.system.isToken symbol then found
        else
          let heads := t.heads.getD (symbol - t.system.vocabulary.tokenCount) #[]
          heads.foldl (fun found (rule, info) =>
            let flow := found.getD rule ⟨∅, []⟩
            let fixed := flow.fixed.union info.follow
            let flow : Flow :=
              match info.passes, item.afterNext with
              | false, _ => { flow with fixed }
              | true, some after => { flow with fixed := fixed.union (t.first.getD after ∅) }
              | true, none => ⟨fixed, source :: flow.sources⟩
            found.insert rule flow) found) ∅

private def mergeSources (a b : List Nat) : List Nat :=
  a ++ b.filter fun source => !a.contains source

private def addMove (moves : Std.HashMap Nat (Array (Nat × Flow))) (symbol item : Nat)
    (flow : Flow) : Std.HashMap Nat (Array (Nat × Flow)) :=
  moves.alter symbol fun old =>
    let row := old.getD #[]
    match row.findIdx? fun entry => entry.1 = item with
    | none => some (row.push (item, flow))
    | some i => some (row.modify i fun entry =>
        (item, ⟨entry.2.fixed.union flow.fixed, mergeSources entry.2.sources flow.sources⟩))

/-- The moves of a kernel: for each symbol, the items of the target and what flows into them. -/
private def moves (t : ItemTable) (kernel : Array Nat) : Array (Nat × Array (Nat × Flow)) :=
  let own := kernel.zipIdx.foldl (fun moves (number, source) =>
    let item := t.items.getD number default
    match item.next with
    | none => moves
    | some symbol => addMove moves symbol item.successor ⟨∅, [source]⟩) ∅
  let all := (t.expected kernel).fold (fun moves rule flow =>
    let openings := t.openings.getD (rule - t.system.vocabulary.tokenCount) #[]
    openings.foldl (fun moves (symbol, items) =>
      items.foldl (fun moves item => addMove moves symbol item flow) moves) moves) own
  let sorted := all.toArray.qsort fun a b => a.1 < b.1
  sorted.map fun (symbol, row) => (symbol, row.qsort fun a b => a.1 < b.1)

end ItemTable

namespace Automaton

private structure Growth where
  coreOf : Std.HashMap (Array Nat) Nat
  cores : Array (Option Core)
  kernels : Array (Array Nat)
  /-- Targets of constant transitions, by core and position. -/
  constants : Array (Array (Option Nat))
  stateOf : Std.HashMap StateKey Nat
  states : Array CanonicalState

private def Growth.coreNumber (g : Growth) (kernel : Array Nat) : Growth × Nat :=
  match g.coreOf[kernel]? with
  | some number => (g, number)
  | none =>
      let number := g.kernels.size
      ({ g with
          coreOf := g.coreOf.insert kernel number
          cores := g.cores.push none
          kernels := g.kernels.push kernel
          constants := g.constants.push #[] }, number)

private def Growth.core (t : ItemTable) (g : Growth) (number : Nat) : Growth × Core :=
  match g.cores.getD number none with
  | some core => (g, core)
  | none =>
      let kernel := g.kernels.getD number #[]
      let (g, transitions) := (t.moves kernel).foldl (fun (g, transitions) (symbol, row) =>
        let (g, target) := g.coreNumber (row.map Prod.fst)
        let flows := row.map Prod.snd
        let isConstant := flows.all fun flow => flow.sources.isEmpty
        (g, transitions.push ⟨symbol, target, flows, isConstant⟩)) (g, #[])
      let core : Core := ⟨kernel, transitions⟩
      ({ g with
          cores := g.cores.set! number (some core)
          constants := g.constants.set! number (Array.replicate transitions.size none) }, core)

private def Growth.stateNumber (g : Growth) (key : StateKey) : Growth × Nat :=
  match g.stateOf[key]? with
  | some number => (g, number)
  | none =>
      let number := g.states.size
      ({ g with
          stateOf := g.stateOf.insert key number
          states := g.states.push ⟨key.core, key.follow, #[]⟩ }, number)

private def flowInto (follow : Array TokenSet) (flow : Flow) : TokenSet :=
  flow.sources.foldl (fun set source => set.union (follow.getD source ∅)) flow.fixed

private def Growth.target (g : Growth) (state : CanonicalState) (i : Nat) (move : Transition) :
    Growth × Nat :=
  match (g.constants.getD state.core #[]).getD i none with
  | some number => (g, number)
  | none =>
      let (g, number) := g.stateNumber ⟨move.target, move.flows.map (flowInto state.follow)⟩
      if move.isConstant then
        ({ g with constants := g.constants.modify state.core fun row => row.set! i (some number) },
          number)
      else (g, number)

private def Growth.expand (t : ItemTable) (g : Growth) (number : Nat) : Growth :=
  match g.states[number]? with
  | none => g
  | some state =>
      let (g, core) := g.core t state.core
      let (g, targets) := core.transitions.zipIdx.foldl (fun (g, targets) (move, i) =>
        let (g, target) := g.target state i move
        (g, targets.push target)) (g, (#[] : Array Nat))
      { g with states := g.states.modify number fun state => { state with targets } }

private def growAux (t : ItemTable) : Nat → Nat → Growth → Growth
  | 0, _, g => g
  | fuel + 1, number, g =>
      if number < g.states.size then growAux t fuel (number + 1) (g.expand t number) else g

/-- More states than any grammar of this library has. -/
def stateLimit : Nat := 1000000

/-- The states reachable from the start, in the order in which they are met. -/
def build (t : ItemTable) : Automaton :=
  let (g, _) := (Growth.mk ∅ #[] #[] #[] ∅ #[]).coreNumber #[t.origin]
  let (g, _) := g.stateNumber ⟨0, #[TokenSet.singleton 0]⟩
  let g := growAux t stateLimit 0 g
  { table := t, cores := g.cores.map (·.getD default), states := g.states }

end Automaton

end ModuleTrace.Grammar
