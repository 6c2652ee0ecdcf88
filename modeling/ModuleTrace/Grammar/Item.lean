import ModuleTrace.Grammar.Production

/-!
# Items

An item is a production with a dot in it. Two items are one when what is behind the dot looks
the same in the tree and what is ahead of the dot is equal; a state then need not remember
which of several marks was read.
-/

namespace ModuleTrace.Grammar

structure Item where
  rule : Nat
  dot : Nat
  production : Production
  /-- The symbol behind the dot decides rank and side. -/
  rank : Precedence
  side : Option Associativity
  next : Option Nat
  afterNext : Option Nat
  /-- The item with the dot one step further; itself when the dot is at the end. -/
  successor : Nat
  deriving Inhabited

/-- What makes two items one. -/
structure ItemKey where
  rule : Nat
  dot : Nat
  weight : Int
  length : Nat
  rank : Precedence
  side : Option Associativity
  behind : List (Option Alias × Option String × Option Nat)
  ahead : List Step
  deriving DecidableEq, Hashable

/-- Tokens that can follow a rule at the head of another, and whether whatever follows the
whole can follow the head. -/
structure HeadInfo where
  follow : TokenSet
  passes : Bool
  deriving DecidableEq, Inhabited

/-- Transitions from the start of a rule: a symbol, and the items behind it. -/
abbrev Openings := Array (Nat × Array Nat)

structure ItemTable where
  system : ProductionSystem
  items : Array Item
  /-- The item before the whole text. -/
  origin : Nat
  /-- The start rule over an empty text, if it may be empty. No other rule may. -/
  empty : Option Nat
  first : Array TokenSet
  openings : Array Openings
  /-- For each rule, the rules that can stand at its head. -/
  heads : Array (Array (Nat × HeadInfo))
  deriving Inhabited

namespace ProductionSystem

variable (s : ProductionSystem)

def isToken (symbol : Nat) : Bool :=
  symbol < s.vocabulary.tokenCount

def isVisible (symbol : Nat) : Bool :=
  s.vocabulary.visible.getD symbol false

def productionsOf (rule : Nat) : List Production :=
  s.productions.getD (rule - s.vocabulary.tokenCount) []

def ruleNumbers : List Nat :=
  (List.range s.productions.size).map (· + s.vocabulary.tokenCount)

/-- A set that grows round by round over all rules until nothing changes. Each round that
changes something settles at least one rule, so as many rounds as rules suffice. -/
private def saturate {α : Type} [DecidableEq α] (round : Array α → Array α) :
    Nat → Array α → Array α
  | 0, sets => sets
  | fuel + 1, sets =>
      let next := round sets
      if next = sets then sets else saturate round fuel next

def firstSets : Array TokenSet :=
  let tokens := (Array.range s.vocabulary.tokenCount).map TokenSet.singleton
  let start := tokens ++ s.productions.map fun _ => TokenSet.empty
  let round := fun (sets : Array TokenSet) =>
    s.ruleNumbers.foldl (fun sets rule =>
      let set := (s.productionsOf rule).foldl (fun set p =>
        match p.steps with
        | [] => set
        | step :: _ => set.union (sets.getD step.symbol ∅)) (sets.getD rule ∅)
      sets.set! rule set) sets
  saturate round s.productions.size start

def lastSets : Array TokenSet :=
  let tokens := (Array.range s.vocabulary.tokenCount).map TokenSet.singleton
  let start := tokens ++ s.productions.map fun _ => TokenSet.empty
  let round := fun (sets : Array TokenSet) =>
    s.ruleNumbers.foldl (fun sets rule =>
      let set := (s.productionsOf rule).foldl (fun set p =>
        match p.steps.getLast? with
        | none => set
        | some step => set.union (sets.getD step.symbol ∅)) (sets.getD rule ∅)
      sets.set! rule set) sets
  saturate round s.productions.size start

/-- Whether a hidden rule hands fields of its own children to its parent. -/
def handsFields : Array Bool :=
  let round := fun (flags : Array Bool) =>
    s.ruleNumbers.foldl (fun flags rule =>
      let flag := (s.productionsOf rule).any fun p => p.steps.any fun step =>
        step.field.isSome ||
          (!s.isToken step.symbol && !s.isVisible step.symbol && step.as.isNone
            && flags.getD step.symbol false)
      flags.set! rule flag) flags
  saturate round s.productions.size (Array.replicate s.vocabulary.names.size false)

/-- Rules at the head of a rule's productions: what may follow them there, and whether one
stands alone. -/
private def corners (first : Array TokenSet) (rule : Nat) : List (Nat × HeadInfo) :=
  (s.productionsOf rule).foldl (fun found p =>
    match p.steps with
    | [] => found
    | step :: rest =>
        if s.isToken step.symbol then found
        else
          let info : HeadInfo :=
            match rest with
            | [] => ⟨∅, true⟩
            | next :: _ => ⟨first.getD next.symbol ∅, false⟩
          match found.lookup step.symbol with
          | none => found ++ [(step.symbol, info)]
          | some old => found.map fun entry =>
              if entry.1 = step.symbol then
                (entry.1, ⟨old.follow.union info.follow, old.passes || info.passes⟩)
              else entry) []

private def headsAux (corners : Nat → List (Nat × HeadInfo)) :
    Nat → List Nat → Array (Nat × HeadInfo) → Array (Nat × HeadInfo)
  | 0, _, found => found
  | _, [], found => found
  | fuel + 1, rule :: rest, found =>
      let info := ((found.find? fun entry => entry.1 = rule).map Prod.snd).getD ⟨∅, false⟩
      let (rest, found) := (corners rule).foldl (fun (rest, found) (head, corner) =>
        let follow := corner.follow.union (if corner.passes then info.follow else ∅)
        let passes := corner.passes && info.passes
        match found.findIdx? fun entry => entry.1 = head with
        | none => (head :: rest, found.push (head, HeadInfo.mk follow passes))
        | some i =>
            let old := (found.getD i (head, ⟨∅, false⟩)).2
            let new := HeadInfo.mk (old.follow.union follow) (old.passes || passes)
            if new = old then (rest, found) else (head :: rest, found.set! i (head, new)))
        (rest, found)
      headsAux corners fuel rest found

/-- All rules at the head of a rule, itself included. Each step back on the list enlarges an
entry, and an entry can grow once for each token and once more. -/
def headTable (first : Array TokenSet) : Array (Array (Nat × HeadInfo)) :=
  let direct := (s.ruleNumbers.map (s.corners first)).toArray
  let corner := fun rule => direct.getD (rule - s.vocabulary.tokenCount) []
  let fuel := s.productions.size * (s.vocabulary.tokenCount + 2)
  (s.ruleNumbers.map fun rule => headsAux corner fuel [rule] #[(rule, ⟨∅, true⟩)]).toArray

end ProductionSystem

namespace ItemTable

private structure Interned where
  known : Std.HashMap ItemKey Nat
  items : Array Item

private def intern (handed : Nat → Bool) (rule : Nat) (p : Production)
    (table : Interned) : Interned × List Nat :=
  let length := p.steps.length
  let inherits := fun dot => (p.steps.take dot).any fun step => handed step.symbol
  (List.range (length + 1)).foldl (fun (table, numbers) dot =>
    let last := if dot = 0 then none else p.steps[dot - 1]?
    let marked := inherits dot
    let key : ItemKey :=
      { rule, dot, weight := p.weight, length
        rank := (last.map Step.rank).getD .unranked
        side := last.bind Step.side
        behind := (p.steps.take dot).map fun step =>
          (step.as, step.field, if marked then some step.symbol else none)
        ahead := p.steps.drop dot }
    match table.known[key]? with
    | some number => (table, numbers ++ [number])
    | none =>
        let number := table.items.size
        let item : Item :=
          { rule, dot, production := p, rank := key.rank, side := key.side
            next := p.steps[dot]?.map Step.symbol
            afterNext := p.steps[dot + 1]?.map Step.symbol
            successor := number }
        (⟨table.known.insert key number, table.items.push item⟩, numbers ++ [number]))
    (table, [])

/-- Each item points at the next item of its row. -/
private def link (items : Array Item) : List Nat → Array Item
  | number :: next :: rest =>
      link (items.modify number fun item => { item with successor := next }) (next :: rest)
  | _ => items

private def addOpening (found : Openings) (symbol target : Nat) : Openings :=
  match found.findIdx? fun entry => entry.1 = symbol with
  | some i => found.modify i fun entry =>
      if entry.2.contains target then entry else (entry.1, entry.2.push target)
  | none => found.push (symbol, #[target])

def build (s : ProductionSystem) : ItemTable :=
  let first := s.firstSets
  let hands := s.handsFields
  let handed := fun symbol =>
    !s.isToken symbol && !s.isVisible symbol && hands.getD symbol false
  let whole : Production := ⟨[⟨s.start, .unranked, none, none, none⟩], 0⟩
  let top := s.vocabulary.names.size
  let rows := (top, whole) :: s.ruleNumbers.flatMap fun rule =>
    (s.productionsOf rule).map fun p => (rule, p)
  let (table, numbered) := rows.foldl (fun (table, numbered) (rule, p) =>
    let (table, numbers) := intern handed rule p table
    (table, (rule, numbers) :: numbered)) (⟨∅, #[]⟩, [])
  let numbered := numbered.reverse
  let items := numbered.foldl (fun items row => link items row.2) table.items
  let openings := numbered.foldl (fun openings (rule, numbers) =>
    if rule = top then openings
    else
      let item := items.getD (numbers.headD 0) default
      match item.next with
      | none => openings
      | some symbol =>
          openings.modify (rule - s.vocabulary.tokenCount)
            (addOpening · symbol item.successor))
    (s.productions.map fun _ => #[])
  let empty := items.findIdx? fun item => item.rule = s.start && item.production.steps.isEmpty
  { system := s, items, origin := 0, empty, first, openings, heads := s.headTable first }

end ItemTable

end ModuleTrace.Grammar
