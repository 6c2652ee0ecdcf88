import ModuleTrace.Grammar.Automaton

/-!
# Decisions between actions

In a state, a token can end several items or continue others. Ranks settle what they can: an
end of higher rank beats one of lower rank, a shift of higher rank beats all ends, equal ranks
go by side. What remains is a true ambiguity, and the parser follows every branch.
-/

namespace ModuleTrace.Grammar

/-- What a token does in a state: the items that end before it, and whether it is read. -/
structure Decision where
  ends : List Nat
  shifts : Bool
  /-- The shift only lengthens a repetition that the end has just closed. -/
  repeats : Bool
  deriving DecidableEq, Inhabited

namespace RankKey

private def isEntry (entry : RankKey) (rank : Precedence) (rules : List Nat) : Bool :=
  match entry, rank with
  | .label name, .named given => name == given
  | .label _, _ => false
  | .symbol number, _ => rules.contains number

/-- Order by the first list that holds both sides. The earlier entry is the higher one. -/
private def compareIn (left right : RankKey → Bool) :
    List RankKey → Bool → Bool → Option Ordering
  | [], _, _ => none
  | entry :: rest, sawLeft, sawRight =>
      if left entry then
        if sawRight then some .lt else compareIn left right rest true sawRight
      else if right entry then
        if sawLeft then some .gt else compareIn left right rest sawLeft true
      else compareIn left right rest sawLeft sawRight

private def byLists (lists : List (List RankKey)) (l r : RankKey → Bool) : Ordering :=
  (lists.findSome? fun row => compareIn l r row false false).getD .eq

/-- Levels compare as numbers, an unranked side as level 0; all else goes by the lists. -/
def compareRanks (lists : List (List RankKey)) (left : Precedence) (leftRules : List Nat)
    (right : Precedence) (rightRules : List Nat) : Ordering :=
  let named := byLists lists (isEntry · left leftRules) (isEntry · right rightRules)
  match left, right with
  | .level l, .level r => if l = 0 && r = 0 then named else compare l r
  | .level l, .unranked => if l = 0 then named else compare l 0
  | .unranked, .level r => if r = 0 then named else compare 0 r
  | _, _ => named

end RankKey

structure CoreFacts where
  core : Core
  reads : TokenSet
  /-- Positions in the kernel of the items at their end, in the order of their ends. -/
  ended : List (Nat × Nat)
  /-- The hidden rule that every state of the core ends after one symbol. -/
  passesTo : Option Nat
  deriving Inhabited

namespace ItemTable

variable (t : ItemTable)

def item (number : Nat) : Item :=
  t.items.getD number default

private def endOrder (a b : Nat × Nat) : Bool :=
  let x := (t.items.getD a.2 default)
  let y := (t.items.getD b.2 default)
  let key := fun (item : Item) =>
    (item.dot, item.rule, item.production.weight, item.production.steps.length)
  match compare (key x).1 (key y).1, compare (key x).2.1 (key y).2.1,
      compare (key x).2.2.1 (key y).2.2.1, compare (key x).2.2.2 (key y).2.2.2 with
  | .eq, .eq, .eq, .eq => a.2 ≤ b.2
  | .eq, .eq, .eq, c => c == .lt
  | .eq, .eq, c, _ => c == .lt
  | .eq, c, _, _ => c == .lt
  | c, _, _, _ => c == .lt

def renamedRules : List Nat :=
  (t.items.toList.flatMap fun item =>
    item.production.steps.filterMap fun step =>
      if step.as.isSome then some step.symbol else none).eraseDups

private def passes (renamed : List Nat) (kernel : List Item) : Option Nat :=
  match kernel with
  | [] => none
  | head :: _ =>
      let v := t.system.vocabulary
      let hidden := (v.names.getD head.rule "").startsWith "_" && head.rule < v.auxiliaryFrom
      let single := fun (item : Item) =>
        match item.production.steps with
        | [step] => item.dot = 1 && step.as.isNone && step.field.isNone
            && item.production.weight = 0 && item.rule = head.rule
        | _ => false
      if hidden && !renamed.contains head.rule && kernel.all single then some head.rule else none

def facts (renamed : List Nat) (core : Core) : CoreFacts :=
  let ended := core.kernel.toList.zipIdx.filterMap fun (number, i) =>
    if (t.item number).next.isNone then some (i, number) else none
  { core
    reads := core.transitions.foldl (fun set move =>
      if t.system.isToken move.symbol then set.insert move.symbol else set) ∅
    ended := ended.mergeSort t.endOrder
    passesTo := t.passes renamed (core.kernel.toList.map t.item) }

/-- The ends that stay after ranks are compared, with their common rank, rules and sides. -/
private structure Ends where
  items : List Nat
  rank : Precedence
  rules : List Nat
  sides : List (Option Associativity)

private def addEnd (found : Option Ends) (number : Nat) : Option Ends :=
  let item := t.item number
  match found with
  | none => some ⟨[number], item.rank, [item.rule], [item.side]⟩
  | some old =>
      match RankKey.compareRanks t.system.ranks item.rank [item.rule] old.rank old.rules with
      | .gt => some ⟨[number], item.rank, [item.rule], [item.side]⟩
      | .eq =>
          some ⟨old.items ++ [number], item.rank, item.rule :: old.rules, item.side :: old.sides⟩
      | .lt => found

private def shiftOrders (facts : CoreFacts) (token : Nat) (ends : Ends) : List Ordering :=
  facts.core.kernel.toList.filterMap fun number =>
    let item := t.item number
    match item.next with
    | some symbol =>
        if 0 < item.dot && (t.first.getD symbol ∅).contains token then
          some (RankKey.compareRanks t.system.ranks item.rank [item.rule] ends.rank ends.rules)
        else none
    | none => none

/-- Whether all that meets at a token belongs to one repetition. -/
private def isRepetition (facts : CoreFacts) (token : Nat) (ended : List Nat) : Bool :=
  let moving := facts.core.kernel.toList.filter fun number =>
    let item := t.item number
    0 < item.dot && (item.next.any fun symbol => (t.first.getD symbol ∅).contains token)
  let rules := ((moving ++ ended).map fun number => (t.item number).rule).eraseDups
  let v := t.system.vocabulary
  match rules with
  | [rule] => v.auxiliaryFrom ≤ rule && rule < v.names.size
  | _ => false

/-- Decides a token in a state of a core, given the items that may end before the token. -/
def decision (facts : CoreFacts) (token : Nat) (ended : List Nat) : Decision :=
  let shifts := facts.reads.contains token
  match ended.foldl t.addEnd none with
  | none => ⟨[], shifts, false⟩
  | some ends =>
      if !shifts then ⟨ends.items, false, false⟩
      else if t.isRepetition facts token ended then ⟨ends.items, true, true⟩
      else
        let orders := t.shiftOrders facts token ends
        match orders.contains .gt, orders.contains .lt with
        | true, false => ⟨[], true, false⟩
        | false, true => ⟨ends.items, false, false⟩
        | true, true => ⟨ends.items, true, false⟩
        | false, false =>
            if ends.sides.all (· == some .left) then ⟨ends.items, false, false⟩
            else if ends.sides.all (· == some .right) then ⟨[], true, false⟩
            else ⟨ends.items, true, false⟩

end ItemTable

end ModuleTrace.Grammar
