import ModuleTrace.Grammar.Table
import ModuleTrace.Grammar.Text

/-!
# Trees under construction

While a text is parsed, every symbol read or built is a tree. A tree carries what choosing
between parses needs: the cost of the errors in it, the weight of its productions, and how much
of it will be visible.
-/

namespace ModuleTrace.Grammar

inductive Label where
  | symbol (number : Nat)
  /-- A part of the text that fits no production. -/
  | error
  /-- A token that recovery has passed over; a run of them is one tree. -/
  | skipped
  deriving DecidableEq, Repr, Inhabited

namespace Label

def isError (l : Label) : Bool :=
  match l with
  | .symbol _ => false
  | _ => true

def number? (l : Label) : Option Nat :=
  match l with
  | .symbol number => some number
  | _ => none

/-- Order of labels: symbols by number, then the two kinds of error. -/
def rank (l : Label) : Nat × Nat :=
  match l with
  | .symbol number => (0, number)
  | .skipped => (1, 0)
  | .error => (1, 1)

end Label

structure TreeInfo where
  label : Label
  /-- Where the blanks before the tree start. -/
  before : Nat
  start : Nat
  stop : Nat
  isVisible : Bool
  isExtra : Bool
  isMissing : Bool
  /-- A word that is a keyword somewhere, whatever it is here. -/
  isKeyword : Bool
  cost : Nat
  weight : Int
  visibleChildren : Nat
  visibleBelow : Nat
  /-- The item that was ended to build the tree. -/
  item : Option Nat
  deriving Inhabited

inductive Tree where
  | node (info : TreeInfo) (children : List Tree)
  deriving Inhabited

namespace Tree

structure Costs where
  recovery : Nat := 500
  missing : Nat := 110
  skippedTree : Nat := 100
  skippedByte : Nat := 1
  skippedLine : Nat := 30

def costs : Costs := {}

def info : Tree → TreeInfo
  | node info _ => info

def children : Tree → List Tree
  | node _ children => children

@[inline] def label (t : Tree) : Label := t.info.label
@[inline] def before (t : Tree) : Nat := t.info.before
@[inline] def start (t : Tree) : Nat := t.info.start
@[inline] def stop (t : Tree) : Nat := t.info.stop
@[inline] def cost (t : Tree) : Nat := t.info.cost
@[inline] def weight (t : Tree) : Int := t.info.weight
@[inline] def isExtra (t : Tree) : Bool := t.info.isExtra

def setExtra (isExtra : Bool) : Tree → Tree
  | node info children => node { info with isExtra } children

def addWeight (weight : Int) : Tree → Tree
  | node info children => node { info with weight := info.weight + weight } children

def asWord (word : Nat) : Tree → Tree
  | node info children => node { info with label := .symbol word, isVisible := true } children

def leaf (isVisible : Bool) (label : Label) (before start stop : Nat) (isKeyword : Bool) : Tree :=
  node { label, before, start, stop, isVisible, isExtra := label = .symbol 0, isMissing := false
         isKeyword, cost := 0, weight := 0, visibleChildren := 0, visibleBelow := 0
         item := none } []

/-- A token that is not in the text but would make it fit. -/
def missing (isVisible : Bool) (token position : Nat) : Tree :=
  node { label := .symbol token, before := position, start := position, stop := position
         isVisible, isExtra := false, isMissing := true, isKeyword := false
         cost := costs.missing + costs.recovery, weight := 0, visibleChildren := 0
         visibleBelow := 0, item := none } []

/-- Cost of the characters between two positions when they fit nothing. -/
def skipCost (t : Text) (start stop : Nat) : Nat :=
  costs.skippedByte * (t.byteAt stop - t.byteAt start)
    + costs.skippedLine * (t.rowAt stop - t.rowAt start)

/-- What a child that is an error's part adds to its cost. -/
private def strayCost (child : Tree) : Nat :=
  if child.isExtra || (child.label = .error && child.children.isEmpty) then 0
  else if child.info.isVisible then costs.skippedTree
  else costs.skippedTree * child.info.visibleChildren

private structure Sum where
  cost : Nat := 0
  weight : Int := 0
  visibleChildren : Nat := 0
  visibleBelow : Nat := 0
  steps : List Step

private def Sum.add (isError : Bool) (sum : Sum) (child : Tree) : Sum :=
  let renamed := !child.isExtra && (sum.steps.head?.bind Step.as).isSome
  let shown := renamed || child.info.isVisible
  { cost := sum.cost + (if child.label = .skipped then 0 else child.cost)
      + (if isError then strayCost child else 0)
    weight := sum.weight + child.weight
    visibleChildren := sum.visibleChildren + (if shown then 1 else child.info.visibleChildren)
    visibleBelow := sum.visibleBelow + child.info.visibleBelow + (if shown then 1 else 0)
    steps := if child.isExtra then sum.steps else sum.steps.tail }

def build (t : Text) (isVisible : Bool) (label : Label) (steps : List Step) (item : Option Nat)
    (position : Nat) (children : List Tree) : Tree :=
  let sum := children.foldl (Sum.add label.isError) ⟨0, 0, 0, 0, steps⟩
  let (before, start) :=
    match children with
    | [] => (position, position)
    | first :: _ => (first.before, first.start)
  let stop := (children.getLast?.map Tree.stop).getD position
  let own := if label.isError then costs.recovery + skipCost t start stop else 0
  node { label, before, start, stop, isVisible, isExtra := false, isMissing := false
         isKeyword := false, cost := sum.cost + own, weight := sum.weight
         visibleChildren := sum.visibleChildren, visibleBelow := sum.visibleBelow, item } children

def nodeCount (t : Tree) : Nat :=
  t.info.visibleBelow + (if t.info.isVisible then 1 else 0)
    + (if t.label = .skipped then 1 else 0)

private def compareLabels (a b : Label) : Ordering :=
  (compare a.rank.1 b.rank.1).then (compare a.rank.2 b.rank.2)

mutual

def compareShapes : Tree → Tree → Ordering
  | node a as, node b bs =>
      match compareLabels a.label b.label, compare as.length bs.length with
      | .eq, .eq => compareAll as bs
      | .eq, c => c
      | c, _ => c

def compareAll : List Tree → List Tree → Ordering
  | a :: as, b :: bs =>
      match compareShapes a b with
      | .eq => compareAll as bs
      | c => c
  | _, _ => .eq

end

/-- Whether another tree of one text is the better choice: the one of less cost, then of more
weight, then, when both are free of errors, the one that comes first. -/
def prefersOther (own other : Tree) : Bool :=
  if other.cost ≠ own.cost then other.cost < own.cost
  else if other.weight ≠ own.weight then own.weight < other.weight
  else 0 < own.cost || compareShapes own other == .gt

/-- Whether two trees are the same as far as later choices can see. -/
def looksLike (a b : Tree) : Bool :=
  a.label = b.label
    && ((0 < a.cost && 0 < b.cost)
      || (a.start - a.before = b.start - b.before && a.stop - a.start = b.stop - b.start
        && a.children.length = b.children.length && a.isExtra = b.isExtra))

end Tree

def splitExtras (trees : List Tree) : List Tree × List Tree :=
  let reversed := trees.reverse
  ((reversed.dropWhile Tree.isExtra).reverse, (reversed.takeWhile Tree.isExtra).reverse)

end ModuleTrace.Grammar
