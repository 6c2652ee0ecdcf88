import ModuleTrace.Grammar.Tree

/-!
# The shared stack

Several parses of one text share their stacks. A stack is a graph of nodes, each with the
parser state at its position and links to the nodes below, a tree on every link; a head is the
top node of one parse. Heads that meet in one state and position are merged, and what lies
between two nodes is read off along every path.
-/

namespace ModuleTrace.Grammar

structure StackLink where
  below : Nat
  /-- The tree between the two nodes; none where recovery begins. -/
  tree : Option Tree
  deriving Inhabited

structure StackNode where
  state : Nat
  position : Nat
  links : List StackLink
  /-- Cost, weight and number of nodes of all trees below. -/
  cost : Nat
  weight : Int
  count : Nat
  deriving Inhabited

inductive HeadStatus where
  | active
  /-- Waits for recovery at a token that no action takes. -/
  | paused (token : Tree)
  | halted
  deriving Inhabited

/-- A state that a parse has passed: where, how deep in its stack, and which. -/
structure Landmark where
  position : Nat
  depth : Nat
  state : Nat
  deriving DecidableEq, Repr, Inhabited

structure Head where
  node : Nat
  status : HeadStatus
  /-- Number of nodes when the last error was met. -/
  countAtError : Nat
  landmarks : Option (List Landmark)
  deriving Inhabited

structure Stack where
  nodes : Array StackNode
  heads : Array Head
  deriving Inhabited

/-- Trees from one node up to the head, and the head made for the node. -/
structure Stretch where
  trees : List Tree
  head : Nat
  deriving Inhabited

namespace HeadStatus

def isActive : HeadStatus → Bool
  | .active => true
  | _ => false

def isPaused : HeadStatus → Bool
  | .paused _ => true
  | _ => false

def isHalted : HeadStatus → Bool
  | .halted => true
  | _ => false

end HeadStatus

namespace Stack

def start (state : Nat) : Stack :=
  { nodes := #[⟨state, 0, [], 0, 0, 0⟩]
    heads := #[⟨0, .active, 0, none⟩] }

@[inline] def node (s : Stack) (number : Nat) : StackNode :=
  s.nodes.getD number default

@[inline] def head (s : Stack) (number : Nat) : Head :=
  s.heads.getD number default

@[inline] def top (s : Stack) (head : Nat) : StackNode :=
  s.node (s.head head).node

@[inline] def size (s : Stack) : Nat :=
  s.heads.size

def modifyHead (s : Stack) (number : Nat) (f : Head → Head) : Stack :=
  { s with heads := s.heads.modify number f }

def setStatus (s : Stack) (number : Nat) (status : HeadStatus) : Stack :=
  s.modifyHead number fun head => { head with status }

def removeHead (s : Stack) (number : Nat) : Stack :=
  { s with heads := s.heads.eraseIdxIfInBounds number }

def push (s : Stack) (head : Nat) (tree : Option Tree) (state : Nat) : Stack :=
  let below := (s.head head).node
  let under := s.node below
  let number := s.nodes.size
  let node : StackNode :=
    match tree with
    | some t =>
        { state, position := t.stop, links := [⟨below, tree⟩]
          cost := under.cost + t.cost, weight := under.weight + t.weight
          count := under.count + t.nodeCount }
    | none =>
        { state, position := under.position, links := [⟨below, none⟩]
          cost := under.cost, weight := under.weight, count := under.count }
  { nodes := s.nodes.push node
    heads := s.heads.modify head fun h =>
      { h with
        node := number
        countAtError := if tree.isNone then node.count else h.countAtError } }

private def sameTree (a b : Option Tree) : Bool :=
  match a, b with
  | none, none => true
  | some a, some b => a.looksLike b
  | _, _ => false

private def linkWeight (s : Stack) (link : StackLink) : Int :=
  (s.node link.below).weight + (link.tree.map Tree.weight).getD 0

private def raiseWeight (s : Stack) (number : Nat) (weight : Int) : Stack :=
  { s with nodes := s.nodes.modify number fun node =>
      { node with weight := max node.weight weight } }

/-- Links of a node beyond these are forgotten. -/
def linkLimit : Nat := 8

private def appendLink (s : Stack) (number : Nat) (link : StackLink) : Stack :=
  let below := s.node link.below
  let count := below.count + (link.tree.map Tree.nodeCount).getD 0
  let weight := s.linkWeight link
  { s with nodes := s.nodes.modify number fun node =>
      if node.links.length = linkLimit then node
      else
        { node with
          links := node.links ++ [link]
          count := max node.count count
          weight := max node.weight weight } }

private inductive LinkFit where
  /-- The node has this very link; the heavier tree stays. -/
  | same (index : Nat) (heavier : Bool)
  /-- An equal tree leads to another node of the same state, position and cost. -/
  | beside (node : Nat)
  | new

private def fit (s : Stack) (link : StackLink) : List StackLink → Nat → LinkFit
  | [], _ => .new
  | old :: rest, index =>
      if sameTree old.tree link.tree then
        if old.below = link.below then
          .same index (match old.tree, link.tree with
            | some a, some b => decide (a.weight < b.weight)
            | _, _ => false)
        else
          let a := s.node old.below
          let b := s.node link.below
          if a.state = b.state && a.position = b.position && a.cost = b.cost then
            .beside old.below
          else fit s link rest (index + 1)
      else fit s link rest (index + 1)

/-- Adds a link to a node, sharing what lies below where the trees look alike. -/
def addLink (number : Nat) (link : StackLink) : Nat → Stack → Stack
  | 0, s => s
  | fuel + 1, s =>
      if link.below = number then s
      else
        match s.fit link (s.node number).links 0 with
        | .same _ false => s
        | .same index true =>
            let weight := s.linkWeight link
            { s with nodes := s.nodes.modify number fun node =>
                { node with links := node.links.set index link, weight } }
        | .beside other =>
            let s := (s.node link.below).links.foldl (fun s l => addLink other l fuel s) s
            s.raiseWeight number (s.linkWeight link)
        | .new => s.appendLink number link

def canMerge (s : Stack) (a b : Nat) : Bool :=
  let x := s.top a
  let y := s.top b
  (s.head a).status.isActive && (s.head b).status.isActive
    && x.state = y.state && x.position = y.position && x.cost = y.cost

def merge (s : Stack) (a b : Nat) : Option Stack :=
  if s.canMerge a b then
    let target := (s.head a).node
    let s := (s.top b).links.foldl (fun s link => addLink target link s.nodes.size s) s
    let s :=
      if (s.node target).state = 0 then
        s.modifyHead a fun head => { head with countAtError := (s.node target).count }
      else s
    some (s.removeHead b)
  else none

/-- The first head of those before `bound` that takes another one in. -/
def mergeInto (s : Stack) (head bound : Nat) (except : Option Nat) : Option Stack :=
  (List.range bound).findSome? fun other =>
    if some other = except then none else s.merge other head

def replaceHead (s : Stack) (source target : Nat) : Stack :=
  if source = target then s
  else
    let own := s.head source
    let landmarks := own.landmarks <|> (s.head target).landmarks
    { s with
      heads := (s.heads.set! target { own with landmarks }).eraseIdxIfInBounds source }

/-- A path down the stack: the node reached and the trees passed, the lowest first. -/
structure Descent where
  node : Nat
  trees : List Tree
  /-- Links passed, extras left out. -/
  depth : Nat

/-- What to do at a node: take the stretch above it, and go no further. -/
structure Visit where
  takes : Bool
  stops : Bool

/-- Paths beyond these are not followed. -/
def pathLimit : Nat := 64

private structure Walk (σ : Type) where
  memory : σ
  stack : Stack
  stretches : List Stretch

private def addStretch (s : Stack) (origin : Nat) (stretches : List Stretch) (path : Descent) :
    Stack × List Stretch :=
  let leadsHere := fun (found : Stretch) => (s.head found.head).node = path.node
  match (stretches.reverse.findIdx? leadsHere) with
  | some fromEnd =>
      let index := stretches.length - fromEnd
      let head := (stretches[index - 1]?.map Stretch.head).getD 0
      (s, stretches.take index ++ [⟨path.trees, head⟩] ++ stretches.drop index)
  | none =>
      let head : Head := ⟨path.node, .active, (s.head origin).countAtError, none⟩
      ({ s with heads := s.heads.push head }, stretches ++ [⟨path.trees, s.heads.size⟩])

private def Descent.follow (path : Descent) (link : StackLink) : Descent :=
  match link.tree with
  | some tree =>
      ⟨link.below, tree :: path.trees, if tree.isExtra then path.depth else path.depth + 1⟩
  | none => ⟨link.below, path.trees, path.depth + 1⟩

/-- One round: every path goes on along the first link, and new paths along the others. -/
private def walkRound {σ : Type} (origin : Nat) (visit : σ → StackNode → Descent → σ × Visit)
    (w : Walk σ) (paths : List Descent) : Walk σ × List Descent :=
  let (w, kept, added, _) := paths.foldl (fun (w, kept, added, count) path =>
    let node := w.stack.node path.node
    let (memory, choice) := visit w.memory node path
    let w : Walk σ := { w with memory }
    let w : Walk σ :=
      if choice.takes then
        let (stack, stretches) := w.stack.addStretch origin w.stretches path
        { w with stack, stretches }
      else w
    match node.links with
    | [] => (w, kept, added, count - 1)
    | first :: others =>
        if choice.stops then (w, kept, added, count - 1)
        else
          let fresh := (others.take (pathLimit - count)).map path.follow
          (w, path.follow first :: kept, added ++ fresh, count + fresh.length))
    (w, [], [], paths.length)
  (w, kept.reverse ++ added)

private def walkAux {σ : Type} (origin : Nat) (visit : σ → StackNode → Descent → σ × Visit) :
    Nat → Walk σ → List Descent → Walk σ
  | 0, w, _ => w
  | fuel + 1, w, paths =>
      if paths.isEmpty then w
      else
        let (w, paths) := walkRound origin visit w paths
        walkAux origin visit fuel w paths

/-- Follows all paths down from a head. Every link leads to a node that was made before, so no
path is longer than the number of nodes. -/
def walk {σ : Type} (s : Stack) (head : Nat) (visit : σ → StackNode → Descent → σ × Visit)
    (memory : σ) : σ × Stack × List Stretch :=
  let w := walkAux head visit (s.nodes.size + 2) ⟨memory, s, []⟩ [⟨(s.head head).node, [], 0⟩]
  (w.memory, w.stack, w.stretches)

def pop (s : Stack) (head depth : Nat) : Stack × List Stretch :=
  (s.walk head (fun _ _ path =>
    let reached := path.depth = depth
    ((), ⟨reached, reached⟩)) ()).2

def popAll (s : Stack) (head : Nat) : Stack × List Stretch :=
  (s.walk head (fun _ node _ => ((), ⟨node.links.isEmpty, false⟩)) ()).2

/-- Takes the error at the top off a head, on the first path that has one. -/
def popError (s : Stack) (head : Nat) : Stack × List Stretch :=
  (s.walk head (fun found _ path =>
    match path.trees with
    | [] => (found, ⟨false, false⟩)
    | _ =>
        let isError := (path.trees.getLast?.map Tree.label) = some .error
        if !found && isError then (true, ⟨true, true⟩) else (found, ⟨false, true⟩)) false).2

/-- Landmarks deeper than this are not kept. -/
def landmarkDepth : Nat := 16

def landmarksOf (s : Stack) (head : Nat) : List Landmark :=
  let (found, _, _) := s.walk head (fun (found : List Landmark) node path =>
    if landmarkDepth < path.depth then (found, ⟨false, true⟩)
    else
      let known := (found.takeWhile fun mark => path.depth ≤ mark.depth).any fun mark =>
        mark.depth = path.depth && mark.state = node.state
      if known then (found, ⟨false, false⟩)
      else (⟨node.position, path.depth, node.state⟩ :: found, ⟨false, false⟩)) []
  found.reverse

end Stack

end ModuleTrace.Grammar
