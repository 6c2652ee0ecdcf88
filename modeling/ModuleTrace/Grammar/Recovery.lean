import ModuleTrace.Grammar.Parsing

/-!
# Recovery

Where no action takes a token, a parse is mended: a token may be taken as missing, trees may be
cut out down to a state that takes the token, or the token is passed over. Every way has a
cost, and the parses compete.
-/

namespace ModuleTrace.Grammar.Parsing

variable (language : Language) (t : Text)

/-- Items that a state may end, for one token or for every token, one for each rule and number
of children; and whether the state shifts. -/
private def possibleEnds (state : Nat) (token : Option Nat) : Bool × List Nat :=
  if state = 0 then (true, [])
  else
    let tokens :=
      match token with
      | some token => [token]
      | none => ((language.table.state state).tokens.toList.filter (· ≠ 0))
    tokens.foldl (fun (shifts, ends) token =>
      (language.table.actions state token).foldl (fun (shifts, ends) action =>
        match action with
        | .shift _ false => (true, ends)
        | .reduce number =>
            let item := language.table.items.item number
            let known := ends.any fun other =>
              let old := language.table.items.item other
              old.rule = item.rule && old.dot = item.dot
            (shifts, if known || item.dot = 0 then ends else ends ++ [number])
        | _ => (shifts, ends)) (shifts, ends)) (false, [])

private def reduceEach (head : Nat) : List Nat → Option Nat → Parsing (Option Nat)
  | [], last => return last
  | item :: rest, last => do
      let made ← reduce language t head item
      reduceEach head rest (made <|> last)

private def mergeBefore (first head : Nat) : Parsing Bool :=
  onStack fun stack =>
    let merged := ((List.range head).drop first).findSome? fun other => stack.merge other head
    match merged with
    | some stack => (stack, true)
    | none => (stack, false)

private def endAllAux (start first : Nat) (token : Option Nat) :
    Nat → Nat → Nat → Bool → Parsing Bool
  | 0, _, _, canShift => return canShift
  | fuel + 1, round, head, canShift => do
      let count := (← stack).size
      if count ≤ head then return canShift
      else if ← mergeBefore first head then
        endAllAux start first token fuel (round + 1) head canShift
      else
        let state := ((← stack).top head).state
        let (shifts, ends) := possibleEnds language state token
        let made ← reduceEach language t head ends none
        let next := if head = start then count else head + 1
        if shifts then endAllAux start first token fuel (round + 1) next true
        else
          match made with
          | some made =>
              if round < parseLimit then
                modifyStack (·.replaceHead made head)
                endAllAux start first token fuel (round + 1) head canShift
              else if token.isSome then
                modifyStack (·.removeHead head)
                endAllAux start first token fuel (round + 1) next canShift
              else endAllAux start first token fuel (round + 1) next canShift
          | none =>
              if token.isSome then modifyStack (·.removeHead head)
              endAllAux start first token fuel (round + 1) next canShift

/-- Ends every item that can be ended at a head, for one token or for every token, and says
whether some parse then takes the token. -/
def endAll (head : Nat) (token : Option Nat) : Parsing Bool := do
  let s ← stack
  endAllAux language t head s.size token (64 * (s.nodes.size + 64)) 0 head false

/-- Puts the error at the top of a head in front of what was cut out above it. -/
private def absorbError (head : Nat) (trees : List Tree) : Parsing (List Tree) := do
  let s ← stack
  let isError := fun (link : StackLink) => (link.tree.map Tree.label) = some .error
  if (s.top head).links.any isError then
    match ← onStack (·.popError head) with
    | [] => return trees
    | stretch :: _ =>
        modifyStack (·.replaceHead stretch.head head)
        return (stretch.trees.head?.map Tree.children).getD [] ++ trees
  else return trees

private def cutDownAux (goal : Nat) : List Stretch → Option Nat → Parsing Bool
  | [], last => return last.isSome
  | stretch :: rest, last => do
      let head := stretch.head
      if some head = last then cutDownAux goal rest last
      else if ((← stack).top head).state ≠ goal then
        modifyStack (·.setStatus head .halted)
        cutDownAux goal rest last
      else
        let trees ← absorbError head stretch.trees
        let (children, extras) := splitExtras trees
        if !children.isEmpty then
          let tree := (Tree.stray t 0 children).setExtra true
          modifyStack (·.push head (some tree) goal)
        for extra in extras do
          modifyStack (·.push head (some extra) goal)
        cutDownAux goal rest (some head)

def cutDown (head depth goal : Nat) : Parsing Bool := do
  let stretches ← onStack (·.pop head depth)
  cutDownAux t goal stretches none

private def returnToLandmark (head cost count heads : Nat) (label : Label) :
    List Landmark → Parsing Bool
  | [] => return false
  | mark :: rest => do
      let s ← stack
      let position := (s.top head).position
      let met := (List.range heads).any fun other =>
        (s.top other).state = mark.state && (s.top other).position = position
      if mark.state = 0 || mark.position = position || met then
        returnToLandmark head cost count heads label rest
      else
        let total := cost + mark.depth * Tree.costs.skippedTree
          + Tree.skipCost t mark.position position
        if ← betterExists head total then return false
        else if language.hasAction mark.state label then
          if ← cutDown t head (mark.depth + if 0 < count then 1 else 0) mark.state then
            return true
          else returnToLandmark head cost count heads label rest
        else returnToLandmark head cost count heads label rest

private def removeIdle (first : Nat) : Parsing Unit :=
  modifyStack fun s =>
    { s with heads := (s.heads.toList.zipIdx.filterMap fun (head, i) =>
        if i < first || head.status.isActive then some head else none).toArray }

private def skip (head count : Nat) (token : Tree) : Parsing Unit := do
  let isExtra := token.label.number?.any language.isExtra
  let token := if isExtra then token.setExtra true else token
  let tree := Tree.skipped t [token]
  if 0 < count then
    let stretches ← onStack (·.pop head 1)
    match stretches with
    | [] => modifyStack (·.push head (some tree) 0)
    | stretch :: rest =>
        if !rest.isEmpty then
          modifyStack fun s => { s with heads := s.heads.take (stretch.head + 1) }
        modifyStack (·.replaceHead stretch.head head)
        let tree := Tree.skipped t (stretch.trees ++ [tree])
        modifyStack (·.push head (some tree) 0)
  else modifyStack (·.push head (some tree) 0)

def recover (head : Nat) (token : Tree) : Parsing Unit := do
  let s ← stack
  let heads := s.size
  let landmarks := (s.head head).landmarks.getD []
  let count ← nodesSinceError head
  let cost ← errorCost head
  let returned ←
    if token.label = .error then pure false
    else returnToLandmark language t head cost count heads token.label landmarks
  removeIdle heads
  if returned && parseLimit < (← stack).size then
    modifyStack (·.setStatus head .halted)
  else if token.label = .symbol 0 then
    let position := ((← stack).top head).position
    modifyStack (·.push head (some (Tree.stray t position [])) language.table.start)
    accept language t head token
  else
    let total := cost + Tree.costs.skippedTree + Tree.skipCost t token.before token.stop
    if ← betterExists head total then modifyStack (·.setStatus head .halted)
    else skip language t head count token

/-- Tokens that a state takes, apart from the end of the text. -/
private def candidates (state : Nat) : List Nat :=
  let v := language.vocabulary
  ((language.table.state state).tokens.union v.extras).toList.filter (· ≠ 0)

/-- Whether a token ends an item in a state before anything else. -/
private def endsFirst (state : Nat) (label : Label) : Bool :=
  match label with
  | .symbol token =>
      if state = 0 then false
      else
        match language.table.actions state token with
        | .reduce _ :: _ => true
        | _ => false
  | _ => false

/-- Tries tokens as missing, in their order, until one lets the next token be taken; at the end
of the text, until one lets any token be taken. -/
private def tryMissing (head position : Nat) (token : Tree) : List Nat → Parsing Bool
  | [] => return false
  | missing :: rest => do
      let s ← stack
      let state := (s.top head).state
      let after := language.next state (.symbol missing)
      if after = 0 || after = state || !endsFirst language after token.label then
        tryMissing head position token rest
      else
        let number := s.size
        let copy := { s.head head with landmarks := none }
        let tree := Tree.missing (language.isVisible missing) missing position
        modifyStack fun s => { s with heads := s.heads.push copy }
        modifyStack (·.push number (some tree) after)
        if ← endAll language t number (token.label.number?.filter (· ≠ 0)) then return true
        else tryMissing head position token rest

private def openRecovery (head first last position : Nat) (token : Tree) :
    Nat → Nat → Bool → Parsing Unit
  | 0, _, _ => return
  | fuel + 1, current, mended => do
      if last ≤ current then return
      else
        let state := ((← stack).top current).state
        let mended ←
          if mended || state = 0 then pure mended
          else tryMissing language t current position token (candidates language state)
        modifyStack (·.push current none 0)
        openRecovery head first last position token fuel
          (if current = head then first else current + 1) mended

def beginRecovery (head : Nat) (token : Tree) : Parsing Unit := do
  let first := (← stack).size
  let _ ← endAll language t head none
  let s ← stack
  let last := s.size
  openRecovery language t head first last (s.top head).position token (last + 1) head false
  for _ in [first:last] do
    let _ ← tryMerge head first
  modifyStack fun s =>
    let landmarks := s.landmarksOf head
    s.modifyHead head fun h => { h with landmarks := some landmarks }
  recover language t head token

end ModuleTrace.Grammar.Parsing
