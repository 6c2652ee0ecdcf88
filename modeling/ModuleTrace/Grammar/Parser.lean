import ModuleTrace.Grammar.Recovery

/-!
# The parser

Every head reads a token where it stands and acts on it until the token is taken; then the
heads are weighed against each other. Parsing never fails: a text that does not fit gives a
tree with errors in it.
-/

namespace ModuleTrace.Grammar.Parsing

variable (language : Language) (t : Text)

/-- Whether a head has read something since its last error. -/
private def hasAdvanced (s : Stack) (countAtError : Nat) : Nat → Nat → Bool
  | 0, _ => false
  | fuel + 1, number =>
      let node := s.node number
      match node.links with
      | ⟨below, some tree⟩ :: _ =>
          if 0 < tree.stop - tree.before then true
          else if countAtError < node.count && tree.cost = 0 then
            hasAdvanced s countAtError fuel below
          else false
      | _ => false

private def advanced (s : Stack) (head : Nat) : Bool :=
  (s.top head).cost = 0 || hasAdvanced s (s.head head).countAtError s.nodes.size (s.head head).node

private inductive Lexed where
  | layout (number start stop : Nat)
  | plain (number start stop : Nat)
  | skipped (start stop : Nat)

/-- Where reading starts: a mark of byte order at the head of a text is no part of it. -/
private def textStart (position : Nat) : Nat :=
  if position = 0 && t.peek 0 == '\ufeff' then 1 else position

private def readLayoutAt (s : Stack) (head state position : Nat) (recovering : Bool) :
    Option Lexed :=
  let known := fun token =>
    if recovering then true
    else language.table.knows state token
  match language.reader.readLayout t known position with
  | none => none
  | some (number, start, stop) =>
      let empty := stop ≤ position
      let next := language.next state (.symbol number)
      if empty && (recovering || !advanced s head || next = state) then none
      else some (.layout number start stop)

/-- Reads at a position, first as the state expects, then anything that recovery looks for,
then that again behind characters passed over. -/
private def lexAux (s : Stack) (head state origin : Nat) :
    Nat → Nat → Bool → Option (Nat × Nat) → Lexed
  | 0, position, _, skipped =>
      match skipped with
      | some (start, stop) => .skipped start stop
      | none => .skipped position position
  | fuel + 1, position, recovering, skipped =>
      let finish := fun (found : Lexed) =>
        match skipped with
        | some (start, stop) => .skipped start stop
        | none => found
      match readLayoutAt language t s head state position recovering with
      | some found => finish found
      | none =>
          let expected :=
            if recovering then language.reader.recoverable
            else (language.table.state state).tokens.union language.vocabulary.extras
          match language.reader.read t expected (recovering || expected.contains 0) position with
          | .token number start stop => finish (.plain number start stop)
          | .nothing start stop =>
              if !recovering then lexAux s head state origin fuel origin true skipped
              else
                let (first, last) := skipped.getD (start, start)
                if stop = last then
                  if t.size ≤ stop then .skipped first last
                  else lexAux s head state origin fuel (stop + 1) true (some (first, stop + 1))
                else lexAux s head state origin fuel stop true (some (first, stop))

def nextToken (head : Nat) : Parsing Tree := do
  let s ← stack
  let top := s.top head
  let origin := textStart t top.position
  let found :=
    lexAux language t s head top.state origin (2 * t.size + 8) origin (top.state = 0) none
  match found with
  | .layout number start stop => return language.leaf (.symbol number) top.position start stop false
  | .skipped start stop => return language.leaf .error top.position start stop false
  | .plain number start stop =>
      if number = language.reader.word then
        match language.reader.keyword? t start stop with
        | none => return language.leaf (.symbol number) top.position start stop false
        | some keyword =>
            let number :=
              if top.state = 0 || language.table.knows top.state keyword then keyword else number
            return language.leaf (.symbol number) top.position start stop true
      else return language.leaf (.symbol number) top.position start stop false

private inductive Outcome where
  | done
  | reduced (made : Option Nat)

private def act (head : Nat) (token : Tree) : List Action → Option Nat → Parsing Outcome
  | [], made => return .reduced made
  | .shift _ true :: rest, made => act head token rest made
  | .shift target false :: _, _ => do
      modifyStack (·.push head (some (token.setExtra false)) target)
      return .done
  | .pass :: _, _ => do
      let state := ((← stack).top head).state
      modifyStack (·.push head (some (token.setExtra true)) state)
      return .done
  | .reduce item :: rest, made => do
      let new ← reduce language t head item
      act head token rest (new <|> made)
  | .accept :: _, _ => do
      accept language t head token
      return .done

private def pause (head : Nat) (token : Tree) : Parsing Unit :=
  modifyStack fun s =>
    s.modifyHead head fun h =>
      { h with status := .paused token, countAtError := (s.node h.node).count }

private def advanceAux (head : Nat) : Nat → Tree → Parsing Unit
  | 0, _ => modifyStack (·.setStatus head .halted)
  | fuel + 1, token => do
      let state := ((← stack).top head).state
      if state = 0 && language.hasAction 0 token.label then recover language t head token
      else
        let actions :=
          match token.label with
          | .symbol number => if state = 0 then [] else language.table.actions state number
          | _ => []
        match ← act language t head token actions none with
        | .done => return
        | .reduced (some made) =>
            modifyStack (·.replaceHead made head)
            advanceAux head fuel token
        | .reduced none =>
            let word := language.reader.word
            if token.info.isKeyword && token.label ≠ .symbol word
                && language.hasAction state (.symbol word) then
              advanceAux head fuel (token.asWord word)
            else if state = 0 then recover language t head token
            else pause head token

def advance (head : Nat) : Parsing Unit := do
  let token ← nextToken language t head
  advanceAux language t head (64 * (t.size + 64)) token

/-- Weighs a head against those before it: the number of the head to go on with. -/
private def settle : Nat → Nat → Nat → Standing → Parsing Nat
  | 0, head, _, _ => return head + 1
  | fuel + 1, head, other, own => do
      if head ≤ other then return head + 1
      else
        match (← standing other).compare own with
        | .takeLeft =>
            modifyStack (·.removeHead head)
            return head
        | .preferLeft | .none =>
            if ← tryMerge other head then return head
            else settle fuel head (other + 1) own
        | .preferRight =>
            if ← tryMerge other head then return head
            else
              modifyStack fun s => { s with heads := s.heads.swapIfInBounds head other }
              settle fuel head (other + 1) own
        | .takeRight =>
            modifyStack (·.removeHead other)
            settle fuel (head - 1) other own

private def settleAll : Nat → Nat → Option Nat → Parsing (Option Nat)
  | 0, _, least => return least
  | fuel + 1, head, least => do
      let s ← stack
      if s.size ≤ head then return least
      else if (s.head head).status.isHalted then
        modifyStack (·.removeHead head)
        settleAll fuel head least
      else
        let own ← standing head
        let least := if own.inError then least else some (min own.cost (least.getD own.cost))
        let next ← settle (2 * s.size + 2) head 0 own
        settleAll fuel next least

private def resumeOne : Nat → Nat → Nat → Bool → Option Nat → Parsing (Option Nat)
  | 0, _, _, _, least => return least
  | fuel + 1, head, last, found, least => do
      if last ≤ head then return least
      else
        let run ← get
        match (run.stack.head head).status with
        | .paused token =>
            if !found && run.accepted < parseLimit then
              let cost ← errorCost head
              modifyStack (·.setStatus head .active)
              beginRecovery language t head token
              resumeOne fuel (head + 1) last true (some cost)
            else
              modifyStack (·.removeHead head)
              resumeOne fuel head (last - 1) found least
        | _ => resumeOne fuel (head + 1) last true least

/-- Weighs all heads, gives up those that are worse, and lets one paused head recover if it is
the best. Gives the least cost of a head, if any is left. -/
def condense : Parsing (Option Nat) := do
  let size := (← stack).size
  let least ← settleAll (4 * (size + 2) * (size + 2)) 0 none
  modifyStack fun s => { s with heads := s.heads.take parseLimit }
  let size := (← stack).size
  resumeOne language t (2 * size + 2) 0 size false least

private def advanceHead (head : Nat) : Nat → Nat → Parsing Nat
  | 0, last => return last
  | fuel + 1, last => do
      if (← stack).size ≤ head || !((← stack).head head).status.isActive then return last
      else
        advance language t head
        let s ← stack
        if s.size ≤ head then return last
        else
          let position := (s.top head).position
          if last < position || (0 < head && position = last) then return position
          else advanceHead head fuel last

private def advanceAll : Nat → Nat → Nat → Parsing Nat
  | 0, _, last => return last
  | fuel + 1, head, last => do
      if (← stack).size ≤ head then return last
      else
        let last ← advanceHead language t head (64 * (t.size + 64)) last
        advanceAll fuel (head + 1) last

private def parseAux : Nat → Nat → Parsing Unit
  | 0, _ => return
  | fuel + 1, last => do
      let last ← advanceAll language t (64 * (t.size + 64)) 0 last
      if (← stack).size = 0 then return
      else
        let least ← condense language t
        let finished := (← get).finished
        match finished, least with
        | some _, none => return
        | some tree, some cost => if tree.cost < cost then return else parseAux fuel last
        | none, _ => parseAux fuel last

end Parsing

/-- The tree of a text. The number of rounds is bounded by the number of tokens that can be
read, empty ones included. -/
def Language.parse (language : Language) (t : Text) : Option Tree :=
  let run : Run := ⟨Stack.start language.table.start, none, 0⟩
  ((Parsing.parseAux language t (64 * (t.size + 64)) 0).run run).2.finished

end ModuleTrace.Grammar
