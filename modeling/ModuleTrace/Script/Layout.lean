import ModuleTrace.Script.Lexeme

/-!
# Tokens that depend on layout

A semicolon may be left out at the end of a line, a question mark may open a conditional or
belong to an operator, and the text of templates and of markup runs up to marks that mean
something elsewhere. These tokens are found by looking ahead, and only where the parser
expects them.
-/

namespace ModuleTrace.Script

open Grammar (Text)

inductive LayoutToken where
  | semicolon
  | templateText
  | conditionalMark
  | htmlComment
  | markupText
  deriving DecidableEq, Repr

/-- What the parser expects at a place, as far as layout depends on it. -/
structure LayoutContext where
  semicolon : Bool
  templateText : Bool
  conditionalMark : Bool
  htmlComment : Bool
  /-- The operator that only an operand can precede. -/
  disjunction : Bool
  escape : Bool
  pattern : Bool
  markupText : Bool
  /-- The end of a signature that has no body. -/
  signatureEnd : Bool
  deriving Inhabited

structure LayoutMatch where
  token : LayoutToken
  start : Nat
  stop : Nat
  deriving Repr

namespace Layout

/-- What lies between a place and the next token, blanks and comments left out. -/
inductive GapEnd where
  /-- Blanks and comments were left out. -/
  | clear
  /-- A comment within the line ends the gap. -/
  | sameLine
  /-- A slash that opens no comment. -/
  | slash
  deriving DecidableEq

structure Gap where
  ending : GapEnd
  stop : Nat
  sawComment : Bool

private inductive BlockEnd where
  | unclosed (stop : Nat) (sawLine : Bool)
  | closed (stop : Nat) (sawLine : Bool)

private def blockEnd (t : Text) : Nat → Nat → Bool → BlockEnd
  | 0, i, sawLine => .unclosed i sawLine
  | fuel + 1, i, sawLine =>
      let c := t.peek i
      if c == '\x00' then .unclosed i sawLine
      else if c == '*' then
        if t.peek (i + 1) == '/' then .closed (i + 2) sawLine
        else blockEnd t fuel (i + 1) sawLine
      else blockEnd t fuel (i + 1) (sawLine || c == '\n' || isLineSeparator c)

/-- Passes blanks and comments. Unless `across` holds, a block comment that is not followed by
another one ends the gap. -/
private def gapAux (t : Text) (across : Bool) : Nat → Nat → Bool → Bool → Gap
  | 0, i, _, sawComment => ⟨.clear, i, sawComment⟩
  | fuel + 1, i, sawLine, sawComment =>
      let i := t.runEnd isPlainBlank i
      if t.peek i != '/' then ⟨.clear, i, sawComment⟩
      else if t.peek (i + 1) == '/' then
        let stop := t.runEnd (fun c => c != '\x00' && c != '\n' && !isLineSeparator c) (i + 2)
        gapAux t across fuel stop sawLine true
      else if t.peek (i + 1) == '*' then
        match blockEnd t (t.size - i) (i + 2) sawLine with
        | .unclosed stop sawLine => gapAux t across fuel stop sawLine sawComment
        | .closed stop sawLine =>
            if t.peek stop != '/' && !across then
              ⟨if sawLine then .clear else .sameLine, stop, true⟩
            else gapAux t across fuel stop sawLine true
      else ⟨.slash, i + 1, sawComment⟩

def gap (t : Text) (across : Bool) (i : Nat) : Gap :=
  gapAux t across (t.size + 1) i false false

/-- Outcome of the search for a semicolon that was left out: whether it was, and where the
search stopped. -/
structure Omission where
  omitted : Bool
  sawComment : Bool
  stop : Nat

private def wordAhead (t : Text) : List Char → Nat → Option Nat
  | [], i => some i
  | c :: rest, i => if t.peek i == c then wordAhead t rest (i + 1) else none

/-- Marks at the head of a line that continue a statement. -/
private def typedContinuations : List Char :=
  ['\x60', ',', '.', ';', '*', '%', '>', '<', '=', '?', '^', '|', '&', '/', ':']

private def plainContinuations : List Char :=
  ['\x60', ',', ':', ';', '*', '%', '>', '<', '=', '[', '(', '?', '^', '|', '&', '/']

/-- Whether a line may start at a position without continuing the statement before it. -/
private def startsStatement (typed : Bool) (context : LayoutContext) (t : Text) (i : Nat) : Bool :=
  let c := t.peek i
  if typed && typedContinuations.contains c then
    false
  else if typed && c == '\x7b' && context.signatureEnd then false
  else if typed && (c == '(' || c == '[') && context.disjunction then false
  else if !typed && plainContinuations.contains c then
    false
  else if !typed && c == '.' then (t.peek (i + 1)).isDigit
  else if c == '+' then t.peek (i + 1) == '+'
  else if c == '-' then t.peek (i + 1) == '-'
  else if c == '!' then t.peek (i + 1) != '='
  else if c == 'i' then
    if t.peek (i + 1) != 'n' then true
    else if !(t.peek (i + 2)).isAlpha then false
    else
      match wordAhead t "stanceof".toList (i + 2) with
      | none => true
      | some stop => (t.peek stop).isAlpha
  else true

private def omissionAux (typed : Bool) (context : LayoutContext) (t : Text) :
    Nat → Nat → Bool → Omission
  | 0, i, sawComment => ⟨false, sawComment, i⟩
  | fuel + 1, i, sawComment =>
      if t.peek i == '\x00' then ⟨true, sawComment, i⟩
      else
        let found := if t.peek i == '/' then gap t false i else ⟨.sameLine, i, false⟩
        let sawComment := sawComment || found.sawComment
        let i := found.stop
        let c := t.peek i
        if found.ending = .slash then ⟨false, sawComment, i⟩
        else if found.ending = .clear && !context.disjunction && c != ',' && c != '=' then
          ⟨true, sawComment, i⟩
        else if c == '\x7d' then
          if typed then
            let next := t.runEnd isPlainBlank (i + 1)
            ⟨t.peek next != ':' || context.disjunction, sawComment, next⟩
          else ⟨true, sawComment, i⟩
        else if i = 0 then ⟨true, sawComment, i⟩
        else if c == '\n' || isLineSeparator c then
          let next := gap t true (i + 1)
          let sawComment := sawComment || next.sawComment
          if next.ending = .slash then ⟨false, sawComment, next.stop⟩
          else ⟨startsStatement typed context t next.stop, sawComment, next.stop⟩
        else if !isPlainBlank c then ⟨false, sawComment, i⟩
        else omissionAux typed context t fuel (i + 1) sawComment

def omission (typed : Bool) (context : LayoutContext) (t : Text) (i : Nat) : Omission :=
  omissionAux typed context t (t.size + 1) i false

/-- A question mark that is not part of an operator. -/
def conditionalMark (typed : Bool) (t : Text) (i : Nat) : Option LayoutMatch :=
  let start := t.runEnd isPlainBlank i
  let found : LayoutMatch := ⟨.conditionalMark, start, start + 1⟩
  if t.peek start != '?' then none
  else
    let c := t.peek (start + 1)
    if c == '?' || (typed && c == '.') then none
    else
      let next := if typed then t.runEnd isPlainBlank (start + 1) else start + 1
      let d := t.peek next
      if typed && (d == ':' || d == ')' || d == ',') then none
      else if d == '.' then if (t.peek (next + 1)).isDigit then some found else none
      else some found

private def templateAux (t : Text) (start : Nat) : Nat → Nat → Option LayoutMatch
  | 0, _ => none
  | fuel + 1, i =>
      let found := if start < i then some ⟨.templateText, start, i⟩ else none
      let c := t.peek i
      if c == '\x60' || c == '\\' then found
      else if c == '\x00' then none
      else if c == '$' && t.peek (i + 1) == '\x7b' then found
      else templateAux t start fuel (i + 1)

/-- Text of a template, up to its end, an escape or a substitution. -/
def templateText (t : Text) (i : Nat) : Option LayoutMatch :=
  templateAux t i (t.size + 1) i

private def markupAux (t : Text) : Nat → Nat → Bool → Bool → Nat × Bool
  | 0, i, _, sawText => (i, sawText)
  | fuel + 1, i, atLineStart, sawText =>
      let c := t.peek i
      if ['\x00', '<', '>', '\x7b', '\x7d', '&'].contains c then (i, sawText)
      else if c == '\n' then markupAux t fuel (i + 1) true sawText
      else
        let atLineStart := atLineStart && isPlainBlank c
        markupAux t fuel (i + 1) atLineStart (sawText || !atLineStart)

/-- Text between tags, unless it only breaks and indents lines. -/
def markupText (t : Text) (i : Nat) : Option LayoutMatch :=
  match markupAux t (t.size + 1) i false false with
  | (stop, true) => some ⟨.markupText, i, stop⟩
  | (_, false) => none

/-- A comment in the manner of markup, to the end of the line. -/
def htmlComment (t : Text) (i : Nat) : Option LayoutMatch :=
  let start := t.runEnd (fun c => isPlainBlank c || isLineSeparator c) i
  let body :=
    if t.isAt "<!--".toList start then some (start + 4)
    else if t.isAt "-->".toList start then some (start + 3)
    else none
  body.map fun i =>
    ⟨.htmlComment, start, t.runEnd (fun c => c != '\x00' && c != '\n' && !isLineSeparator c) i⟩

/-- The layout token at a position. Where template text and a semicolon are both expected, the
parser is recovering, and layout tells it nothing. -/
def scan (typed : Bool) (context : LayoutContext) (t : Text) (i : Nat) : Option LayoutMatch :=
  if context.templateText then
    if context.semicolon then none else templateText t i
  else
    match (if context.markupText then markupText t i else none) with
    | some found => some found
    | none =>
        if context.semicolon || context.signatureEnd then
          let result := omission typed context t i
          if result.omitted then some ⟨.semicolon, i, i⟩
          else if !result.sawComment && context.conditionalMark && t.peek result.stop == '?' then
            conditionalMark typed t result.stop
          else none
        else if context.conditionalMark then conditionalMark typed t i
        else if context.htmlComment && !context.disjunction && !context.escape
            && !context.pattern then htmlComment t i
        else none

end Layout

end ModuleTrace.Script
