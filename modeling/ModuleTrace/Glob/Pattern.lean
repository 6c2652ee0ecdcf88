/-!
# Patterns of paths

A pattern is a list of pieces. It is read in two steps: the text becomes lexemes, in which
escapes and character classes are told from marks, and the lexemes become pieces. Groups in
braces may stand inside one another.
-/

namespace ModuleTrace.Glob

inductive Fault where
  | unclosedClass
  | unopenedGroup
  | unclosedGroup
  | danglingEscape
  | reversedRange (first last : Char)
  deriving DecidableEq, Repr, Inhabited

def Fault.message : Fault → String
  | .unclosedClass => "unclosed character class; missing ']'"
  | .unopenedGroup =>
      "unopened alternate group; missing '\x7b' (maybe escape '\x7d' with '[\x7d]'?)"
  | .unclosedGroup =>
      "unclosed alternate group; missing '\x7d' (maybe escape '\x7b' with '[\x7b]'?)"
  | .danglingEscape => "dangling '\\'"
  | .reversedRange first last =>
      "invalid range; '" ++ first.toString ++ "' > '" ++ last.toString ++ "'"

def parseMessage (text : String) (fault : Fault) : String :=
  "error parsing glob '" ++ text ++ "': " ++ fault.message

structure CharClass where
  isNegated : Bool
  /-- First and last characters. -/
  ranges : List (Char × Char)
  deriving DecidableEq, Repr, Inhabited

inductive Lexeme where
  /-- A character that stands for itself unless it has a meaning where it stands. -/
  | mark (c : Char)
  /-- A character that stands for itself. -/
  | literal (c : Char)
  | oneOf (c : CharClass)
  | fault (f : Fault)
  deriving DecidableEq, Repr, Inhabited

structure OpenClass where
  /-- The text behind the bracket that opened the class. -/
  text : List Char
  isNegated : Bool := false
  /-- No character but a sign of negation was read. -/
  isFresh : Bool := true
  /-- A hyphen was read last, which may make a range. -/
  isPending : Bool := false
  /-- Ranges read, the latest first. -/
  ranges : List (Char × Char) := []
  deriving Inhabited

namespace OpenClass

def closed (r : OpenClass) : CharClass :=
  ⟨r.isNegated, (if r.isPending then ('-', '-') :: r.ranges else r.ranges).reverse⟩

private def extend (r : OpenClass) (c : Char) : Except Fault OpenClass :=
  match r.ranges with
  | (first, _) :: rest =>
      if c < first then .error (.reversedRange first c)
      else .ok { r with ranges := (first, c) :: rest, isPending := false }
  | [] => .ok { r with ranges := [(c, c)], isPending := false }

private def push (r : OpenClass) (c : Char) : OpenClass :=
  { r with ranges := (c, c) :: r.ranges, isFresh := false }

/-- Reads a character that does not end the class. The first one always stands for itself. -/
def read (r : OpenClass) (c : Char) : Except Fault OpenClass :=
  if r.isFresh then .ok (r.push c)
  else if r.isPending then r.extend c
  else if c = '-' then .ok { r with isPending := true }
  else .ok (r.push c)

end OpenClass

/-- Lexemes of a text in which a bracket opens no class. -/
def bareLexemes : List Char → List Lexeme
  | [] => []
  | ['\\'] => [.fault .danglingEscape]
  | '\\' :: c :: cs => .literal c :: bareLexemes cs
  | '[' :: cs => .literal '[' :: bareLexemes cs
  | c :: cs => .mark c :: bareLexemes cs

/-- Lexemes of a text, inside or outside a class. A class that is not closed is a fault; where
that is allowed, no bracket opens a class from there on. -/
def lexemes (allowsUnclosed : Bool) : Option OpenClass → List Char → List Lexeme
  | none, [] => []
  | none, ['\\'] => [.fault .danglingEscape]
  | none, '\\' :: c :: cs => .literal c :: lexemes allowsUnclosed none cs
  | none, ['['] => if allowsUnclosed then [.literal '['] else [.fault .unclosedClass]
  | none, '[' :: c :: cs =>
      if c = '!' || c = '^' then
        lexemes allowsUnclosed (some { text := c :: cs, isNegated := true }) cs
      else
        match OpenClass.read { text := c :: cs } c with
        | .ok r => lexemes allowsUnclosed (some r) cs
        | .error f => [.fault f]
  | none, c :: cs => .mark c :: lexemes allowsUnclosed none cs
  | some r, [] =>
      if allowsUnclosed then .literal '[' :: bareLexemes r.text else [.fault .unclosedClass]
  | some r, c :: cs =>
      if c = ']' && !r.isFresh then .oneOf r.closed :: lexemes allowsUnclosed none cs
      else
        match r.read c with
        | .ok r => lexemes allowsUnclosed (some r) cs
        | .error f => [.fault f]

inductive Piece where
  | literal (c : Char)
  /-- A byte that is no slash. -/
  | any
  /-- Bytes that are no slash. -/
  | many
  /-- No directory, or some directories, from the start. -/
  | above
  /-- Everything below a directory. -/
  | beneath
  /-- No directory, or some directories, between two others. -/
  | between
  | oneOf (c : CharClass)
  | choice (branches : List (List Piece))
  deriving Repr, Inhabited

/-- Pieces being read: the branch at hand, and around it the groups that are open, each with
the branch it stands in and its finished branches. All lists have the latest first. -/
structure Draft where
  branch : List Piece := []
  groups : List (List Piece × List (List Piece)) := []
  /-- The last character of the text that was read. -/
  last : Option Char := none
  deriving Inhabited

namespace Draft

def push (d : Draft) (p : Piece) (last : Char) : Draft :=
  { d with branch := p :: d.branch, last := some last }

/-- Two stars that mean no more than one. -/
def pushStars (d : Draft) : Draft :=
  { d with branch := .many :: .many :: d.branch, last := some '*' }

def openGroup (d : Draft) : Draft :=
  ⟨[], (d.branch, []) :: d.groups, some '\x7b'⟩

/-- A comma outside groups stands for itself. -/
def comma (d : Draft) : Draft :=
  match d.groups with
  | [] => d.push (.literal ',') ','
  | (outer, finished) :: groups => ⟨[], (outer, d.branch :: finished) :: groups, some ','⟩

def closeGroup (d : Draft) : Except Fault Draft :=
  match d.groups with
  | [] => .error .unopenedGroup
  | (outer, finished) :: groups =>
      .ok ⟨.choice ((d.branch :: finished).reverse.map List.reverse) :: outer, groups, some '\x7d'⟩

/-- Whether a double star may take the place of the separator before it. -/
def followsBorder (d : Draft) : Bool :=
  d.last = some '/' || (!d.groups.isEmpty && (d.last = some ',' || d.last = some '\x7b'))

/-- Puts a double star in the place of the piece before it; one double star takes in those
that follow it. -/
def replaceBorder (d : Draft) (p : Piece) (last : Char) : Draft :=
  match d.branch with
  | .above :: rest => { d with branch := .above :: rest, last := some last }
  | .beneath :: rest => { d with branch := .beneath :: rest, last := some last }
  | _ :: rest => { d with branch := p :: rest, last := some last }
  | [] => { d with branch := [p], last := some last }

def finish (d : Draft) : Except Fault (List Piece) :=
  match d.groups with
  | [] => .ok d.branch.reverse
  | _ => .error .unclosedGroup

end Draft

/-- Whether a double star ends here: at the end of the text or of a branch. -/
private def endsBranch (d : Draft) : List Lexeme → Bool
  | [] => true
  | .mark c :: _ => !d.groups.isEmpty && (c = ',' || c = '\x7d')
  | _ => false

def Draft.readAll : Draft → List Lexeme → Except Fault (List Piece)
  | d, [] => d.finish
  | _, .fault f :: _ => .error f
  | d, .literal c :: rest => readAll (d.push (.literal c) c) rest
  | d, .oneOf c :: rest => readAll (d.push (.oneOf c) ']') rest
  | d, .mark '*' :: .mark '*' :: .mark '/' :: rest =>
      if d.branch.isEmpty then readAll (d.push .above '/') rest
      else if d.followsBorder then readAll (d.replaceBorder .between '/') rest
      else readAll (d.pushStars.push (.literal '/') '/') rest
  | d, .mark '*' :: .mark '*' :: rest =>
      if d.branch.isEmpty then
        readAll (if rest.isEmpty then d.push .above '*' else d.pushStars) rest
      else if d.followsBorder && endsBranch d rest then readAll (d.replaceBorder .beneath '*') rest
      else readAll d.pushStars rest
  | d, .mark c :: rest =>
      match c with
      | '*' => readAll (d.push .many '*') rest
      | '?' => readAll (d.push .any '?') rest
      | '\x7b' => readAll d.openGroup rest
      | ',' => readAll d.comma rest
      | '\x7d' =>
          match d.closeGroup with
          | .ok d => readAll d rest
          | .error f => .error f
      | c => readAll (d.push (.literal c) c) rest

structure Pattern where
  pieces : List Piece
  deriving Repr, Inhabited

namespace Pattern

def parse (text : String) : Except Fault Pattern :=
  match Draft.readAll {} (lexemes false none text.toList) with
  | .ok pieces => .ok ⟨pieces⟩
  | .error f => .error f

/-- Reads a pattern in which a bracket that opens no class stands for itself. -/
def parseLenient (text : String) : Except Fault Pattern :=
  match Draft.readAll {} (lexemes true none text.toList) with
  | .ok pieces => .ok ⟨pieces⟩
  | .error f => .error f

end Pattern

end ModuleTrace.Glob
