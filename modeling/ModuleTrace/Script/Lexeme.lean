import ModuleTrace.Grammar.Text

/-!
# Token classes of scripts

Each class of tokens is a function from a position to the end of its longest token there. Words
and marks that are written one way only are no classes; the lexer compares them letter by
letter.
-/

namespace ModuleTrace.Script

open Grammar (Text)

/-- Characters that separate tokens and mean nothing else. -/
def isBlank (c : Char) : Bool :=
  let n := c.toNat
  (0x09 ≤ n && n ≤ 0x0d) || n == 0x20 || n == 0xa0 || n == 0x1680
    || (0x2000 ≤ n && n ≤ 0x200b) || n == 0x2028 || n == 0x2029 || n == 0x202f
    || n == 0x205f || n == 0x2060 || n == 0x3000 || n == 0xfeff

/-- The blanks of ASCII, to which layout is sensitive. -/
def isPlainBlank (c : Char) : Bool :=
  let n := c.toNat
  (0x09 ≤ n && n ≤ 0x0d) || n == 0x20

def isLineSeparator (c : Char) : Bool :=
  c == '\u2028' || c == '\u2029'

def isLineEnd (c : Char) : Bool :=
  c == '\n' || c == '\r' || isLineSeparator c

def isHexDigit (c : Char) : Bool :=
  c.isDigit || ('a' ≤ c && c ≤ 'f') || ('A' ≤ c && c ≤ 'F')

def isOctalDigit (c : Char) : Bool :=
  '0' ≤ c && c ≤ '7'

def isBinaryDigit (c : Char) : Bool :=
  c == '0' || c == '1'

/-- ASCII marks, none of which belongs to a name. -/
def isMark (c : Char) : Bool :=
  let n := c.toNat
  (0x21 ≤ n && n ≤ 0x2f && n != 0x24) || (0x3a ≤ n && n ≤ 0x40)
    || (0x5b ≤ n && n ≤ 0x5e) || n == 0x60 || (0x7b ≤ n && n ≤ 0x7e)

/-- Everything that is neither blank, control nor mark can be part of a name. -/
def isNamePart (c : Char) : Bool :=
  0x20 ≤ c.toNat && !isBlank c && !isMark c

def isNameStart (c : Char) : Bool :=
  isNamePart c && !c.isDigit

namespace Lexeme

def longest (ends : List (Option Nat)) : Option Nat :=
  ends.foldl (fun best found =>
    match best, found with
    | some a, some b => some (max a b)
    | none, b => b
    | a, none => a) none

private def nonempty (start stop : Nat) : Option Nat :=
  if start < stop then some stop else none

def numbered (t : Text) (i : Nat) : Option Nat :=
  if t.peek i == '\\' && t.peek (i + 1) == 'u' then
    if t.peek (i + 2) == '\x7b' then
      let stop := t.runEnd isHexDigit (i + 3)
      if i + 3 < stop && t.peek stop == '\x7d' then some (stop + 1) else none
    else
      let stop := t.runEndWithin isHexDigit 4 (i + 2)
      if stop = i + 6 then some stop else none
  else none

private def nameAux (t : Text) : Nat → Bool → Nat → Nat
  | 0, _, i => i
  | fuel + 1, first, i =>
      if t.peek i == '\\' then
        match numbered t i with
        | some stop => nameAux t fuel false stop
        | none => i
      else if t.holds i (if first then isNameStart else isNamePart) then
        nameAux t fuel false (i + 1)
      else i

def identifier (t : Text) (i : Nat) : Option Nat :=
  nonempty i (nameAux t (t.size - i) true i)

def privateName (t : Text) (i : Nat) : Option Nat :=
  if t.peek i == '#' then identifier t (i + 1) else none

private def groupedAux (t : Text) (digit : Char → Bool) : Nat → Nat → Nat
  | 0, i => i
  | fuel + 1, i =>
      if t.holds i digit then groupedAux t digit fuel (i + 1)
      else if t.peek i == '_' && t.holds (i + 1) digit then groupedAux t digit fuel (i + 2)
      else i

/-- Digits with single underscores between them. -/
def digits (digit : Char → Bool) (t : Text) (i : Nat) : Option Nat :=
  if t.holds i digit then some (groupedAux t digit (t.size - i) i) else none

private def isOneToNine (c : Char) : Bool :=
  '1' ≤ c && c ≤ '9'

/-- The whole part of a decimal number: at most one zero stands in front. -/
private def whole (t : Text) (i : Nat) : Option Nat :=
  let j := if t.peek i == '0' && t.holds (i + 1) isOneToNine then i + 1 else i
  if t.holds j isOneToNine then
    let k := if t.peek (j + 1) == '_' then j + 2 else j + 1
    some ((digits Char.isDigit t k).getD (j + 1))
  else if t.peek i == '0' then some (i + 1)
  else none

private def exponent (t : Text) (i : Nat) : Option Nat :=
  if t.peek i == 'e' || t.peek i == 'E' then
    let signed := t.peek (i + 1) == '+' || t.peek (i + 1) == '-'
    digits Char.isDigit t (if signed then i + 2 else i + 1)
  else none

private def inBase (small large : Char) (digit : Char → Bool) (t : Text) (i : Nat) : Option Nat :=
  if t.peek i == '0' && (t.peek (i + 1) == small || t.peek (i + 1) == large) then
    digits digit t (i + 2)
  else none

private def withExponent (t : Text) (i : Nat) : Nat :=
  (exponent t i).getD i

def number (t : Text) (i : Nat) : Option Nat :=
  let bases := longest [inBase 'x' 'X' isHexDigit t i, inBase 'b' 'B' isBinaryDigit t i,
    inBase 'o' 'O' isOctalDigit t i, digits Char.isDigit t i]
  let big := bases.bind fun stop => if t.peek stop == 'n' then some (stop + 1) else none
  let pointed := (whole t i).bind fun stop =>
    if t.peek stop == '.' then
      some (withExponent t ((digits Char.isDigit t (stop + 1)).getD (stop + 1)))
    else none
  let fraction :=
    if t.peek i == '.' then (digits Char.isDigit t (i + 1)).map (withExponent t) else none
  longest [bases, big, pointed, fraction, (whole t i).bind (exponent t)]

private def commentEnd (t : Text) : Nat → Nat → Option Nat
  | 0, _ => none
  | fuel + 1, i =>
      if t.peek i == '*' && t.peek (i + 1) == '/' then some (i + 2) else commentEnd t fuel (i + 1)

def comment (t : Text) (i : Nat) : Option Nat :=
  if t.isAt ['/', '/'] i then some (t.runEnd (fun c => !isLineEnd c) i)
  else if t.isAt ['/', '*'] i then commentEnd t (t.size - i) (i + 2)
  else none

def hashBang (t : Text) (i : Nat) : Option Nat :=
  if t.isAt ['#', '!'] i then some (t.runEnd (fun c => c != '\n') i) else none

/-- A character of markup written by its name or number, such as an ampersand. -/
def entity (t : Text) (i : Nat) : Option Nat :=
  let closed := fun start stop =>
    if start < stop && t.peek stop == ';' then some (stop + 1) else none
  if t.peek i == '&' then
    if t.peek (i + 1) == '#' then
      if t.peek (i + 2) == 'x' || t.peek (i + 2) == 'X' then
        closed (i + 3) (t.runEndWithin isHexDigit 6 (i + 3))
      else closed (i + 2) (t.runEndWithin Char.isDigit 5 (i + 2))
    else closed (i + 1) (t.runEndWithin Char.isAlpha 30 (i + 1))
  else none

private def isAsciiNameStart (c : Char) : Bool :=
  c.isAlpha || c == '_' || c == '$'

private def isAsciiNamePart (c : Char) : Bool :=
  c.isAlphanum || c == '_' || c == '$'

/-- A name of markup: one that has a dash in it, since others are identifiers. -/
def dashedName (t : Text) (i : Nat) : Option Nat :=
  if t.holds i isAsciiNameStart then
    let dash := t.runEnd isAsciiNamePart i
    if t.peek dash == '-' then
      some (t.runEnd (fun c => isAsciiNamePart c || c == '-') (dash + 1))
    else none
  else none

private def attributeAux (t : Text) (quote : Char) : Nat → Nat → Nat
  | 0, i => i
  | fuel + 1, i =>
      match t.get? i with
      | none => i
      | some c =>
          if c == '&' then
            match t.get? (i + 1) with
            | some d => if d == '#' || d.isAlpha then i else attributeAux t quote fuel (i + 2)
            | none => i
          else if c == quote then i
          else attributeAux t quote fuel (i + 1)

/-- Text of a quoted attribute of markup, up to its quote or an entity. -/
def attributeText (quote : Char) (t : Text) (i : Nat) : Option Nat :=
  nonempty i (attributeAux t quote (t.size - i) i)

/-- Text of a string literal, up to its quote, an escape or the end of the line. -/
def stringText (quote : Char) (t : Text) (i : Nat) : Option Nat :=
  nonempty i (t.runEnd (fun c => c != quote && c != '\\' && c != '\n' && c != '\r') i)

def escape (t : Text) (i : Nat) : Option Nat :=
  if t.peek i == '\\' then
    match t.get? (i + 1) with
    | none => none
    | some c =>
        let one := if c != 'x' && c != 'u' && !isOctalDigit c then some (i + 2) else none
        let octal := nonempty (i + 1) (t.runEndWithin isOctalDigit 3 (i + 1))
        let hex :=
          if c == 'x' && t.holds (i + 2) isHexDigit && t.holds (i + 3) isHexDigit then
            some (i + 4)
          else none
        let line :=
          if (c == '\r' || c == '?')
              && t.holds (i + 2) (fun d => d == '\n' || isLineSeparator d) then some (i + 3)
          else none
        longest [one, octal, hex, numbered t i, line]
  else none

def slash (t : Text) (i : Nat) : Option Nat :=
  if t.peek i == '/' then some (i + 1) else none

private def classEnd (t : Text) : Nat → Nat → Option Nat
  | 0, _ => none
  | fuel + 1, i =>
      match t.get? i with
      | none => none
      | some ']' => some (i + 1)
      | some '\n' => none
      | some '\\' => if t.holds (i + 1) (· != '\n') then classEnd t fuel (i + 2) else none
      | some _ => classEnd t fuel (i + 1)

private def patternAux (t : Text) : Nat → Nat → Nat
  | 0, i => i
  | fuel + 1, i =>
      match t.get? i with
      | none => i
      | some '[' =>
          match classEnd t (t.size - i) (i + 1) with
          | some stop => patternAux t fuel stop
          | none => i
      | some '\\' => if t.holds (i + 1) (· != '\n') then patternAux t fuel (i + 2) else i
      | some c => if c == '/' || c == '\n' then i else patternAux t fuel (i + 1)

/-- A regular expression between its slashes; a slash in brackets does not end it. -/
def pattern (t : Text) (i : Nat) : Option Nat :=
  nonempty i (patternAux t (t.size - i) i)

def flags (t : Text) (i : Nat) : Option Nat :=
  nonempty i (t.runEnd (fun c => 'a' ≤ c && c ≤ 'z') i)

private def lastLineEnd (t : Text) (start : Nat) : Nat → Option Nat
  | 0 => none
  | i + 1 => if i < start then none else if t.peek i == '\n' then some (i + 1) else
      lastLineEnd t start i

/-- A getter name that the end of its line turns into a field of a class. -/
def staticGet (t : Text) (i : Nat) : Option Nat :=
  if t.isAt "static".toList i then
    let second := t.runEnd isPlainBlank (i + 6)
    if i + 6 < second && t.isAt "get".toList second then
      lastLineEnd t (second + 3) (t.runEnd isPlainBlank (second + 3))
    else none
  else none

end Lexeme

/-- A token class: its tokens, whether they must follow what was read without a blank, and its
rank among such classes. -/
structure Lexeme where
  read : Text → Nat → Option Nat
  isGlued : Bool := false
  rank : Int := 0

namespace Lexeme

def all : List (String × Lexeme) :=
  [("hash_bang_line", ⟨hashBang, false, 0⟩),
   ("identifier", ⟨identifier, false, 0⟩),
   ("private_property_identifier", ⟨privateName, false, 0⟩),
   ("number", ⟨number, false, 0⟩),
   ("comment", ⟨comment, false, 0⟩),
   ("html_character_reference", ⟨entity, false, 0⟩),
   ("jsx_identifier", ⟨dashedName, false, 0⟩),
   ("unescaped_double_jsx_string_fragment", ⟨attributeText '\x22', true, 1⟩),
   ("unescaped_single_jsx_string_fragment", ⟨attributeText '\x27', true, 1⟩),
   ("unescaped_double_string_fragment", ⟨stringText '\x22', true, 1⟩),
   ("unescaped_single_string_fragment", ⟨stringText '\x27', true, 1⟩),
   ("escape_sequence", ⟨escape, true, 0⟩),
   ("regex_end", ⟨slash, true, 1⟩),
   ("regex_pattern", ⟨pattern, true, -1⟩),
   ("regex_flags", ⟨flags, true, 0⟩),
   ("static_get", ⟨staticGet, false, 0⟩)]

/-- Classes that recovery does not look for: their tokens are texts inside other things. -/
def inner : List String :=
  ["html_character_reference", "jsx_identifier", "unescaped_double_jsx_string_fragment",
   "unescaped_single_jsx_string_fragment", "unescaped_double_string_fragment",
   "unescaped_single_string_fragment", "regex_pattern", "regex_flags", "regex_end"]

end Lexeme

end ModuleTrace.Script
