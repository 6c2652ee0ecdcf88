import ModuleTrace.Decimal
import ModuleTrace.Extraction.Literal
import ModuleTrace.Json.Value

/-!
# Reading JSON

The reader takes exactly the texts of the standard, with three limits: arrays and objects nest
at most 127 deep, numbers must not exceed the range of a double, and halves of surrogate pairs
must not stand alone. Members come out as they are written, or ordered by key with the last of
equal keys.
-/

namespace ModuleTrace.Json

/-- Arrays and objects inside one another must be fewer than this. -/
def depthLimit : Nat := 128

def isJsonBlank (c : Char) : Bool :=
  c = ' ' || c = '\n' || c = '\t' || c = '\r'

def skipBlanks (cs : List Char) : List Char :=
  cs.dropWhile isJsonBlank

def unicodeEscape? (cs : List Char) : Option (Char × List Char) :=
  match Literal.takeHex? 4 cs with
  | none => none
  | some (value, rest) =>
      if 0xdc00 ≤ value && value < 0xe000 then none
      else if 0xd800 ≤ value && value < 0xdc00 then
        match rest with
        | '\\' :: 'u' :: low =>
            match Literal.takeHex? 4 low with
            | some (half, rest) =>
                if 0xdc00 ≤ half && half < 0xe000 then
                  some (Char.ofNat (0x10000 + (value - 0xd800) * 0x400 + (half - 0xdc00)), rest)
                else none
            | none => none
        | _ => none
      else some (Char.ofNat value, rest)

def simpleEscape? : Char → Option Char
  | '\x22' => some '\x22'
  | '\\' => some '\\'
  | '/' => some '/'
  | 'b' => some '\x08'
  | 'f' => some '\x0c'
  | 'n' => some '\n'
  | 'r' => some '\r'
  | 't' => some '\t'
  | _ => none

/-- The rest of a string behind its opening quote, read backwards into `done`. -/
def stringRest : Nat → List Char → List Char → Option (String × List Char)
  | 0, _, _ => none
  | fuel + 1, done, cs =>
      match cs with
      | [] => none
      | '\x22' :: rest => some (String.ofList done.reverse, rest)
      | '\\' :: 'u' :: rest =>
          match unicodeEscape? rest with
          | some (c, rest) => stringRest fuel (c :: done) rest
          | none => none
      | '\\' :: c :: rest =>
          match simpleEscape? c with
          | some c => stringRest fuel (c :: done) rest
          | none => none
      | c :: rest => if c.toNat < 0x20 || c = '\\' then none else stringRest fuel (c :: done) rest

def digitsOf (cs : List Char) : List Char × List Char :=
  (cs.takeWhile Char.isDigit, cs.dropWhile Char.isDigit)

def wholePart? (cs : List Char) : Option (List Char × List Char) :=
  match cs with
  | '0' :: rest => if (rest.head?.any Char.isDigit) then none else some (['0'], rest)
  | _ =>
      match digitsOf cs with
      | ([], _) => none
      | found => some found

def fractionPart? (cs : List Char) : Option (List Char × List Char) :=
  match cs with
  | '.' :: rest =>
      match digitsOf rest with
      | ([], _) => none
      | found => some found
  | _ => some ([], cs)

def exponentPart? (cs : List Char) : Option (Int × List Char) :=
  match cs with
  | c :: rest =>
      if c = 'e' || c = 'E' then
        let (sign, rest) :=
          match rest with
          | '-' :: rest => ((-1 : Int), rest)
          | '+' :: rest => (1, rest)
          | rest => (1, rest)
        match digitsOf rest with
        | ([], _) => none
        | (digits, rest) => some (sign * Decimal.value digits, rest)
      else some (0, cs)
  | [] => some (0, [])

def number? (cs : List Char) : Option (Json × List Char) := do
  let unsigned := if cs.head? = some '-' then cs.drop 1 else cs
  let (whole, afterWhole) ← wholePart? unsigned
  let (fraction, afterFraction) ← fractionPart? afterWhole
  let (exponent, rest) ← exponentPart? afterFraction
  if Decimal.inRange (whole ++ fraction) (exponent - fraction.length) then
    some (.number (String.ofList (cs.take (cs.length - rest.length))), rest)
  else none

def word? (word : String) (value : Json) (cs : List Char) : Option (Json × List Char) :=
  if word.toList.isPrefixOf cs then some (value, cs.drop word.length) else none

mutual

def value? : Nat → Nat → List Char → Option (Json × List Char)
  | 0, _, _ => none
  | fuel + 1, depth, cs =>
      match skipBlanks cs with
      | [] => none
      | '\x22' :: rest =>
          (stringRest (rest.length + 1) [] rest).map fun (text, rest) => (.string text, rest)
      | '[' :: rest =>
          if depth ≤ 1 then none
          else
            match skipBlanks rest with
            | ']' :: rest => some (.array [], rest)
            | rest => items? fuel (depth - 1) [] rest
      | '\x7b' :: rest =>
          if depth ≤ 1 then none
          else
            match skipBlanks rest with
            | '\x7d' :: rest => some (.object [], rest)
            | rest => members? fuel (depth - 1) [] rest
      | 't' :: rest => word? "rue" (.bool true) rest
      | 'f' :: rest => word? "alse" (.bool false) rest
      | 'n' :: rest => word? "ull" .null rest
      | cs => number? cs

def items? : Nat → Nat → List Json → List Char → Option (Json × List Char)
  | 0, _, _, _ => none
  | fuel + 1, depth, done, cs =>
      match value? fuel depth cs with
      | none => none
      | some (item, rest) =>
          match skipBlanks rest with
          | ',' :: rest => items? fuel depth (item :: done) rest
          | ']' :: rest => some (.array (item :: done).reverse, rest)
          | _ => none

def members? :
    Nat → Nat → List (String × Json) → List Char → Option (Json × List Char)
  | 0, _, _, _ => none
  | fuel + 1, depth, done, cs =>
      match skipBlanks cs with
      | '\x22' :: rest =>
          match stringRest (rest.length + 1) [] rest with
          | none => none
          | some (key, rest) =>
              match skipBlanks rest with
              | ':' :: rest =>
                  match value? fuel depth rest with
                  | none => none
                  | some (value, rest) =>
                      match skipBlanks rest with
                      | ',' :: rest => members? fuel depth ((key, value) :: done) rest
                      | '\x7d' :: rest => some (.object ((key, value) :: done).reverse, rest)
                      | _ => none
              | _ => none
      | _ => none

end

/-- Reads a text that is one JSON value, with all members of its objects as they are written.
Every call consumes a character, so twice the length bounds their number. -/
def parseRaw? (text : String) : Option Json :=
  let cs := text.toList
  match value? (2 * cs.length + 2) depthLimit cs with
  | some (json, rest) => if (skipBlanks rest).isEmpty then some json else none
  | none => none

mutual

/-- The value with the members of its objects ordered by key, the last of equal ones. -/
def ordered : Json → Json
  | .array items => .array (orderedItems items)
  | .object members => .object (orderedMembers [] members)
  | json => json

private def orderedItems : List Json → List Json
  | [] => []
  | item :: rest => ordered item :: orderedItems rest

private def orderedMembers (done : List (String × Json)) :
    List (String × Json) → List (String × Json)
  | [] => done
  | (key, value) :: rest => orderedMembers (insertMember key (ordered value) done) rest

end

def parse? (text : String) : Option Json :=
  (parseRaw? text).map ordered

end ModuleTrace.Json
