import ModuleTrace.Decimal
import ModuleTrace.Extraction.Literal
import ModuleTrace.Toml.Value

/-!
# Strings, numbers and dates

Every reader takes what it reads from the front of the text and gives back the rest. Strings come
in four forms: with escapes or without, on one line or on several.
-/

namespace ModuleTrace.Toml

/-- Characters that may stand in a line: all but controls, and tabs. -/
def isPlain (c : Char) : Bool :=
  c = '\t' || (0x20 ≤ c.toNat && c.toNat ≠ 0x7f)

def newline? : List Char → Option (List Char)
  | '\n' :: rest => some rest
  | '\r' :: '\n' :: rest => some rest
  | _ => none

def isBlank (c : Char) : Bool :=
  c = ' ' || c = '\t'

def skipBlanks (cs : List Char) : List Char :=
  cs.dropWhile isBlank

/-! ## Strings -/

/-- The character that an escape stands for, behind its backslash. -/
def escape? : List Char → Option (Char × List Char)
  | 'b' :: rest => some ('\x08', rest)
  | 'f' :: rest => some ('\x0c', rest)
  | 'n' :: rest => some ('\n', rest)
  | 'r' :: rest => some ('\r', rest)
  | 't' :: rest => some ('\t', rest)
  | '\\' :: rest => some ('\\', rest)
  | '\x22' :: rest => some ('\x22', rest)
  | 'u' :: rest => point? 4 rest
  | 'U' :: rest => point? 8 rest
  | _ => none
where
  point? (count : Nat) (cs : List Char) : Option (Char × List Char) := do
    let (value, rest) ← Literal.takeHex? count cs
    return (← Literal.char? value, rest)

/-- The rest of a string of one line behind its quote; what was read stands backwards. -/
private def lineRest (quote : Char) : Nat → List Char → List Char → Option (String × List Char)
  | 0, _, _ => none
  | fuel + 1, done, cs =>
      match cs with
      | [] => none
      | c :: rest =>
          if c = quote then some (String.ofList done.reverse, rest)
          else if c = '\\' && quote = '\x22' then
            match escape? rest with
            | some (c, rest) => lineRest quote fuel (c :: done) rest
            | none => none
          else if isPlain c then lineRest quote fuel (c :: done) rest
          else none

/-- What follows a backslash at the end of a line: all blanks up to the next text. -/
private def joinedLine? (cs : List Char) : Option (List Char) :=
  (newline? (skipBlanks cs)).map fun rest => blankLines rest.length rest
where
  blankLines : Nat → List Char → List Char
    | 0, cs => cs
    | fuel + 1, cs =>
        match newline? (skipBlanks cs) with
        | some rest => blankLines fuel rest
        | none => skipBlanks cs

/-- How many quotes before three closing ones belong to the text. -/
private def spareQuotes (count : Nat) : Nat :=
  min (count - 3) 2

/-- The rest of a string of several lines. Three quotes end it, and up to two more before them
belong to the text. -/
private def blockRest (quote : Char) : Nat → List Char → List Char → Option (String × List Char)
  | 0, _, _ => none
  | fuel + 1, done, cs =>
      match cs with
      | [] => none
      | c :: rest =>
          if c = quote then
            let count := (cs.takeWhile (· = quote)).length
            if count < 3 then blockRest quote fuel (c :: done) rest
            else
              let spare := List.replicate (spareQuotes count) quote
              some (String.ofList (spare ++ done).reverse, cs.drop (spare.length + 3))
          else if c = '\\' && quote = '\x22' then
            match joinedLine? rest with
            | some rest => blockRest quote fuel done rest
            | none =>
                match escape? rest with
                | some (c, rest) => blockRest quote fuel (c :: done) rest
                | none => none
          else
            match newline? cs with
            | some rest => blockRest quote fuel ('\n' :: done) rest
            | none => if isPlain c then blockRest quote fuel (c :: done) rest else none

/-- Reads a string of one line behind its quote. -/
def lineString? (quote : Char) (cs : List Char) : Option (String × List Char) :=
  lineRest quote (cs.length + 1) [] cs

/-- Reads a string of several lines behind its quotes; a line end at its start is left out. -/
def blockString? (quote : Char) (cs : List Char) : Option (String × List Char) :=
  blockRest quote (cs.length + 1) [] ((newline? cs).getD cs)

def anyString? (cs : List Char) : Option (String × List Char) :=
  match cs with
  | '\x22' :: '\x22' :: '\x22' :: rest => blockString? '\x22' rest
  | '\x27' :: '\x27' :: '\x27' :: rest => blockString? '\x27' rest
  | '\x22' :: rest => lineString? '\x22' rest
  | '\x27' :: rest => lineString? '\x27' rest
  | _ => none

/-! ## Numbers -/

/-- Digits behind a first one; a low line must stand between two. -/
def moreDigits? (isDigit : Char → Bool) : List Char → Option (List Char × List Char)
  | [] => some ([], [])
  | ['_'] => none
  | '_' :: c :: rest =>
      if isDigit c then (moreDigits? isDigit rest).map fun (digits, rest) => (c :: digits, rest)
      else none
  | c :: rest =>
      if isDigit c then (moreDigits? isDigit rest).map fun (digits, rest) => (c :: digits, rest)
      else some ([], c :: rest)

def digits? (isDigit : Char → Bool) : List Char → Option (List Char × List Char)
  | [] => none
  | c :: rest =>
      if isDigit c then (moreDigits? isDigit rest).map fun (digits, rest) => (c :: digits, rest)
      else none

private def takeSign : List Char → Bool × List Char
  | '-' :: rest => (true, rest)
  | '+' :: rest => (false, rest)
  | cs => (false, cs)

/-- Digits that begin with no zero, unless they are one. -/
def wholePart? : List Char → Option (List Char × List Char)
  | '0' :: rest => some (['0'], rest)
  | cs => digits? Char.isDigit cs

/-- Integers lie below this, and not below its negation. -/
def integerBound : Nat := 9223372036854775808

private def radixValue (radix : Nat) (digits : List Char) : Nat :=
  digits.foldl (fun value c => radix * value + (Literal.hexDigit? c).getD 0) 0

private def isDigitOf (radix : Nat) (c : Char) : Bool :=
  (Literal.hexDigit? c).any (· < radix)

private def ofRadix? (radix : Nat) (cs : List Char) : Option (Toml × List Char) := do
  let (digits, rest) ← digits? (isDigitOf radix) cs
  let value := radixValue radix digits
  if value < integerBound then some (.integer value, rest) else none

def integer? : List Char → Option (Toml × List Char)
  | '0' :: 'x' :: rest => ofRadix? 16 rest
  | '0' :: 'o' :: rest => ofRadix? 8 rest
  | '0' :: 'b' :: rest => ofRadix? 2 rest
  | cs => do
      let (isNegative, unsigned) := takeSign cs
      let (digits, rest) ← wholePart? unsigned
      let value : Int := if isNegative then -(Decimal.value digits) else Decimal.value digits
      if -(integerBound : Int) ≤ value && value < integerBound then some (.integer value, rest)
      else none

private def fraction? : List Char → Option (List Char × List Char)
  | '.' :: rest => digits? Char.isDigit rest
  | cs => some ([], cs)

private def exponent? : List Char → Option (Int × List Char)
  | [] => some (0, [])
  | c :: rest =>
      if c = 'e' || c = 'E' then
        let (isNegative, unsigned) := takeSign rest
        (digits? Char.isDigit unsigned).map fun (digits, rest) =>
          ((if isNegative then -(Decimal.value digits) else Decimal.value digits : Int), rest)
      else some (0, c :: rest)

/-- Reads a number with a fraction or an exponent. One too great for a double is refused; below
the range of doubles there is no bound. -/
def float? (cs : List Char) : Option (Toml × List Char) :=
  let (isNegative, unsigned) := takeSign cs
  match unsigned with
  | 'i' :: 'n' :: 'f' :: rest => some (.float, rest)
  | 'n' :: 'a' :: 'n' :: rest => some (.float, rest)
  | _ => do
      let (whole, afterWhole) ← wholePart? unsigned
      let (fraction, afterFraction) ← fraction? afterWhole
      let (exponent, rest) ← exponent? afterFraction
      if rest.length = afterWhole.length then none
      else if isNegative || Decimal.inRange (whole ++ fraction) (exponent - fraction.length) then
        some (.float, rest)
      else none

/-! ## Dates and times -/

private def fixedDigits? (count : Nat) (cs : List Char) : Option (Nat × List Char) :=
  let digits := cs.take count
  if digits.length = count && digits.all Char.isDigit then
    some (Decimal.value digits, cs.drop count)
  else none

private def mark? (c : Char) : List Char → Option (List Char)
  | d :: rest => if d = c then some rest else none
  | [] => none

private def daysIn (year month : Nat) : Nat :=
  if month = 2 then
    if year % 4 = 0 && (year % 100 ≠ 0 || year % 400 = 0) then 29 else 28
  else if month = 4 || month = 6 || month = 9 || month = 11 then 30
  else 31

private def date? (cs : List Char) : Option (List Char) := do
  let (year, rest) ← fixedDigits? 4 cs
  let (month, rest) ← fixedDigits? 2 (← mark? '-' rest)
  let (day, rest) ← fixedDigits? 2 (← mark? '-' rest)
  if 1 ≤ month && month ≤ 12 && 1 ≤ day && day ≤ daysIn year month then some rest else none

private def clock? (cs : List Char) : Option (List Char) := do
  let (hour, rest) ← fixedDigits? 2 cs
  let (minute, rest) ← fixedDigits? 2 (← mark? ':' rest)
  if hour ≤ 23 && minute ≤ 59 then some rest else none

private def time? (cs : List Char) : Option (List Char) := do
  let (second, rest) ← fixedDigits? 2 (← mark? ':' (← clock? cs))
  if 60 < second then none
  else
    match rest with
    | '.' :: c :: more => if c.isDigit then some (more.dropWhile Char.isDigit) else some rest
    | _ => some rest

/-- What follows the offset of a time, if there is one. -/
private def afterOffset (cs : List Char) : List Char :=
  match cs with
  | 'Z' :: rest | 'z' :: rest => rest
  | '+' :: rest | '-' :: rest => (clock? rest).getD cs
  | _ => cs

/-- What follows the time behind a date, if there is one. -/
private def afterTime (cs : List Char) : List Char :=
  match cs with
  | c :: rest =>
      if c = 'T' || c = 't' || c = ' ' then
        match time? rest with
        | some rest => afterOffset rest
        | none => cs
      else cs
  | [] => []

def dateTime? (cs : List Char) : Option (Toml × List Char) :=
  match date? cs with
  | some rest => some (.dateTime, afterTime rest)
  | none => (time? cs).map fun rest => (.dateTime, rest)

def number? (cs : List Char) : Option (Toml × List Char) :=
  dateTime? cs <|> float? cs <|> integer? cs

end ModuleTrace.Toml
