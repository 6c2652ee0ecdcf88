/-!
# Texts with positions

A text is an array of characters. Positions count characters; a place counts lines and, within
a line, bytes.
-/

namespace ModuleTrace.Grammar

/-- Line and column, both from zero; columns count bytes. -/
structure Place where
  line : Nat
  column : Nat
  deriving DecidableEq, Repr, Inhabited

structure Text where
  chars : Array Char
  /-- Bytes before each position. -/
  bytes : Array Nat
  /-- Line ends before each position. -/
  rows : Array Nat
  deriving Inhabited

namespace Text

def ofString (s : String) : Text :=
  let chars := s.toList.toArray
  let sums := fun (size : Char → Nat) =>
    (chars.foldl (fun (sums, total) c => (sums.push (total + size c), total + size c))
      (#[0], 0)).1
  { chars
    bytes := sums Char.utf8Size
    rows := sums fun c => if c == '\n' then 1 else 0 }

@[inline] def size (t : Text) : Nat :=
  t.chars.size

@[inline] def get? (t : Text) (i : Nat) : Option Char :=
  t.chars[i]?

/-- The character at a position; NUL at the end. -/
@[inline] def peek (t : Text) (i : Nat) : Char :=
  t.chars.getD i '\x00'

def holds (t : Text) (i : Nat) (p : Char → Bool) : Bool :=
  match t.get? i with
  | some c => p c
  | none => false

def runEnd (t : Text) (p : Char → Bool) (i : Nat) : Nat :=
  match h : t.chars[i]? with
  | some c => if p c then runEnd t p (i + 1) else i
  | none => i
termination_by t.chars.size - i
decreasing_by
  have := (Array.getElem?_eq_some_iff.mp h).1
  omega

/-- End of the longest run of at most `limit` characters of a class. -/
def runEndWithin (t : Text) (p : Char → Bool) : Nat → Nat → Nat
  | 0, i => i
  | limit + 1, i => if t.holds i p then runEndWithin t p limit (i + 1) else i

def isAt (t : Text) (word : List Char) (i : Nat) : Bool :=
  match word with
  | [] => true
  | c :: rest => t.get? i == some c && t.isAt rest (i + 1)

def slice (t : Text) (start stop : Nat) : String :=
  String.ofList (t.chars.extract start stop).toList

@[inline] def byteAt (t : Text) (i : Nat) : Nat :=
  t.bytes.getD i 0

@[inline] def rowAt (t : Text) (i : Nat) : Nat :=
  t.rows.getD i 0

private def lineStart (t : Text) : Nat → Nat
  | 0 => 0
  | i + 1 => if t.get? i == some '\n' then i + 1 else lineStart t i

def place (t : Text) (i : Nat) : Place :=
  ⟨t.rowAt i, t.byteAt i - t.byteAt (lineStart t i)⟩

end Text

end ModuleTrace.Grammar
