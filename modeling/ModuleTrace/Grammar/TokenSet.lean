/-!
# Sets of token numbers

A token set holds numbers below 192, one bit each. The grammars of this library have fewer
tokens than that; larger numbers are never members.
-/

namespace ModuleTrace.Grammar

structure TokenSet where
  low : UInt64
  middle : UInt64
  high : UInt64
  deriving DecidableEq, Repr, Inhabited

namespace TokenSet

def empty : TokenSet := ⟨0, 0, 0⟩

instance : EmptyCollection TokenSet := ⟨empty⟩

def singleton (token : Nat) : TokenSet :=
  if token < 64 then ⟨1 <<< token.toUInt64, 0, 0⟩
  else if token < 128 then ⟨0, 1 <<< (token - 64).toUInt64, 0⟩
  else if token < 192 then ⟨0, 0, 1 <<< (token - 128).toUInt64⟩
  else empty

def contains (set : TokenSet) (token : Nat) : Bool :=
  if token < 64 then (set.low >>> token.toUInt64) &&& 1 == 1
  else if token < 128 then (set.middle >>> (token - 64).toUInt64) &&& 1 == 1
  else if token < 192 then (set.high >>> (token - 128).toUInt64) &&& 1 == 1
  else false

@[inline] def union (a b : TokenSet) : TokenSet :=
  ⟨a.low ||| b.low, a.middle ||| b.middle, a.high ||| b.high⟩

@[inline] def inter (a b : TokenSet) : TokenSet :=
  ⟨a.low &&& b.low, a.middle &&& b.middle, a.high &&& b.high⟩

/-- Members of exactly one of the two sets. -/
@[inline] def differ (a b : TokenSet) : TokenSet :=
  ⟨a.low ^^^ b.low, a.middle ^^^ b.middle, a.high ^^^ b.high⟩

def isEmpty (set : TokenSet) : Bool :=
  set.low == 0 && set.middle == 0 && set.high == 0

def insert (set : TokenSet) (token : Nat) : TokenSet :=
  set.union (singleton token)

def ofList (tokens : List Nat) : TokenSet :=
  tokens.foldl insert empty

private def bits (word : UInt64) (base : Nat) : List Nat :=
  if word == 0 then []
  else (List.range 64).filterMap fun i =>
    if (word >>> i.toUInt64) &&& 1 == 1 then some (base + i) else none

def toList (set : TokenSet) : List Nat :=
  bits set.low 0 ++ bits set.middle 64 ++ bits set.high 128

instance : Hashable TokenSet :=
  ⟨fun set => mixHash set.low (mixHash set.middle set.high)⟩

end TokenSet

end ModuleTrace.Grammar
