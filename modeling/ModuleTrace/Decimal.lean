/-!
# Decimal numerals

The value of a row of digits, and whether a numeral with an exponent is in the range of a
double. Nothing is rounded: the bounds are compared exactly.
-/

namespace ModuleTrace.Decimal

def value (digits : List Char) : Nat :=
  digits.foldl (fun value c => 10 * value + (c.toNat - 48)) 0

/-- The least value that no double is near to. -/
def overflow : Nat := Nat.pow 2 1024 - Nat.pow 2 970

/-- Whether `digits * 10 ^ exponent` is within the range of a double. Exponents far from the
bound are decided by the number of digits alone. -/
def inRange (digits : List Char) (exponent : Int) : Bool :=
  let significant := digits.dropWhile (· = '0')
  let magnitude := exponent + significant.length
  if significant.isEmpty || magnitude < 300 then true
  else if 400 < magnitude then false
  else if 0 ≤ exponent then value significant * Nat.pow 10 exponent.toNat < overflow
  else value significant < overflow * Nat.pow 10 exponent.natAbs

end ModuleTrace.Decimal
