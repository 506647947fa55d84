import NetSynthesis.Error

/-! Whole numbers in double precision. A double has 53 bits: a number that needs more is taken to
the nearest one that does not, and numbers near or beyond `2 ^ 1024` are refused. -/
namespace NetSynthesis.DoublePrecision

/-- The nearest multiple of a unit. Halfway between two it is the even multiple. -/
def roundTo (unit k : Nat) : Nat :=
  let quotient := k / unit
  let rest := k % unit
  if unit < 2 * rest ∨ unit = 2 * rest ∧ quotient % 2 = 1 then (quotient + 1) * unit
  else quotient * unit

/-- The nearest number that has at most 53 bits before its zeros. -/
def nearest (k : Nat) : Nat := roundTo (1 <<< (k.log2 + 1 - 53)) k

/-- The least power of two that is not a double has this exponent. -/
def exponentLimit : Nat := 1024

def ofNat (k : Nat) : Except Error Nat :=
  if nearest k < 1 <<< exponentLimit then .ok (nearest k) else .error .doubleOverflow

example : nearest (2 ^ 53 + 1) = 2 ^ 53 := by decide
example : nearest (2 ^ 53 + 3) = 2 ^ 53 + 4 := by decide

end NetSynthesis.DoublePrecision
