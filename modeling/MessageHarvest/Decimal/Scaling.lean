/-!
# Floats from decimal parts

`Decimal.scale?` turns an integer of 64 bits and a decimal exponent into a float: the integer is
rounded to a float, then multiplied or divided by a power of ten, itself a float. Two roundings may
differ from the nearest float in the last digit; the value is that of these two steps.
-/

namespace MessageHarvest.Decimal

/-- The largest power of ten that is used as one factor. -/
def maxFactorExponent : Nat := 308

/-- The float nearest to `10 ^ e`. -/
def powerOfTen (e : Nat) : Float :=
  Float.ofScientific 1 false e

/-- `x · 10 ^ exponent`, or nothing if that is too large. A very small exponent is worked off in
steps of `maxFactorExponent`, until nothing is left of the value. -/
def scale? (x : Float) (exponent : Int) : Option Float :=
  if exponent.natAbs ≤ maxFactorExponent then
    if 0 ≤ exponent then
      let y := x * powerOfTen exponent.natAbs
      if y.isInf then none else some y
    else some (x / powerOfTen exponent.natAbs)
  else if x == 0.0 then some x
  else if 0 ≤ exponent then none
  else scale? (x / powerOfTen maxFactorExponent) (exponent + maxFactorExponent)
termination_by exponent.natAbs
decreasing_by simp only [maxFactorExponent] at *; omega

end MessageHarvest.Decimal
