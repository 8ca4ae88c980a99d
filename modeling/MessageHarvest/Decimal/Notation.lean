import MessageHarvest.Decimal.Shortest

/-!
# Decimal notation

How floats are written in JSON: positionally, with at least one digit on either side of the point,
while the exponent of the first digit is at least −5 and below 16, and otherwise as `d.ddde±x`.
-/

namespace MessageHarvest.Decimal

/-- Where positional notation is used: from `least` up to but not including `bound`. -/
structure PositionalRange where
  least : Int
  bound : Int

def jsonRange : PositionalRange := ⟨-5, 16⟩

def digitChar (d : Nat) : Char :=
  Char.ofNat ('0'.toNat + d)

/-- The digits with the point after the first `e + 1` of them, zeros filled in where there are none.
-/
def positional (digits : List Nat) : Int → List Char
  | .ofNat e =>
    let whole := (digits ++ List.replicate (e + 1 - digits.length) 0).take (e + 1)
    let rest := digits.drop (e + 1)
    whole.map digitChar ++ '.' :: (if rest = [] then ['0'] else rest.map digitChar)
  | .negSucc e => ['0', '.'] ++ List.replicate e '0' ++ digits.map digitChar

/-- The digits with the point after the first, and the exponent with its sign. -/
def scientific (digits : List Nat) (exponent : Int) : List Char :=
  let mantissa := match digits with
    | [] => []
    | [d] => [digitChar d]
    | d :: ds => digitChar d :: '.' :: ds.map digitChar
  mantissa ++ 'e' :: (if exponent < 0 then '-' else '+') :: (Nat.toDigits 10 exponent.natAbs)

def write (range : PositionalRange) (d : Decimal) : List Char :=
  (if d.negative then ['-'] else []) ++
    if range.least ≤ d.exponent ∧ d.exponent < range.bound then positional d.digits d.exponent
    else scientific d.digits d.exponent

end MessageHarvest.Decimal
