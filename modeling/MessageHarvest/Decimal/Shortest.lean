/-!
# Shortest decimals

`Decimal.ofFloat?` gives the decimal with the fewest digits that still reads back as a given float;
of several it takes the nearest to the float, of two that are equally near the even one. The float
is decoded into `m · 2 ^ q`; the reals that round to it lie between the midpoints to its two
neighbours, the midpoints included if `m` is even. On the grid of decimals with `n` digits only the
two points around the float can be nearest, so it is enough to try these two for `n = 1, 2, …, 17`.
-/

namespace MessageHarvest

/-- The decimal `d₁.d₂d₃… · 10 ^ exponent`, with its sign. -/
structure Decimal where
  negative : Bool
  /-- The digits, the first one not zero unless it is the only one, the last one neither. -/
  digits : List Nat
  exponent : Int
deriving DecidableEq, Repr

namespace Decimal

/-! ## Floats as integers times powers of two -/

/-- The sign, `m` and `q` of a finite float `± m · 2 ^ q`. -/
def decode? (x : Float) : Option (Bool × Nat × Int) :=
  let bits : Nat := x.toBits.toNat
  let negative := bits / Nat.pow 2 63 == 1
  let field : Nat := bits / Nat.pow 2 52 % Nat.pow 2 11
  let fraction : Nat := bits % Nat.pow 2 52
  if field = 2047 then none
  else if field = 0 then some (negative, fraction, -1074)
  else some (negative, Nat.pow 2 52 + fraction, (field : Int) - 1075)

/-- The fraction `num / den` as a pair. -/
structure Ratio where
  num : Nat
  den : Nat

namespace Ratio

def le (a b : Ratio) : Bool := a.num * b.den ≤ b.num * a.den

def lt (a b : Ratio) : Bool := a.num * b.den < b.num * a.den

/-- `n · base ^ e`. -/
def scaled (n base : Nat) : Int → Ratio
  | .ofNat e => ⟨n * Nat.pow base e, 1⟩
  | .negSucc e => ⟨n, Nat.pow base (e + 1)⟩

/-- The distance between two fractions, as a fraction. -/
def distance (a b : Ratio) : Ratio :=
  let x := a.num * b.den
  let y := b.num * a.den
  ⟨if x ≤ y then y - x else x - y, a.den * b.den⟩

end Ratio

/-! ## The interval of a float -/

/-- The reals that round to one float. -/
structure Interval where
  low : Ratio
  high : Ratio
  closed : Bool

namespace Interval

/-- The interval of `m · 2 ^ q`. Below a power of two the neighbour is half as far away as above,
unless the float below is as coarse as the least float. -/
def ofBinary (m : Nat) (q : Int) : Interval :=
  let narrow := m = Nat.pow 2 52 && q ≠ -1074
  { low := .scaled (4 * m - (if narrow then 1 else 2)) 2 (q - 2)
    high := .scaled (4 * m + 2) 2 (q - 2)
    closed := m % 2 = 0 }

def contains (i : Interval) (x : Ratio) : Bool :=
  if i.closed then i.low.le x && x.le i.high else i.low.lt x && x.lt i.high

end Interval

/-! ## Search -/

/-- The exponent of the first digit of a positive fraction, looked for from an estimate upwards. -/
def leadingExponent (x : Ratio) (estimate : Int) : Nat → Int
  | 0 => estimate
  | steps + 1 =>
    if x.lt (.scaled 1 10 (estimate + 1)) then estimate
    else leadingExponent x (estimate + 1) steps

/-- The nearest decimal to `x` in the interval that is an integer number of units `10 ^ unit`, as
that number. Halfway between two, the even one is taken. -/
def nearestOnGrid? (i : Interval) (x : Ratio) (unit : Int) : Option Nat :=
  let quotient := match unit with
    | .ofNat e => x.num / (x.den * Nat.pow 10 e)
    | .negSucc e => x.num * Nat.pow 10 (e + 1) / x.den
  let below := Ratio.scaled quotient 10 unit
  let above := Ratio.scaled (quotient + 1) 10 unit
  match i.contains below, i.contains above with
  | false, false => none
  | true, false => some quotient
  | false, true => some (quotient + 1)
  | true, true =>
    let toAbove := x.distance above
    let toBelow := x.distance below
    if toAbove.lt toBelow then some (quotient + 1)
    else if toBelow.lt toAbove then some quotient
    else some (quotient + quotient % 2)

/-- The first grid with a hit, from `n` digits on: the integer and its unit. -/
def search (i : Interval) (x : Ratio) (lead : Int) (n : Nat) : Nat → Nat × Int
  | 0 => (0, 0)
  | steps + 1 =>
    let unit := lead - (n : Int) + 1
    match nearestOnGrid? i x unit with
    | some d => (d, unit)
    | none => search i x lead (n + 1) steps

/-- The decimal digits of a number, first digit first. -/
def digitsOf (n : Nat) : List Nat :=
  (Nat.toDigits 10 n).map fun c => c.toNat - '0'.toNat

/-- The shortest decimal of a finite float. -/
def ofFloat? (x : Float) : Option Decimal :=
  (decode? x).map fun (negative, m, q) =>
    if m = 0 then { negative, digits := [0], exponent := 0 }
    else
      let value := Ratio.scaled m 2 q
      let estimate := ((m.log2 : Int) + q) * 30103 / 100000 - 1
      let lead := leadingExponent value estimate 4
      let (d, unit) := search (.ofBinary m q) value lead 1 17
      let digits := digitsOf d
      { negative
        digits := (digits.reverse.dropWhile (· == 0)).reverse
        exponent := unit + digits.length - 1 }

end Decimal

end MessageHarvest
