import RegisterJit.Number.Double

/-!
# Shortest decimal digits

The decimal digits of a double: the fewest that read back as the same double, and among those the
nearest to it. A double stands for the interval of reals that round to it, the ends included when
its significand is even.

Digits are searched by their number, from the fewest on, on the grid of numbers with that many
digits. `Proofs.Digits` shows that what is found is rounded to the double, `Proofs.Indices`
that for whole numbers it is the digits of the number, and both layouts of `Number.Layout` start
from it.
-/

namespace RegisterJit.Double

/-- A decimal `0.d₁d₂…dₖ × 10 ^ point`, as its digits and the place of its point. -/
structure Digits where
  digits : List Nat
  point : Int
  deriving DecidableEq, Repr

/-- The reals that round to a finite positive double, in quarters of a unit: `lower`, the double
`value` itself, `upper`, and whether the ends belong to it. Just above a power of two the lower
neighbour is nearer. -/
structure Interval where
  lower : Nat
  value : Nat
  upper : Nat
  closed : Bool

/-- The interval of a magnitude pattern. -/
def interval (m : Nat) : Interval :=
  let e := m / 2 ^ 52
  let f := m % 2 ^ 52
  let step := 2 ^ (e - 1)
  let u := unitsOfMagnitude m
  let below := if f = 0 ∧ 1 < e then step else 2 * step
  { lower := 4 * u - below, value := 4 * u, upper := 4 * u + 2 * step, closed := m % 2 == 0 }

/-- The exponent of the digit grid: `point` is the least with `value < 10 ^ point`, for a value of
`num / den`. Counts up to `fuel` steps from a start below. -/
def pointFrom (num den : Nat) : (fuel : Nat) → (point : Int) → Int
  | 0, point => point
  | fuel + 1, point =>
    let below :=
      if 0 ≤ point then num < den * 10 ^ point.toNat else num * 10 ^ (-point).toNat < den
    if below then point else pointFrom num den fuel (point + 1)

/-- Whether the grid point `n * 10 ^ exponent` lies in the interval. -/
def Interval.contains (iv : Interval) (n : Nat) (exponent : Int) : Bool :=
  let (x, scale) :=
    if 0 ≤ exponent then (n * 10 ^ exponent.toNat * (4 * unitsPerOne), 1)
    else (n * (4 * unitsPerOne), 10 ^ (-exponent).toNat)
  if iv.closed then iv.lower * scale ≤ x && x ≤ iv.upper * scale
  else iv.lower * scale < x && x < iv.upper * scale

/-- The grid point with `count` digits nearest to the double that lies in its interval, if any.
Of the two neighbours the nearer one is taken, the even one in a tie. -/
def digitsOn? (iv : Interval) (point : Int) (count : Nat) : Option (Nat × Int) :=
  let exponent := point - count
  let (num, den) :=
    if 0 ≤ exponent then (iv.value, 4 * unitsPerOne * 10 ^ exponent.toNat)
    else (iv.value * 10 ^ (-exponent).toNat, 4 * unitsPerOne)
  let n := divRoundEven num den
  let lo := num / den
  if iv.contains n exponent then some (n, exponent)
  else if n ≠ lo ∧ iv.contains lo exponent then some (lo, exponent)
  else if iv.contains (lo + 1) exponent then some (lo + 1, exponent)
  else none

/-- The first hit among the grids of `count`, `count + 1`, … digits. -/
def searchDigits (iv : Interval) (point : Int) : (fuel count : Nat) → Nat × Int
  | 0, count => (0, point - count)
  | fuel + 1, count =>
    match digitsOn? iv point count with
    | some hit => hit
    | none => searchDigits iv point fuel (count + 1)

/-- The decimal digits of a natural number, most significant first. -/
def decimalDigits (n : Nat) : List Nat := (Nat.toDigits 10 n).map fun c => c.toNat - 48

/-- The shortest digits of a finite double's magnitude. Zero has the one digit `0` before the
point. -/
def shortestDigits (x : Double) : Digits :=
  let m := x.magnitude
  if m = 0 then ⟨[0], 1⟩
  else
    let iv := interval m
    let num := iv.value
    let den := 4 * unitsPerOne
    -- a lower estimate of the decimal exponent from the binary one
    let bitExponent : Int := (unitsOfMagnitude m).log2 - 1074
    let start : Int := Int.fdiv (bitExponent * 30103) 100000 - 1
    let point := pointFrom num den 4 start
    let (n, exponent) := searchDigits iv point 18 1
    let ds := decimalDigits n
    let kept := (ds.reverse.dropWhile (· == 0)).reverse
    ⟨kept, exponent + ds.length⟩

end RegisterJit.Double
