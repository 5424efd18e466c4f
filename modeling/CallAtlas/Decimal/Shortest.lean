/-!
# Shortest decimals

The decimal with the fewest digits that rounds to a given binary number, and of several such
the nearest. A positive binary number is `m * 2 ^ q`. All reals strictly between its midpoints
with its two neighbours round to it, and the midpoints themselves do if `m` is even.

A decimal is `digits * 10 ^ exponent`. The grids of decimals are tried from the coarsest one
down. The first grid with a point in the interval has the shortest one, and then one of the
two points next to the number is in the interval too.
-/

namespace CallAtlas.Decimal

/-- A binary number in the middle of the reals that round to it: all three numbers are in
units of `2 ^ unit`. -/
structure Interval where
  low : Nat
  value : Nat
  high : Nat
  unit : Int
  closed : Bool

/-- The reals that round to `m * 2 ^ q`. The neighbour below is nearer if `m` is the least of
the numbers with its number of digits, unless it is the least exponent. -/
def interval (m : Nat) (q : Int) (atPower : Bool) : Interval where
  low := if atPower then 4 * m - 1 else 4 * m - 2
  value := 4 * m
  high := 4 * m + 2
  unit := q - 2
  closed := m % 2 = 0

/-- A number of units over a number of grid steps `10 ^ exponent`, as a fraction. -/
def scale (exponent unit : Int) : Nat × Nat :=
  (Nat.pow 2 unit.toNat * Nat.pow 10 (-exponent).toNat,
    Nat.pow 2 (-unit).toNat * Nat.pow 10 exponent.toNat)

/-- The point of a grid in the interval that is nearest to the number, if there is one. -/
def gridPoint? (i : Interval) (exponent : Int) : Option Nat :=
  let (num, den) := scale exponent i.unit
  let inside := fun (d : Nat) =>
    if i.closed then i.low * num ≤ d * den && d * den ≤ i.high * num
    else i.low * num < d * den && d * den < i.high * num
  let below := i.value * num / den
  let above := below + 1
  match inside below, inside above with
  | true, true =>
    some (if i.value * num - below * den ≤ above * den - i.value * num then below else above)
  | true, false => some below
  | false, true => some above
  | false, false => none

/-- The shortest decimal on the first `k` grids from an exponent down. -/
def search (i : Interval) : Nat → Int → Nat × Int
  | 0, exponent => (0, exponent)
  | k + 1, exponent =>
    match gridPoint? i exponent with
    | some d => (d, exponent)
    | none => search i k (exponent - 1)

/-- The shortest decimal of a finite number that is not zero, without its sign. The exponents
of the decimals of such numbers are from -324 to 308. -/
def shortest (x : Float) : Nat × Int :=
  let bits := x.toBits.toNat
  let top := Nat.pow 2 52
  let fraction := bits % top
  let exponent : Nat := bits / top % 2048
  let i :=
    if exponent = 0 then interval fraction (-1074) false
    else interval (top + fraction) ((exponent : Int) - 1075) (fraction = 0 && exponent ≠ 1)
  search i 640 309

end CallAtlas.Decimal
