import Arbor.Number.Binary64

/-!
The text of a double: the fewest decimal digits that read back as the same number, and of those
the nearest to it. The search runs over the decimal grids with 1, 2, ... digits in exact natural
number arithmetic.
-/

namespace Arbor.Binary64

/-- A positive decimal number: its digits, the first of which counts `10 ^ exponent`. -/
structure Decimal where
  digits : List Char
  exponent : Int

structure Interval where
  low : Nat
  value : Nat
  high : Nat
  den : Nat
  closed : Bool

/--
The reals that round to `m * 2 ^ q`. The gap below a power of two is half the gap above it, and
the ends belong to the interval when the mantissa is even.
-/
def interval (m : Nat) (q : Int) : Interval :=
  let below := if m = twoTo fractionBits ∧ leastExponent < q then 1 else 2
  let up := twoTo (q - 2).toNat
  { low := (4 * m - below) * up
    value := 4 * m * up
    high := (4 * m + 2) * up
    den := twoTo (2 - q).toNat
    closed := m % 2 == 0 }

namespace Interval

def holds (i : Interval) (n d : Nat) : Bool :=
  if i.closed then i.low * d ≤ n * i.den && n * i.den ≤ i.high * d
  else i.low * d < n * i.den && n * i.den < i.high * d

def exponent (i : Interval) : Int :=
  if i.den ≤ i.value then
    (Nat.toDigits 10 (i.value / i.den)).length - 1
  else
    -(Nat.toDigits 10 ((i.den - 1) / i.value)).length

/--
The grid point nearest to the value among its two neighbours on the grid of step `10 ^ step`, if
one of them lies in the interval. A tie goes to the even multiple.
-/
def gridPoint? (i : Interval) (step : Int) : Option Nat :=
  let up := tenTo step.toNat
  let down := tenTo (-step).toNat
  let num := i.value * down
  let den := i.den * up
  let low := num / den
  let near := roundDiv num den
  let far := if near = low then low + 1 else low
  if i.holds (near * up) down then some near
  else if i.holds (far * up) down then some far
  else none

/--
Try the grids from a step on, each ten times finer than the one before, and return the first point
found with its step. Seventeen digits always suffice, so `fuel` need not be more than that.
-/
def search (i : Interval) (step : Int) : Nat → Nat × Int
  | 0 => (roundDiv i.value i.den, 0)
  | fuel + 1 =>
    match i.gridPoint? step with
    | some n => (n, step)
    | none => i.search (step - 1) fuel

end Interval

def dropTrailingZeros (digits : List Char) : List Char :=
  (digits.reverse.dropWhile (· == '0')).reverse

def shortest (m : Nat) (q : Int) : Decimal :=
  let around := interval m q
  let (n, step) := around.search around.exponent 17
  let digits := Nat.toDigits 10 n
  { digits := dropTrailingZeros digits, exponent := step + digits.length - 1 }

namespace Decimal

def scientificFrom : Int := 16

def positionalFrom : Int := -4

def exponentText (e : Int) : List Char :=
  let digits := Nat.toDigits 10 e.natAbs
  'e' :: (if e < 0 then '-' else '+') :: (List.replicate (2 - digits.length) '0' ++ digits)

def positional (d : Decimal) : List Char :=
  if d.exponent < 0 then
    '0' :: '.' :: (List.replicate (-d.exponent - 1).toNat '0' ++ d.digits)
  else
    let whole := d.exponent.toNat + 1
    let tail := d.digits.drop whole
    d.digits.take whole ++ List.replicate (whole - d.digits.length) '0' ++
      '.' :: (if tail.isEmpty then ['0'] else tail)

def scientific (d : Decimal) : List Char :=
  let tail := d.digits.drop 1
  d.digits.take 1 ++ (if tail.isEmpty then [] else '.' :: tail) ++ exponentText d.exponent

/-- Positional from `1e-4` up to but not including `1e16`, scientific beyond. -/
def text (d : Decimal) : List Char :=
  if positionalFrom ≤ d.exponent ∧ d.exponent < scientificFrom then d.positional
  else d.scientific

end Decimal

def text (x : Binary64) : String :=
  match x.classify with
  | .nan => "nan"
  | .infinite negative => if negative then "-inf" else "inf"
  | .finite negative m q =>
    let sign := if negative then ['-'] else []
    let body := if m = 0 then ['0', '.', '0'] else (shortest m q).text
    String.ofList (sign ++ body)

end Arbor.Binary64
