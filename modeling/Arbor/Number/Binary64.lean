/-!
Double precision numbers, kept as their 64 bits so that two of them are equal exactly when they
are the same datum: `-0.0` differs from `0.0` and a NaN is equal to itself.
-/

namespace Arbor

structure Binary64 where
  bits : UInt64
deriving DecidableEq, Inhabited

namespace Binary64

/-- What the bits of a number stand for; a finite number is `m * 2 ^ q` with its sign. -/
inductive Class where
  | nan
  | infinite (negative : Bool)
  | finite (negative : Bool) (m : Nat) (q : Int)
deriving DecidableEq

def twoTo (n : Nat) : Nat := Nat.pow 2 n

def tenTo (n : Nat) : Nat := Nat.pow 10 n

def fractionBits : Nat := 52

def topField : Nat := 2047

def leastExponent : Int := -1074

def isNegative (x : Binary64) : Bool :=
  x.bits.toNat / twoTo 63 == 1

def exponentField (x : Binary64) : Nat :=
  x.bits.toNat / twoTo fractionBits % twoTo 11

def fraction (x : Binary64) : Nat :=
  x.bits.toNat % twoTo fractionBits

def classify (x : Binary64) : Class :=
  if x.exponentField = topField then
    if x.fraction = 0 then .infinite x.isNegative else .nan
  else if x.exponentField = 0 then
    .finite x.isNegative x.fraction leastExponent
  else
    .finite x.isNegative (x.fraction + twoTo fractionBits) (x.exponentField - 1075)

def ofParts (negative : Bool) (magnitude : Nat) : Binary64 :=
  ⟨((if negative then twoTo 63 else 0) + magnitude).toUInt64⟩

def infinity (negative : Bool) : Binary64 :=
  ofParts negative (topField * twoTo fractionBits)

def nan : Binary64 :=
  ofParts false (topField * twoTo fractionBits + twoTo 51)

def isZero (x : Binary64) : Bool :=
  x.exponentField == 0 && x.fraction == 0

def equalsInt (x : Binary64) (n : Int) : Bool :=
  match x.classify with
  | .finite negative m q =>
    let signed : Int := if negative then -m else m
    if 0 ≤ q then signed * twoTo q.toNat == n else signed == n * twoTo (-q).toNat
  | .infinite _ | .nan => false

def equals (x y : Binary64) : Bool :=
  (x == y && x.classify != .nan) || (x.isZero && y.isZero)

/--
The number with mantissa `m` and exponent `q`, where `m` has at most 53 bits (or is `2 ^ 53`
itself) and fewer than 53 only at the least exponent. Too large a value becomes infinite.
-/
def ofMantissa (negative : Bool) (m : Nat) (q : Int) : Binary64 :=
  if m < twoTo fractionBits then
    ofParts negative m
  else
    let magnitude := (q + 1075).toNat * twoTo fractionBits + (m - twoTo fractionBits)
    if topField * twoTo fractionBits ≤ magnitude then infinity negative
    else ofParts negative magnitude

def roundDiv (num den : Nat) : Nat :=
  let low := num / den
  let rest := 2 * (num % den)
  if rest < den then low
  else if den < rest then low + 1
  else low + low % 2

def scale (num den : Nat) (q : Int) : Nat × Nat :=
  if 0 ≤ q then (num, den * twoTo q.toNat) else (num * twoTo (-q).toNat, den)

def ofFraction (negative : Bool) (num den : Nat) : Binary64 :=
  let estimate : Int := max ((num.log2 : Int) - den.log2 - 53) leastExponent
  let (n, d) := scale num den estimate
  let q := if twoTo 53 ≤ n / d then estimate + 1 else estimate
  let (n, d) := scale num den q
  ofMantissa negative (roundDiv n d) q

/--
The double nearest to `digits * 10 ^ exponent`. Values with more than 310 places before the point
are infinite and those with 330 or more zeros behind it vanish, so no huge power is computed.
-/
def ofDecimal (negative : Bool) (digits : Nat) (exponent : Int) : Binary64 :=
  if digits = 0 then
    ofParts negative 0
  else
    let places : Int := (Nat.toDigits 10 digits).length + exponent
    if 310 < places then infinity negative
    else if places < -330 then ofParts negative 0
    else if 0 ≤ exponent then ofFraction negative (digits * tenTo exponent.toNat) 1
    else ofFraction negative digits (tenTo (-exponent).toNat)

end Binary64

end Arbor
