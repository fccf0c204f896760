/-!
# Shortest decimals of doubles

A finite double is `m * 2 ^ q` for natural `m`, and the reals that round to it form an interval
around it, which has its ends exactly when `m` is even.  Its shortest decimal is the one with the
fewest digits in that interval; of two the nearer one, and of two equally near ones the greater.

Everything is computed exactly.  If a grid of powers of ten has a point in the interval, then one of
the two grid points next to the value is in it, so only these two are tried.
-/

namespace Phrasebook.Decimal

/-- The magnitude `significand * 10 ^ exponent`. -/
structure Magnitude where
  significand : Nat
  exponent : Int
deriving DecidableEq, Repr

/-- A binary fraction `m * 2 ^ q`; `narrow` says that the double below it is half as far away as
the one above it. -/
structure Binary where
  m : Nat
  q : Int
  narrow : Bool
deriving DecidableEq, Repr

/-- The kinds of doubles. -/
inductive Double where
  | nan
  | infinite (negative : Bool)
  | finite (negative : Bool) (magnitude : Binary)
deriving DecidableEq, Repr

def Double.ofBits (bits : UInt64) : Double :=
  let negative := decide (Nat.pow 2 63 ≤ bits.toNat)
  let exponent : Nat := bits.toNat / Nat.pow 2 52 % Nat.pow 2 11
  let fraction : Nat := bits.toNat % Nat.pow 2 52
  if exponent = 2047 then
    if fraction = 0 then infinite negative else nan
  else if exponent = 0 then
    finite negative ⟨fraction, -1074, false⟩
  else
    finite negative ⟨Nat.pow 2 52 + fraction, (exponent : Int) - 1075, fraction = 0 && 1 < exponent⟩

/-- A positive value and the ends of its interval, in units of `1 / unit`. -/
structure Interval where
  low : Nat
  value : Nat
  high : Nat
  unit : Nat
  closed : Bool

def Binary.interval (b : Binary) : Interval :=
  let scale := Nat.pow 2 (b.q - 2).toNat
  { low := (4 * b.m - if b.narrow then 1 else 2) * scale
    value := 4 * b.m * scale
    high := (4 * b.m + 2) * scale
    unit := Nat.pow 2 (2 - b.q).toNat
    closed := b.m % 2 = 0 }

namespace Interval

/-- The same interval in units of `10 ^ exponent`. -/
def onGrid (i : Interval) (exponent : Int) : Interval :=
  let up := Nat.pow 10 (-exponent).toNat
  { low := i.low * up
    value := i.value * up
    high := i.high * up
    unit := i.unit * Nat.pow 10 exponent.toNat
    closed := i.closed }

/-- Whether the grid point `k` lies in the interval. -/
def contains (i : Interval) (k : Nat) : Bool :=
  if i.closed then i.low ≤ k * i.unit && k * i.unit ≤ i.high
  else i.low < k * i.unit && k * i.unit < i.high

/-- The better of the two grid points next to the value, if one lies in the interval. -/
def nearest? (i : Interval) : Option Nat :=
  let below := i.value / i.unit
  let above := below + 1
  match i.contains below, i.contains above with
  | true, true =>
      if i.value - below * i.unit < above * i.unit - i.value then some below else some above
  | true, false => some below
  | false, true => some above
  | false, false => none

/-- Whether the value is at least `10 ^ exponent`. -/
def atLeastPower (i : Interval) (exponent : Int) : Bool :=
  (i.onGrid exponent).unit ≤ (i.onGrid exponent).value

end Interval

/-- The exponent of the greatest power of ten that is not above the value. -/
def leadingExponent (b : Binary) (i : Interval) : Int :=
  let guess := ((b.m.log2 : Int) + b.q) * 30103 / 100000
  if i.atLeastPower (guess + 1) then guess + 1
  else if i.atLeastPower guess then guess
  else guess - 1

/-- Tries grids of `digits + 1`, `digits + 2`, … digits, at most `tries` of them.  The grid of 17
digits always has a hit, so what comes after the last try is not reached from there. -/
def firstHit (i : Interval) (leading : Int) : Nat → Nat → Magnitude
  | 0, digits =>
      let grid := i.onGrid (leading - digits)
      ⟨grid.value / grid.unit, leading - digits⟩
  | tries + 1, digits =>
      match (i.onGrid (leading - digits)).nearest? with
      | some k => ⟨k, leading - digits⟩
      | none => firstHit i leading tries (digits + 1)

/-- Drops the zeros at the end of a significand. -/
def dropZeros : Nat → Magnitude → Magnitude
  | 0, d => d
  | fuel + 1, d =>
      if d.significand ≠ 0 && d.significand % 10 = 0 then
        dropZeros fuel ⟨d.significand / 10, d.exponent + 1⟩
      else
        d

def shortest (b : Binary) : Magnitude :=
  if b.m = 0 then
    ⟨0, 0⟩
  else
    let i := b.interval
    dropZeros 17 (firstHit i (leadingExponent b i) 17 0)

end Phrasebook.Decimal
