import Phrasebook.Text.Ascii
import Phrasebook.Json.Fault
import Phrasebook.Json.Value
import Phrasebook.Word64

/-!
# JSON numbers

A number is written in parts: a sign, digits, a fraction and a power of ten.  Its significand is
what fits into 64 bits of its digits; digits that do not fit count as zeros.  The value is the
significand times or divided by one power of ten in double precision, which is why a long literal
may be one unit in the last place away from the nearest double.  A value beyond every finite
double is refused.
-/

namespace Phrasebook.Json

/-- The parts of a written number.  A missing fraction or exponent is `none`. -/
structure NumberParts where
  negative : Bool
  whole : List Char
  fraction : Option (List Char)
  exponent : Option Int

namespace NumberParts

/-- Appends digits while the number fits, and tells how many were appended. -/
def appendDigits (significand : Nat) : List Char → Nat × Nat
  | [] => (significand, 0)
  | c :: cs =>
      let next := 10 * significand + (c.toNat - '0'.toNat)
      if next ≤ maxUInt64 then
        let (s, n) := appendDigits next cs
        (s, n + 1)
      else
        (significand, 0)

/-- The greatest power of ten that a double holds. -/
def maxPower : Nat := 308

def powerOfTen (k : Nat) : Float :=
  Float.ofScientific 1 false k

/-- `f` divided by `10 ^ k`, by at most `10 ^ 308` at a time. -/
def divideByPower (f : Float) (k : Nat) : Float :=
  if k ≤ maxPower then f / powerOfTen k
  else if f == 0.0 then f
  else divideByPower (f / powerOfTen maxPower) (k - maxPower)
termination_by k
decreasing_by
  simp only [maxPower] at *
  omega

/-- `significand * 10 ^ exponent` in double precision. -/
def scale (significand : Nat) (exponent : Int) : Except Fault Float :=
  let f := significand.toUInt64.toFloat
  if exponent < 0 then
    .ok (divideByPower f exponent.natAbs)
  else if exponent ≤ maxPower then
    let g := f * powerOfTen exponent.natAbs
    if g.isInf then .error .malformed else .ok g
  else if f == 0.0 then
    .ok f
  else
    .error .malformed

/-- The significand of the digits and the power of ten that it is multiplied by. -/
def significand (p : NumberParts) : Nat × Int :=
  let (s, used) := appendDigits 0 p.whole
  let (s, places) := appendDigits s (p.fraction.getD [])
  (s, (p.whole.length - used : Nat) - (places : Int) + p.exponent.getD 0)

def value (p : NumberParts) : Except Fault Number :=
  let (s, exponent) := p.significand
  let whole := Ascii.decimalValue p.whole
  if p.fraction.isNone && p.exponent.isNone && !p.negative && whole ≤ maxUInt64 then
    .ok (.integer whole)
  else if p.fraction.isNone && p.exponent.isNone && p.negative && 0 < whole && whole ≤ maxInt64 + 1 then
    .ok (.integer (-whole))
  else do
    let f ← scale s exponent
    return .real (if p.negative then -f else f)

end NumberParts

end Phrasebook.Json
