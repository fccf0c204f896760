import Phrasebook.Decimal.Shortest

/-!
# Notations of decimals

A magnitude is written with all its places, or with one digit before the point and a power of ten.
-/

namespace Phrasebook.Decimal

def digitText (d : Magnitude) : String :=
  toString d.significand

def zeros (n : Nat) : String :=
  String.ofList (List.replicate n '0')

namespace Magnitude

/-- The power of ten of the first digit. -/
def leading (d : Magnitude) : Int :=
  d.exponent + (digitText d).length - 1

/-- All places, with `.0` after a whole number if `point` asks for it. -/
def positional (point : Bool) (d : Magnitude) : String :=
  let digits := (digitText d).toList
  if 0 ≤ d.exponent then
    digitText d ++ zeros d.exponent.toNat ++ if point then ".0" else ""
  else if 0 ≤ d.leading then
    let whole := digits.length - d.exponent.natAbs
    String.ofList (digits.take whole) ++ "." ++ String.ofList (digits.drop whole)
  else
    "0." ++ zeros (d.exponent.natAbs - digits.length) ++ digitText d

/-- One digit, the others after a point, and the power of ten after `e`. -/
def scientific (d : Magnitude) : String :=
  match (digitText d).toList with
  | first :: second :: others =>
      String.ofList (first :: '.' :: second :: others) ++ "e" ++ toString d.leading
  | digits => String.ofList digits ++ "e" ++ toString d.leading

end Magnitude

def signed (negative : Bool) (s : String) : String :=
  if negative then "-" ++ s else s

/-- The text of a double for readers: no exponent, and no point after a whole number. -/
def display (x : Float) : String :=
  match Double.ofBits x.toBits with
  | .nan => "NaN"
  | .infinite negative => signed negative "Infinity"
  | .finite negative b => signed negative ((shortest b).positional false)

/-- The text of a double in diagnostics: a point or an exponent always shows that it is one. -/
def diagnostic (x : Float) : String :=
  match Double.ofBits x.toBits with
  | .nan => "NaN"
  | .infinite negative => signed negative "inf"
  | .finite negative b =>
      let d := shortest b
      if d.significand = 0 ∨ -4 ≤ d.leading ∧ d.leading < 16 then
        signed negative (d.positional true)
      else
        signed negative d.scientific

end Phrasebook.Decimal
