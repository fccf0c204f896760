import Phrasebook.Decimal.Notation
import Phrasebook.Json.Draft
import Phrasebook.Text.Quoted
import Phrasebook.Word64

/-!
# Scalars

The values that a placeholder can stand for: 64-bit integers, doubles and texts.
-/

namespace Phrasebook

inductive Scalar where
  | int (value : Int64)
  | float (value : Float)
  | text (value : String)
deriving Repr

namespace Scalar

/-- The text that a placeholder is replaced by. -/
def display : Scalar → String
  | int n => toString n.toInt
  | float x => Decimal.display x
  | text s => s

/-- The diagnostic text of a scalar. -/
def describe : Scalar → String
  | int n => "Int(" ++ toString n.toInt ++ ")"
  | float x => "Float(" ++ Decimal.diagnostic x ++ ")"
  | text s => "Text(" ++ quoted s ++ ")"

/-- An unsigned integer above the signed range becomes a double. -/
def ofUInt64 (n : UInt64) : Scalar :=
  if n.toNat ≤ maxInt64 then int (Int64.ofNat n.toNat) else float n.toFloat

def ofFloat32 (x : Float32) : Scalar :=
  float x.toFloat

/-- An integer that was written as one is an integer while it fits; every other number is a double. -/
def ofNumber : Json.Number → Scalar
  | .integer n => if n ≤ maxInt64 then int (Int64.ofInt n) else ofUInt64 (UInt64.ofNat n.toNat)
  | .real x => float x

def ofJson? : Json.Value → Except Json.Fault Scalar
  | .number n => .ok (ofNumber n)
  | .string s => .ok (text s)
  | _ => .error .mismatch

/-- Reads an array of scalars.  Each item is read completely before it is judged. -/
def listOfText (source : String) : Except Json.Fault (List Scalar) :=
  Json.readText
    (fun d => do
      let (items, cut) ← d.asArray Json.maxDepth
      let scalars ← items.mapM fun item => do ofJson? (← item.read (Json.maxDepth - 1))
      Json.checkCut cut
      return scalars)
    source

end Scalar

end Phrasebook
