import Phrasebook.Format.Scalar
import Phrasebook.Table

/-!
# Values for one message

A record binds each key either to a scalar, for placeholders, or to a transform, for tags.  Every
binding says which of the two it is, so a record splits into its halves without guessing.
-/

namespace Phrasebook

inductive Binding (τ : Type) where
  | scalar (value : Scalar)
  | transform (f : τ)

namespace Binding

variable {τ : Type}

def scalar? : Binding τ → Option Scalar
  | scalar s => some s
  | transform _ => none

def transform? : Binding τ → Option τ
  | scalar _ => none
  | transform f => some f

def describe : Binding τ → String
  | scalar s => "Scalar(" ++ s.describe ++ ")"
  | transform _ => "Transform(..)"

end Binding

abbrev Values (τ : Type) := Table (Binding τ)

namespace Values

variable {τ : Type}

/-- Binds a placeholder. -/
def withScalar (v : Values τ) (key : String) (s : Scalar) : Values τ :=
  v.insert key (.scalar s)

/-- Binds a tag. -/
def withTransform (v : Values τ) (name : String) (f : τ) : Values τ :=
  v.insert name (.transform f)

/-- Binds `key` and gives the binding that it had. -/
def replace (v : Values τ) (key : String) (b : Binding τ) : Option (Binding τ) × Values τ :=
  (v.get? key, v.insert key b)

def ofScalars (pairs : List (String × Scalar)) : Values τ :=
  pairs.foldl (fun v p => withScalar v p.1 p.2) Table.empty

def hasTransforms (v : Values τ) : Bool :=
  v.entries.any fun e => e.2.transform?.isSome

def scalars (v : Values τ) : Table Scalar :=
  v.filterMap Binding.scalar?

def transforms (v : Values τ) : Table τ :=
  v.filterMap Binding.transform?

/-- The diagnostic text of a record. -/
def describe (v : Values τ) : String :=
  "\x7b" ++ ", ".intercalate (v.entries.map fun e => quoted e.1 ++ ": " ++ e.2.describe) ++ "\x7d"

end Values

end Phrasebook
