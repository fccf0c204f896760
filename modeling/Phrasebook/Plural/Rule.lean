import Phrasebook.Plural.Parser
import Phrasebook.Text.Quoted

/-!
# Plural rules

A rule is a compiled plural header: a function from a count to a variant index.  Two rules are
equal when their programs are, whatever their source texts.
-/

namespace Phrasebook

open Plural

/-- A header that was refused, and why. -/
structure InvalidPluralForms where
  source : String
  error : ParseError
deriving DecidableEq, Repr

def InvalidPluralForms.message (e : InvalidPluralForms) : String :=
  "invalid plural expression `" ++ e.source ++ "` at offset " ++ toString e.error.offset ++ ": "
    ++ e.error.cause.message

structure PluralRule where
  source : String
  program : Program
  nplurals : Option Nat
deriving Repr

namespace PluralRule

/-- The variant number that a slot value stands for; a negative value stands for none. -/
def variantNumber? (v : Int64) : Option Nat :=
  if v < 0 then none else some v.toNatClampNeg

theorem variantNumber?_eq_some_iff {v : Int64} {k : Nat} :
    variantNumber? v = some k ↔ v.toInt = k := by
  have hneg : v < 0 ↔ v.toInt < 0 := Int64.lt_iff_toInt_lt
  have hclamp : v.toNatClampNeg = v.toInt.toNat := rfl
  simp only [variantNumber?, Option.ite_none_left_eq_some, Option.some.injEq, hneg, hclamp]
  omega

/-- The number of variants that a program declares: what a run at zero leaves in `nplurals`, if
the program assigns it at all. -/
def declaredCount (p : Program) : Option Nat :=
  if p.assigns npluralsSlot then do
    let env ← p.run 0
    let v ← env[npluralsSlot]?
    variantNumber? v
  else
    none

def compile (source : String) : Except InvalidPluralForms PluralRule :=
  match Program.parse source with
  | .ok program => .ok ⟨source, program, declaredCount program⟩
  | .error e => .error ⟨source, e⟩

/-- The variant index for the count `n`; it may be negative or beyond every variant. -/
def index (rule : PluralRule) (n : Int64) : Int64 :=
  ((rule.program.run n).bind (·[pluralSlot]?)).getD 0

/-- The header of English and most Germanic languages. -/
def defaultForms : String :=
  "nplurals=2; plural=(n != 1);"

/-- The rule of `defaultForms`. -/
def english : PluralRule where
  source := defaultForms
  program :=
    { statements :=
        [.assign npluralsSlot (.lit 2),
          .assign pluralSlot (.binary .notEquals (.var countSlot) (.lit 1))]
      names := reservedNames }
  nplurals := some 2

instance : BEq PluralRule where
  beq a b := decide (a.program = b.program)

/-- The diagnostic text of a rule. -/
def describe (rule : PluralRule) : String :=
  "PluralRule \x7b source: " ++ quoted rule.source ++ ", compiled: " ++ quoted rule.program.text
    ++ " \x7d"

end PluralRule

end Phrasebook
