import Phrasebook.Catalog.Compile

/-!
# Looking messages up

Every look-up gives a text: where the catalog has none, the message id that was asked for.

A plain look-up of a wording with variants gives variant 1 and a look-up in a context gives
variant 0; existing catalogs rely on this difference.
-/

namespace Phrasebook.Catalog

variable (c : Catalog)

def entry? (context id : String) : Option Wording :=
  (c.messages.get? context).bind (·.get? id)

/-- The single text, or else the variant `k`, or else the id. -/
def textOrVariant (k : Nat) (context id : String) : String :=
  match c.entry? context id with
  | some (.single text) => text
  | some t => (t.variant? k).getD id
  | none => id

/-- A message in the default context. -/
def text (id : String) : String :=
  c.textOrVariant 1 defaultContext id

/-- A message in the context `context`. -/
def textIn (context id : String) : String :=
  c.textOrVariant 0 context id

/-- The variant that the plural rule chooses for `n`, if the message has it. -/
def variantFor? (context id : String) (n : Int64) : Option String := do
  let k ← PluralRule.variantNumber? (c.rule.index n)
  let t ← c.entry? context id
  t.variant? k

/-- The variant for `n` of a message in `context`, or else one of the two ids. -/
def pluralIn (context id idPlural : String) (n : Int64) : String :=
  (c.variantFor? context id n).getD (if n = 1 then id else idPlural)

/-- The variant for `n` of a message in the default context. -/
def plural (id idPlural : String) (n : Int64) : String :=
  c.pluralIn defaultContext id idPlural n

end Phrasebook.Catalog
