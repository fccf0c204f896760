import Phrasebook.Plural.Rule
import Phrasebook.Table

/-!
# Catalog documents

What a catalog is compiled from: messages by context and id, and optionally a language and a plural
header.  `Options` say what stands in for a missing or invalid part.
-/

namespace Phrasebook

/-- How a message is worded: in one text, or in one text for each plural variant. -/
inductive Wording where
  | single (text : String)
  | plural (variants : List String)
deriving DecidableEq, Repr

/-- The text of a variant; a single text has none. -/
def Wording.variant? : Wording → Nat → Option String
  | single _, _ => none
  | plural variants, k => variants[k]?

/-- Wordings by context and message id. -/
abbrev Messages := Table (Table Wording)

/-- The context of messages that have none. -/
def defaultContext : String := ""

structure Document where
  pluralForms : Option String
  lang : Option String
  messages : Messages
deriving DecidableEq, Repr

def Document.empty : Document :=
  ⟨none, none, .empty⟩

/-- What happens to a document whose plural header is invalid. -/
inductive InvalidFormsPolicy where
  | reject
  | useDefault
deriving DecidableEq, Repr

structure Options where
  defaultPluralForms : String := PluralRule.defaultForms
  defaultLang : String := "en"
  invalidForms : InvalidFormsPolicy := .reject
deriving DecidableEq, Repr

end Phrasebook
