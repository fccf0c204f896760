import Phrasebook.Markup.Tree
import Phrasebook.Plural.Rule

/-!
# Events

What is worth a line in a log: each event has a level, a message and named fields, which are texts.
-/

namespace Phrasebook

inductive Severity where
  | trace
  | debug
  | warn
deriving DecidableEq, Repr

inductive Event where
  | compiled (lang : String) (contexts : Nat) (nplurals : Option Nat)
  | fallback (error : InvalidPluralForms) (forms : String)
  | variantCount (context id : String) (variants nplurals : Nat)
  | replaced (previous next : String)
  | closingTagIgnored (tag : String) (offset : Nat)
  | elementClosed (tag : String) (offset : Nat)
deriving DecidableEq, Repr

namespace Event

def severity : Event → Severity
  | compiled .. | replaced .. => .debug
  | fallback .. | variantCount .. => .warn
  | closingTagIgnored .. | elementClosed .. => .trace

def message : Event → String
  | compiled .. => "compiled catalog"
  | fallback .. => "invalid plural forms, using fallback"
  | variantCount .. => "plural variant count does not match nplurals"
  | replaced .. => "replaced catalog"
  | closingTagIgnored .. => "ignoring unmatched closing tag"
  | elementClosed .. => "implicitly closing element"

def optionText : Option Nat → String
  | some n => "Some(" ++ toString n ++ ")"
  | none => "None"

def fields : Event → List (String × String)
  | compiled lang contexts nplurals =>
      [("lang", lang), ("contexts", toString contexts), ("nplurals", optionText nplurals)]
  | fallback error forms => [("error", error.message), ("fallback", forms)]
  | variantCount context id variants nplurals =>
      [("context", context), ("msgid", id), ("variants", toString variants),
        ("nplurals", toString nplurals)]
  | replaced previous next => [("from", previous), ("to", next)]
  | closingTagIgnored tag offset => [("tag", tag), ("offset", toString offset)]
  | elementClosed tag offset => [("tag", tag), ("offset", toString offset)]

/-- The event of a repair of markup. -/
def ofWarning (w : Markup.Warning) : Event :=
  match w.kind with
  | .unexpectedClosingTag => closingTagIgnored w.name w.span.start
  | .unclosedElement => elementClosed w.name w.span.start

end Event

end Phrasebook
