/-!
# Faults of JSON texts

A text is read from left to right and its first fault decides: it ends too early, it is not JSON,
or it is JSON that describes something else than the reader wants.

One place of a text can be at fault in different ways, since it depends on the reader there: one
takes any value, one judges a value by its first character, one passes over the value without
looking into it.  A `Cut` records all three.
-/

namespace Phrasebook.Json

inductive Fault where
  | truncated
  | malformed
  | mismatch
deriving DecidableEq, Repr

/-- The fault where a text breaks off. -/
structure Cut where
  /-- for a reader of any value -/
  value : Fault
  /-- for a reader that judges a value by its first character -/
  first : Fault
  /-- for a reader that passes over the value -/
  skipped : Fault
deriving DecidableEq, Repr

/-- The text ends. -/
def Cut.atEnd : Cut :=
  ⟨.truncated, .truncated, .truncated⟩

/-- The text goes on with something that cannot stand there. -/
def Cut.atStray : Cut :=
  ⟨.malformed, .malformed, .malformed⟩

/-- Values may be nested this deep, unless they are passed over. -/
def maxDepth : Nat := 127

end Phrasebook.Json
