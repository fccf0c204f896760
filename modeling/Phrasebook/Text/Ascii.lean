/-!
# Character classes of plural headers

A plural header is written in ASCII: blanks separate, a letter or `_` starts a name and a digit
may continue one.  No character outside ASCII belongs to any of these classes.
-/

namespace Phrasebook.Ascii

/-- Space, tab, line feed, carriage return, vertical tab and form feed. -/
def isBlank (c : Char) : Bool :=
  c = ' ' || c = '\t' || c = '\n' || c = '\r' || c = '\x0b' || c = '\x0c'

def isDigit (c : Char) : Bool :=
  c.isDigit

def isNameStart (c : Char) : Bool :=
  c.isAlpha || c = '_'

def isNamePart (c : Char) : Bool :=
  isNameStart c || isDigit c

/-- The number that a run of decimal digits denotes. -/
def decimalValue (digits : List Char) : Nat :=
  digits.foldl (fun value c => 10 * value + (c.toNat - '0'.toNat)) 0

end Phrasebook.Ascii
