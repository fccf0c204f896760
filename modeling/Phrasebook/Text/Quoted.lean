import Phrasebook.Text.Unprintable

/-!
# Quoted text

Diagnostic texts show a string between double quotes.  A quote, a backslash and the common
controls have an escape of one letter, and an unprintable character is shown by its number.
-/

namespace Phrasebook

def quotedChar (c : Char) : String :=
  if c = '"' then "\\\""
  else if c = '\\' then "\\\\"
  else if c = '\n' then "\\n"
  else if c = '\r' then "\\r"
  else if c = '\t' then "\\t"
  else if c = '\x00' then "\\0"
  else if ' ' ≤ c && c ≤ '~' then String.singleton c
  else if isUnprintable c then
    "\\u\x7b" ++ String.ofList (Nat.toDigits 16 c.toNat) ++ "\x7d"
  else String.singleton c

def quoted (s : String) : String :=
  "\"" ++ String.join (s.toList.map quotedChar) ++ "\""

end Phrasebook
