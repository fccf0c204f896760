import Phrasebook.Decimal.Notation

/-!
# JSON values

The members of an object keep their order, and a key may occur more than once.  `Value.chars` is
the compact text of a value in front of another text; building it in front keeps it linear.
-/

namespace Phrasebook.Json

/-- An integer from `-2^63` to `2^64 - 1` that was written as one; every other number is real. -/
inductive Number where
  | integer (value : Int)
  | real (value : Float)
deriving Repr

inductive Value where
  | null
  | bool (b : Bool)
  | number (n : Number)
  | string (s : String)
  | array (items : List Value)
  | object (members : List (String × Value))
deriving Repr, Inhabited

/-! ### Compact text -/

def hexDigit (n : Nat) : Char :=
  if n < 10 then Char.ofNat ('0'.toNat + n) else Char.ofNat ('a'.toNat + (n - 10))

/-- A character inside a string, in front of `rest`.  Only `"`, `\` and the characters below
U+0020 are escaped, the latter by a letter where there is one. -/
def escapedChars (c : Char) (rest : List Char) : List Char :=
  if c = '"' then '\\' :: '"' :: rest
  else if c = '\\' then '\\' :: '\\' :: rest
  else if c.toNat < 32 then
    if c = '\x08' then '\\' :: 'b' :: rest
    else if c = '\x0c' then '\\' :: 'f' :: rest
    else if c = '\n' then '\\' :: 'n' :: rest
    else if c = '\r' then '\\' :: 'r' :: rest
    else if c = '\t' then '\\' :: 't' :: rest
    else '\\' :: 'u' :: '0' :: '0' :: hexDigit (c.toNat / 16) :: hexDigit (c.toNat % 16) :: rest
  else c :: rest

def stringChars (s : String) (rest : List Char) : List Char :=
  '"' :: s.toList.foldr escapedChars ('"' :: rest)

namespace Value

mutual

def chars : Value → List Char → List Char
  | null, rest => 'n' :: 'u' :: 'l' :: 'l' :: rest
  | bool true, rest => 't' :: 'r' :: 'u' :: 'e' :: rest
  | bool false, rest => 'f' :: 'a' :: 'l' :: 's' :: 'e' :: rest
  | number (.integer n), rest => (toString n).toList ++ rest
  | number (.real x), rest => (Decimal.display x).toList ++ rest
  | string s, rest => stringChars s rest
  | array [], rest => '[' :: ']' :: rest
  | array (v :: vs), rest => '[' :: v.chars (itemChars vs rest)
  | object [], rest => '{' :: '}' :: rest
  | object ((k, v) :: ms), rest => '{' :: stringChars k (':' :: v.chars (memberChars ms rest))

/-- The items after the first one, and the bracket that closes the array. -/
def itemChars : List Value → List Char → List Char
  | [], rest => ']' :: rest
  | v :: vs, rest => ',' :: v.chars (itemChars vs rest)

/-- The members after the first one, and the brace that closes the object. -/
def memberChars : List (String × Value) → List Char → List Char
  | [], rest => '}' :: rest
  | (k, v) :: ms, rest => ',' :: stringChars k (':' :: v.chars (memberChars ms rest))

end

/-- The compact text of a value. -/
def text (v : Value) : String :=
  String.ofList (v.chars [])

end Value

end Phrasebook.Json
