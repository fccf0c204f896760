import Phrasebook.Text.Ascii
import Phrasebook.Text.Span
import Phrasebook.Plural.Operator
import Phrasebook.Word64

/-!
# Tokens of plural headers

The scanner cuts a header into lexemes and drops the blanks between them.  A lexeme is as long as
it can be: its first character decides which characters may follow (`continuation`), and its text
decides what it is (`Lexeme.ofText`).  The first fault ends the token list.
-/

namespace Phrasebook.Plural

open Ascii

/-! ### Lexemes -/

inductive Mark where
  | openParen
  | closeParen
  | comma
  | colon
  | semicolon
deriving DecidableEq, Repr

namespace Mark

def char : Mark → Char
  | openParen => '('
  | closeParen => ')'
  | comma => ','
  | colon => ':'
  | semicolon => ';'

def ofText? : List Char → Option Mark
  | ['('] => some openParen
  | [')'] => some closeParen
  | [','] => some comma
  | [':'] => some colon
  | [';'] => some semicolon
  | _ => none

theorem ofText?_char (m : Mark) : ofText? [m.char] = some m := by
  cases m <;> rfl

end Mark

/-- Operators as they are written; `-` and `+` are signs of a binary operator even where they
stand in front of an operand. -/
inductive Sign where
  | operator (op : BinaryOperator)
  | not
  | assign
  | question
deriving DecidableEq, Repr

namespace Sign

def text : Sign → String
  | operator op => op.text
  | not => "!"
  | assign => "="
  | question => "?"

/-- A third `=` adds nothing: `===` is `==` and `!==` is `!=`. -/
def ofText? : List Char → Option Sign
  | ['!'] => some not
  | ['='] => some assign
  | ['?'] => some question
  | ['=', '=', '='] => some (operator .equals)
  | ['!', '=', '='] => some (operator .notEquals)
  | cs => (BinaryOperator.ofText? (String.ofList cs)).map operator

/-- The operator that the sign is in front of an operand. -/
def unary? : Sign → Option UnaryOperator
  | not => some .not
  | operator .subtract => some .minus
  | operator .add => some .plus
  | _ => none

end Sign

/-- Why no token can be read at a place. -/
inductive LexicalFault where
  | unexpected (c : Char)
  | invalidNumber
  | numberOutOfRange (digits : String)
deriving DecidableEq, Repr

def LexicalFault.message : LexicalFault → String
  | unexpected c => "Unexpected character [" ++ String.singleton c ++ "]"
  | invalidNumber => "Invalid number literal"
  | numberOutOfRange digits => "Number literal out of range [" ++ digits ++ "]"

inductive Lexeme where
  | mark (m : Mark)
  | name (text : String)
  | keyword (text : String)
  | sign (s : Sign)
  | number (value : Int64)
  | fault (f : LexicalFault)
deriving DecidableEq, Repr

/-- The words that may introduce a declaration. -/
def keywords : List String :=
  ["let", "var", "const"]

namespace Lexeme

/-- The text that the lexeme carries; a number carries its value instead, a fault its message. -/
def text : Lexeme → String
  | mark m => String.singleton m.char
  | name t => t
  | keyword t => t
  | sign s => s.text
  | number _ => ""
  | fault f => f.message

def isFault : Lexeme → Bool
  | fault _ => true
  | _ => false

/-- What the text `c :: more` is when `next` follows it. -/
def ofText (c : Char) (more : List Char) (next : Option Char) : Lexeme :=
  let text := String.ofList (c :: more)
  if isNameStart c then
    if keywords.contains text then keyword text else name text
  else if isDigit c then
    if next.any isNameStart then
      fault .invalidNumber
    else
      let value := decimalValue (c :: more)
      if value ≤ maxInt64 then number (Int64.ofNat value) else fault (.numberOutOfRange text)
  else
    match Mark.ofText? (c :: more) with
    | some m => mark m
    | none =>
        match Sign.ofText? (c :: more) with
        | some s => sign s
        | none => fault (.unexpected c)

end Lexeme

/-! ### Scanning -/

/-- The characters of `rest` that belong to the lexeme that begins with `c`. -/
def continuation (c : Char) (rest : List Char) : List Char :=
  if isNameStart c then rest.takeWhile isNamePart
  else if isDigit c then rest.takeWhile isDigit
  else if c = '<' || c = '>' then (rest.take 1).takeWhile (· = '=')
  else if c = '!' || c = '=' then (rest.take 2).takeWhile (· = '=')
  else if c = '&' || c = '|' then (rest.take 1).takeWhile (· = c)
  else []

theorem continuation_isPrefix (c : Char) (rest : List Char) : continuation c rest <+: rest := by
  have take_isPrefix (p : Char → Bool) (k : Nat) : (rest.take k).takeWhile p <+: rest :=
    (List.takeWhile_prefix p).trans (List.take_prefix k rest)
  unfold continuation
  split
  · exact List.takeWhile_prefix _
  split
  · exact List.takeWhile_prefix _
  split
  · exact take_isPrefix _ _
  split
  · exact take_isPrefix _ _
  split
  · exact take_isPrefix _ _
  · exact List.nil_prefix

/-- A lexeme, the text it was written as and the byte position of that text. -/
structure Token where
  start : Nat
  written : String
  lexeme : Lexeme
deriving DecidableEq, Repr

def Token.stop (t : Token) : Nat :=
  t.start + t.written.utf8ByteSize

/-- The tokens of a text that begins at byte `offset`. -/
def scanFrom (offset : Nat) : List Char → List Token
  | [] => []
  | c :: rest =>
      if isBlank c then
        scanFrom (offset + c.utf8Size) rest
      else
        let more := continuation c rest
        let after := rest.drop more.length
        let lexeme := Lexeme.ofText c more after.head?
        let token := ⟨offset, String.ofList (c :: more), lexeme⟩
        if lexeme.isFault then [token] else token :: scanFrom (offset + utf8Length (c :: more)) after
  termination_by cs => cs.length

def scan (source : String) : List Token :=
  scanFrom 0 source.toList

end Phrasebook.Plural
