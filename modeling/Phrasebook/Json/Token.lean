import Phrasebook.Text.Span
import Phrasebook.Json.Number

/-!
# Tokens of JSON texts

The scanner cuts a text into tokens as far as it can.  Where a token breaks off it gives a last
token, `brokenString` or `broken`, with the fault that each kind of reader finds there.

A string is scanned in two steps.  `scanString` finds its end; an escape `\uXXXX` is kept as a
16-bit unit.  `joinUnits` then pairs the units that need it, and refuses one that stands alone.
-/

namespace Phrasebook.Json

/-! ### Strings -/

/-- A part of a string: a character, or the unit that an escape `\uXXXX` names. -/
inductive StringPart where
  | char (c : Char)
  | unit (n : Nat)

def hexValue? (c : Char) : Option Nat :=
  if '0' ≤ c ∧ c ≤ '9' then some (c.toNat - '0'.toNat)
  else if 'a' ≤ c ∧ c ≤ 'f' then some (c.toNat - 'a'.toNat + 10)
  else if 'A' ≤ c ∧ c ≤ 'F' then some (c.toNat - 'A'.toNat + 10)
  else none

/-- The unit that four hexadecimal digits name. -/
def unitOfHex? (a b c d : Char) : Option Nat := do
  let a ← hexValue? a
  let b ← hexValue? b
  let c ← hexValue? c
  let d ← hexValue? d
  return 4096 * a + 256 * b + 16 * c + d

/-- The character that a one-letter escape names. -/
def escape? : Char → Option Char
  | '"' => some '"'
  | '\\' => some '\\'
  | '/' => some '/'
  | 'b' => some '\x08'
  | 'f' => some '\x0c'
  | 'n' => some '\n'
  | 'r' => some '\r'
  | 't' => some '\t'
  | _ => none

/-- What follows an opening quote: the parts up to the closing quote or up to a fault, and the
text after the closing quote. -/
structure ScannedString where
  parts : List StringPart
  fault : Option Fault
  rest : List Char

def ScannedString.cons (part : StringPart) (s : ScannedString) : ScannedString :=
  { s with parts := part :: s.parts }

def scanString : List Char → ScannedString
  | [] => ⟨[], some .truncated, []⟩
  | '"' :: rest => ⟨[], none, rest⟩
  | ['\\'] => ⟨[], some .truncated, []⟩
  | '\\' :: 'u' :: a :: b :: c :: d :: rest =>
      match unitOfHex? a b c d with
      | some n => (scanString rest).cons (.unit n)
      | none => ⟨[], some .malformed, []⟩
  | '\\' :: 'u' :: rest =>
      ⟨[], some (if utf8Length rest < 4 then .truncated else .malformed), []⟩
  | '\\' :: e :: rest =>
      match escape? e with
      | some c => (scanString rest).cons (.char c)
      | none => ⟨[], some .malformed, []⟩
  | c :: rest =>
      if c.toNat < 32 then ⟨[], some .malformed, []⟩ else (scanString rest).cons (.char c)

theorem scanString_rest_length (cs : List Char) : (scanString cs).rest.length ≤ cs.length := by
  fun_induction scanString cs <;> simp only [ScannedString.cons, List.length_cons,
    List.length_nil] <;> omega

def isHighSurrogate (n : Nat) : Bool :=
  0xD800 ≤ n && n ≤ 0xDBFF

def isLowSurrogate (n : Nat) : Bool :=
  0xDC00 ≤ n && n ≤ 0xDFFF

/-- The text of the parts.  A surrogate must stand in a pair; `fault` is what comes after the last
part. -/
def joinUnits (fault : Option Fault) : List StringPart → Except Fault (List Char)
  | [] =>
      match fault with
      | some f => .error f
      | none => .ok []
  | .char c :: parts => do
      let cs ← joinUnits fault parts
      return c :: cs
  | [.unit n] =>
      if isHighSurrogate n then .error (fault.getD .malformed)
      else if isLowSurrogate n then .error .malformed
      else
        match fault with
        | some f => .error f
        | none => .ok [Char.ofNat n]
  | .unit n :: .unit m :: parts =>
      if isHighSurrogate n then
        if isLowSurrogate m then do
          let cs ← joinUnits fault parts
          return Char.ofNat (0x10000 + 0x400 * (n - 0xD800) + (m - 0xDC00)) :: cs
        else
          .error .malformed
      else if isLowSurrogate n then .error .malformed
      else do
        let cs ← joinUnits fault (.unit m :: parts)
        return Char.ofNat n :: cs
  | .unit n :: .char c :: parts =>
      if isHighSurrogate n || isLowSurrogate n then .error .malformed
      else do
        let cs ← joinUnits fault parts
        return Char.ofNat n :: c :: cs

/-! ### Tokens -/

inductive Token where
  | openArray
  | closeArray
  | openObject
  | closeObject
  | comma
  | colon
  | null
  | bool (b : Bool)
  | number (n : Except Fault Number)
  | string (s : Except Fault String)
  | brokenString (cut : Cut)
  | broken (cut : Cut)

def isSpace (c : Char) : Bool :=
  c = ' ' || c = '\t' || c = '\n' || c = '\r'

/-- A token and the text after it. -/
abbrev Scanned := Token × List Char

def stringToken (rest : List Char) : Scanned :=
  let s := scanString rest
  let text := (joinUnits s.fault s.parts).map String.ofList
  match s.fault, text with
  | none, _ => (.string text, s.rest)
  | some skipped, .error f => (.brokenString ⟨f, f, skipped⟩, [])
  | some skipped, .ok _ => (.brokenString ⟨skipped, skipped, skipped⟩, [])

/-- The rest of the word `word`, and what it means. -/
def wordToken (meaning : Token) : List Char → List Char → Scanned
  | [], rest => (meaning, rest)
  | _ :: _, [] => (.broken ⟨.truncated, .malformed, .truncated⟩, [])
  | w :: ws, c :: cs =>
      if c = w then wordToken meaning ws cs else (.broken .atStray, [])

/-- A number lacks a digit at the start of `rest`. -/
def digitMissing (rest : List Char) : Scanned :=
  (.broken ⟨if rest.isEmpty then .truncated else .malformed, .malformed, .malformed⟩, [])

def digitsOf (cs : List Char) : List Char :=
  cs.takeWhile Ascii.isDigit

def afterDigits (cs : List Char) : List Char :=
  cs.dropWhile Ascii.isDigit

/-- The part of a number after its digits and its fraction. -/
def exponentToken (negative : Bool) (whole : List Char) (fraction : Option (List Char))
    (rest : List Char) : Scanned :=
  let finish (exponent : Option Int) (rest : List Char) : Scanned :=
    (.number (NumberParts.value ⟨negative, whole, fraction, exponent⟩), rest)
  let signed (sign : Int) (rest : List Char) : Scanned :=
    if (digitsOf rest).isEmpty then digitMissing rest
    else finish (some (sign * Ascii.decimalValue (digitsOf rest))) (afterDigits rest)
  match rest with
  | 'e' :: '-' :: rest | 'E' :: '-' :: rest => signed (-1) rest
  | 'e' :: '+' :: rest | 'E' :: '+' :: rest => signed 1 rest
  | 'e' :: rest | 'E' :: rest => signed 1 rest
  | rest => finish none rest

/-- The part of a number after its digits. -/
def fractionToken (negative : Bool) (whole rest : List Char) : Scanned :=
  match rest with
  | '.' :: rest =>
      if (digitsOf rest).isEmpty then digitMissing rest
      else exponentToken negative whole (some (digitsOf rest)) (afterDigits rest)
  | rest => exponentToken negative whole none rest

/-- A number without its sign.  A leading zero stands alone. -/
def numberToken (negative : Bool) (cs : List Char) : Scanned :=
  match digitsOf cs with
  | [] => digitMissing cs
  | '0' :: _ :: _ => (.broken .atStray, [])
  | whole => fractionToken negative whole (afterDigits cs)

/-- The token that begins with `c`. -/
def tokenAt (c : Char) (rest : List Char) : Scanned :=
  match c with
  | '[' => (.openArray, rest)
  | ']' => (.closeArray, rest)
  | '{' => (.openObject, rest)
  | '}' => (.closeObject, rest)
  | ',' => (.comma, rest)
  | ':' => (.colon, rest)
  | '"' => stringToken rest
  | 'n' => wordToken .null ['u', 'l', 'l'] rest
  | 't' => wordToken (.bool true) ['r', 'u', 'e'] rest
  | 'f' => wordToken (.bool false) ['a', 'l', 's', 'e'] rest
  | '-' => numberToken true rest
  | c => if Ascii.isDigit c then numberToken false (c :: rest) else (.broken .atStray, [])

/-! ### A token takes at least its first character -/

theorem wordToken_rest_length (meaning : Token) (ws cs : List Char) :
    (wordToken meaning ws cs).2.length ≤ cs.length := by
  fun_induction wordToken meaning ws cs <;> simp_all only [List.length_cons, List.length_nil] <;>
    omega

theorem stringToken_rest_length (cs : List Char) : (stringToken cs).2.length ≤ cs.length := by
  have h := scanString_rest_length cs
  unfold stringToken
  dsimp only
  split <;> simp only [List.length_nil] <;> omega

theorem afterDigits_length (cs : List Char) : (afterDigits cs).length ≤ cs.length :=
  (List.dropWhile_suffix _).length_le

theorem exponentToken_rest_length (negative : Bool) (whole : List Char)
    (fraction : Option (List Char)) (rest : List Char) :
    (exponentToken negative whole fraction rest).2.length ≤ rest.length := by
  have signed_le (cs : List Char) (sign : Int) :
      (if (digitsOf cs).isEmpty then digitMissing cs
        else (Token.number (NumberParts.value ⟨negative, whole, fraction,
          some (sign * Ascii.decimalValue (digitsOf cs))⟩), afterDigits cs)).2.length
        ≤ cs.length := by
    split
    · simp only [digitMissing, List.length_nil]; omega
    · exact afterDigits_length cs
  unfold exponentToken
  split
  · exact Nat.le_trans (signed_le _ _) (by simp only [List.length_cons]; omega)
  · exact Nat.le_trans (signed_le _ _) (by simp only [List.length_cons]; omega)
  · exact Nat.le_trans (signed_le _ _) (by simp only [List.length_cons]; omega)
  · exact Nat.le_trans (signed_le _ _) (by simp only [List.length_cons]; omega)
  · exact Nat.le_trans (signed_le _ _) (by simp only [List.length_cons]; omega)
  · exact Nat.le_trans (signed_le _ _) (by simp only [List.length_cons]; omega)
  · exact Nat.le_refl _

theorem fractionToken_rest_length (negative : Bool) (whole rest : List Char) :
    (fractionToken negative whole rest).2.length ≤ rest.length := by
  unfold fractionToken
  split
  · split
    · simp only [digitMissing, List.length_nil]; omega
    · exact Nat.le_trans (exponentToken_rest_length _ _ _ _)
        (Nat.le_trans (afterDigits_length _) (by simp only [List.length_cons]; omega))
  · exact exponentToken_rest_length _ _ _ _

/-- A number of digits takes at least one of them. -/
theorem numberToken_rest_length (negative : Bool) (cs : List Char) :
    (numberToken negative cs).2.length ≤ cs.length - 1 := by
  unfold numberToken
  split
  · simp only [digitMissing, List.length_nil]; omega
  · simp only [List.length_nil]; omega
  · next whole hne _ =>
    have hcut : digitsOf cs ++ afterDigits cs = cs := List.takeWhile_append_dropWhile
    have hlen : 0 < (digitsOf cs).length := List.length_pos_iff.2 hne
    have h := congrArg List.length hcut
    rw [List.length_append] at h
    exact Nat.le_trans (fractionToken_rest_length _ _ _) (by omega)

theorem tokenAt_rest_length (c : Char) (rest : List Char) :
    (tokenAt c rest).2.length ≤ rest.length := by
  unfold tokenAt
  split
  iterate 6 exact Nat.le_refl _
  · exact stringToken_rest_length _
  iterate 3 exact wordToken_rest_length _ _ _
  · exact Nat.le_trans (numberToken_rest_length _ _) (by omega)
  · split
    · exact numberToken_rest_length _ _
    · simp only [List.length_nil]; omega

/-- The tokens of a text.  Nothing follows a broken token. -/
def scan : List Char → List Token
  | [] => []
  | c :: rest =>
      if isSpace c then scan rest else (tokenAt c rest).1 :: scan (tokenAt c rest).2
  termination_by cs => cs.length
  decreasing_by
    · simp only [List.length_cons]; omega
    · have := tokenAt_rest_length c rest
      simp only [List.length_cons]; omega

end Phrasebook.Json
