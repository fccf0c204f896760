import Phrasebook.Text.Span
import Phrasebook.Text.WhiteSpace

/-!
# Markup tokens

A tag is `<`, an optional `/`, a name of ASCII letters and digits, anything up to the next `>`, and
that `>`; white space may stand around the `/`.  A tag with the `/` in front of its name closes an
element; one whose last visible character is a `/` is an element of its own; any other opens one.
All other text, a lone `<` included, is text.

Tags are found from left to right, and the text between two of them is one token.
-/

namespace Phrasebook.Markup

inductive Shape where
  | text
  | opening (name : String)
  | closing (name : String)
  | selfClosing (name : String)
deriving DecidableEq, Repr

/-- A piece of markup, the text it was written as and the byte position of that text. -/
structure Token where
  start : Nat
  written : String
  shape : Shape
deriving DecidableEq, Repr

def Token.span (t : Token) : Span :=
  ⟨t.start, t.start + t.written.utf8ByteSize⟩

/-! ### Tags -/

/-- What a tag says before its attributes. -/
structure TagHead where
  closing : Bool
  name : List Char
deriving DecidableEq, Repr

/-- Reads the head of a tag whose `<` has been taken. -/
def tagHead? (cs : List Char) : Option TagHead :=
  let cs := trimStart cs
  let (closing, cs) :=
    match cs with
    | '/' :: cs => (true, trimStart cs)
    | cs => (false, cs)
  let name := cs.takeWhile Char.isAlphanum
  if name.isEmpty then none else some ⟨closing, name⟩

/-- The shape of the tag with this head whose text between `<` and `>` is `body`. -/
def TagHead.shape (head : TagHead) (body : List Char) : Shape :=
  let name := String.ofList (head.name.map Char.toLower)
  if head.closing then .closing name
  else if (trimEnd body).getLast? = some '/' then .selfClosing name
  else .opening name

/-! ### Scanning -/

/-- The token of a run of text, given backwards; an empty run is none. -/
def textToken (start : Nat) (reversed : List Char) : List Token :=
  if reversed.isEmpty then [] else [⟨start, String.ofList reversed.reverse, .text⟩]

/-- The tokens of a text that begins with the characters `reversed`, which are no part of a tag
and start at byte `start`.  A tag needs a `>`; once none is left, all that remains is text. -/
def scanFrom (start : Nat) (reversed : List Char) : List Char → List Token
  | [] => textToken start reversed
  | c :: cs =>
      if c = '<' then
        match tagHead? cs with
        | none => scanFrom start (c :: reversed) cs
        | some head =>
            if '>' ∈ cs then
              let body := cs.takeWhile (· ≠ '>')
              let written := '<' :: body ++ ['>']
              let tagStart := start + utf8Length reversed
              textToken start reversed ++
                ⟨tagStart, String.ofList written, head.shape body⟩ ::
                  scanFrom (tagStart + utf8Length written) [] (cs.dropWhile (· ≠ '>')).tail
            else
              textToken start (cs.reverse ++ c :: reversed)
      else
        scanFrom start (c :: reversed) cs
  termination_by cs => cs.length
  decreasing_by
    · simp only [List.length_cons]; omega
    · have hle := (List.dropWhile_suffix (l := cs) (· ≠ '>')).length_le
      simp only [List.length_cons, List.length_tail]; omega
    · simp only [List.length_cons]; omega

def scan (source : String) : List Token :=
  scanFrom 0 [] source.toList

end Phrasebook.Markup
