import Phrasebook.Format.Scalar
import Phrasebook.Table
import Phrasebook.Text.WhiteSpace

/-!
# Templates

A placeholder is `{{`, at least one character that is no brace, and `}}`.  Placeholders are found
from left to right and do not overlap; every other character stands for itself.  What replaces a
placeholder is not looked at again.
-/

namespace Phrasebook.Template

inductive Piece where
  | char (c : Char)
  | placeholder (inner : List Char)
deriving DecidableEq, Repr

def isBrace (c : Char) : Bool :=
  c = '{' || c = '}'

def Piece.source : Piece → List Char
  | char c => [c]
  | placeholder inner => '{' :: '{' :: inner ++ ['}', '}']

/-- The inner text of a placeholder whose `{{` has been taken. -/
def placeholder? (cs : List Char) : Option (List Char) :=
  let inner := cs.takeWhile (!isBrace ·)
  if !inner.isEmpty && (cs.drop inner.length).take 2 = ['}', '}'] then some inner else none

theorem placeholder?_append {cs inner : List Char} (h : placeholder? cs = some inner) :
    cs = inner ++ '}' :: '}' :: cs.drop (inner.length + 2) := by
  unfold placeholder? at h
  dsimp only at h
  split at h
  · next hc =>
    rw [Bool.and_eq_true, decide_eq_true_eq] at hc
    rw [Option.some.injEq] at h
    rw [h] at hc
    have hdrop : cs.drop inner.length = '}' :: '}' :: cs.drop (inner.length + 2) := by
      rw [← List.drop_drop]
      exact (List.take_append_drop 2 (cs.drop inner.length)).symm.trans (by rw [hc.2]; rfl)
    have hcut : cs.takeWhile (!isBrace ·) ++ cs.dropWhile (!isBrace ·) = cs :=
      List.takeWhile_append_dropWhile
    have htake : cs.take inner.length = inner := by
      rw [h] at hcut
      rw [← hcut, List.take_left]
    rw [← hdrop]
    exact (List.take_append_drop inner.length cs).symm.trans (by rw [htake])
  · exact absurd h (by simp)

def pieces : List Char → List Piece
  | [] => []
  | '{' :: '{' :: cs =>
      match placeholder? cs with
      | some inner => .placeholder inner :: pieces (cs.drop (inner.length + 2))
      | none => .char '{' :: pieces ('{' :: cs)
  | c :: cs => .char c :: pieces cs
termination_by cs => cs.length

/-- The text of a piece; a placeholder whose key has no value is left as it is. -/
def Piece.fill (values : Table Scalar) : Piece → List Char
  | char c => [c]
  | placeholder inner =>
      match values.get? (String.ofList (trim inner)) with
      | some s => s.display.toList
      | none => (placeholder inner).source

/-- Whether `{{` occurs. -/
def hasOpening : List Char → Bool
  | '{' :: '{' :: _ => true
  | _ :: cs => hasOpening cs
  | [] => false

/-- Replaces the placeholders of a template.  Nothing is done if there is nothing to replace. -/
def substitute (template : String) (values : Table Scalar) : String :=
  if values.isEmpty || !hasOpening template.toList then
    template
  else
    String.ofList ((pieces template.toList).flatMap (Piece.fill values))

end Phrasebook.Template
