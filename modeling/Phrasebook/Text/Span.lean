/-!
# Byte spans

Positions count the bytes of the UTF-8 form of a text.  A span that does not begin and end
between two characters of the text has an empty slice.
-/

namespace Phrasebook

/-- The number of bytes that the UTF-8 form of `cs` takes. -/
def utf8Length : List Char → Nat
  | [] => 0
  | c :: cs => c.utf8Size + utf8Length cs

@[simp] theorem utf8Length_append (cs ds : List Char) :
    utf8Length (cs ++ ds) = utf8Length cs + utf8Length ds := by
  induction cs with
  | nil => simp only [List.nil_append, utf8Length, Nat.zero_add]
  | cons c cs ih => simp only [List.cons_append, utf8Length, ih, Nat.add_assoc]

theorem utf8Length_eq_utf8ByteSize (cs : List Char) :
    utf8Length cs = (String.ofList cs).utf8ByteSize := by
  induction cs with
  | nil => simp only [utf8Length, String.ofList_nil, String.utf8ByteSize_empty]
  | cons c cs ih =>
    rw [utf8Length, ih, ← List.singleton_append, String.ofList_append, String.utf8ByteSize_append,
      ← String.singleton_eq_ofList, String.utf8ByteSize_singleton]

theorem utf8Length_pos {cs : List Char} (h : cs ≠ []) : 0 < utf8Length cs := by
  obtain ⟨c, more, rfl⟩ := List.exists_cons_of_ne_nil h
  have hc : 0 < c.utf8Size := Char.utf8Size_pos c
  rw [utf8Length]
  omega

/-- Of two beginnings of a text the one with fewer bytes is a beginning of the other. -/
theorem isPrefix_of_utf8Length_le {cs ds text : List Char} (hcs : cs <+: text) (hds : ds <+: text)
    (hle : utf8Length cs ≤ utf8Length ds) : cs <+: ds := by
  rcases List.prefix_or_prefix_of_prefix hcs hds with h | ⟨more, rfl⟩
  · exact h
  · by_cases hmore : more = []
    · exact ⟨[], by simp [hmore]⟩
    · have hpos := utf8Length_pos hmore
      rw [utf8Length_append] at hle
      omega

/-- Cuts `cs` after exactly `n` bytes, if a character ends there. -/
def splitBytes? : Nat → List Char → Option (List Char × List Char)
  | 0, cs => some ([], cs)
  | _ + 1, [] => none
  | n + 1, c :: cs =>
      if c.utf8Size ≤ n + 1 then
        (splitBytes? (n + 1 - c.utf8Size) cs).map fun p => (c :: p.1, p.2)
      else
        none

theorem splitBytes?_append (cs ds : List Char) :
    splitBytes? (utf8Length cs) (cs ++ ds) = some (cs, ds) := by
  induction cs with
  | nil => simp only [utf8Length, List.nil_append, splitBytes?]
  | cons c cs ih =>
    have hc : 0 < c.utf8Size := Char.utf8Size_pos c
    obtain ⟨n, hn⟩ : ∃ n, utf8Length (c :: cs) = n + 1 :=
      ⟨utf8Length (c :: cs) - 1, by rw [utf8Length]; omega⟩
    have hle : c.utf8Size ≤ n + 1 := by rw [← hn, utf8Length]; omega
    have hsub : n + 1 - c.utf8Size = utf8Length cs := by rw [← hn, utf8Length]; omega
    simp only [hn, List.cons_append, splitBytes?, hle, if_true, hsub, ih, Option.map_some]

/-- A range of byte positions, `start` included and `stop` not. -/
structure Span where
  start : Nat
  stop : Nat
deriving DecidableEq, Repr

/-- The part of `text` that the span covers. -/
def Span.slice (span : Span) (text : String) : String :=
  if span.start ≤ span.stop then
    match splitBytes? span.start text.toList with
    | some (_, rest) =>
        match splitBytes? (span.stop - span.start) rest with
        | some (covered, _) => String.ofList covered
        | none => ""
    | none => ""
  else
    ""

end Phrasebook
