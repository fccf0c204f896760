import Phrasebook.Text.Span

/-!
# Texts in their places

`StandsAt` says that a text stands in a source at a byte position, with both of its ends between two
characters of the source.  Such a text ends inside the source (`StandsAt.le`) and is the slice at
its span (`StandsAt.slice`), and its beginnings stand where it does (`StandsAt.take`).
-/

namespace Phrasebook

/-! ### Lengths -/

theorem utf8Length_reverse (cs : List Char) : utf8Length cs.reverse = utf8Length cs := by
  induction cs with
  | nil => rfl
  | cons c cs ih =>
    rw [List.reverse_cons, utf8Length_append, ih]
    simp only [utf8Length]
    omega

theorem utf8Length_toList (s : String) : utf8Length s.toList = s.utf8ByteSize := by
  rw [utf8Length_eq_utf8ByteSize, String.ofList_toList]

/-! ### Places -/

/-- The text stands in the source, beginning at the byte position: both of its ends are between
two characters of the source. -/
def StandsAt (source : String) (offset : Nat) (text : String) : Prop :=
  ∃ before after, source.toList = before ++ (text.toList ++ after) ∧ utf8Length before = offset

section
variable {source text : String} {offset : Nat}

theorem StandsAt.take {cs : List Char} (h : StandsAt source offset text)
    (hcs : cs <+: text.toList) : StandsAt source offset (String.ofList cs) := by
  obtain ⟨before, after, hsource, hoffset⟩ := h
  obtain ⟨more, hmore⟩ := hcs
  refine ⟨before, more ++ after, ?_, hoffset⟩
  rw [hsource, ← hmore, String.toList_ofList, List.append_assoc]

theorem StandsAt.nil (h : StandsAt source offset text) : StandsAt source offset "" :=
  h.take List.nil_prefix

theorem standsAt_end (source : String) : StandsAt source source.utf8ByteSize "" := by
  refine ⟨source.toList, [], ?_, utf8Length_toList source⟩
  rw [show "".toList = [] from rfl, List.nil_append, List.append_nil]

theorem StandsAt.le (h : StandsAt source offset text) :
    offset + text.utf8ByteSize ≤ source.utf8ByteSize := by
  obtain ⟨before, after, hsource, hoffset⟩ := h
  rw [← utf8Length_toList source, hsource, utf8Length_append, utf8Length_append,
    utf8Length_toList, hoffset]
  omega

theorem StandsAt.slice (h : StandsAt source offset text) :
    (⟨offset, offset + text.utf8ByteSize⟩ : Span).slice source = text := by
  obtain ⟨before, after, hsource, rfl⟩ := h
  have hbefore := splitBytes?_append before (text.toList ++ after)
  have htext := splitBytes?_append text.toList after
  rw [utf8Length_toList] at htext
  simp only [Span.slice, hsource, hbefore, Nat.le_add_right, if_true, Nat.add_sub_cancel_left,
    htext, String.ofList_toList]

end

end Phrasebook
