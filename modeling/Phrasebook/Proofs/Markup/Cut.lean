import Mathlib.Data.List.Chain
import Phrasebook.Proofs.Markup.Tag
import Phrasebook.Proofs.Text.Places

/-!
# Markup is cut without loss

The tokens of a text are a cut of it (`Cut`, `cut_scan`): every piece stands in its place, nothing
is left out between two pieces (`Tiles`, `Cut.tiles`), a tag is whole, and a run of text is one
piece in which no tag begins anywhere (`Cut.isChain`, `not_tagAt_of_mem_scan`).
-/

namespace Phrasebook.Markup

/-! ### Cuts -/

/-- No tag begins inside `text` where `rest` follows it, not even one that reaches into `rest`. -/
def TagFree (text rest : List Char) : Prop :=
  ∀ before after, text = before ++ after → after ≠ [] → ¬ TagAt (after ++ rest)

/-- The tokens are the characters that begin at byte `start`, cut into tags and the text between
them. -/
inductive Cut : Nat → List Char → List Token → Prop
  | nil {start : Nat} : Cut start [] []
  | text {start : Nat} {text rest : List Char} {ts : List Token} :
      text ≠ [] → TagFree text rest → rest = [] ∨ TagAt rest →
      Cut (start + utf8Length text) rest ts →
      Cut start (text ++ rest) (⟨start, String.ofList text, .text⟩ :: ts)
  | tag {start : Nat} {written rest : List Char} {shape : Shape} {ts : List Token} :
      IsTag written shape → Cut (start + utf8Length written) rest ts →
      Cut start (written ++ rest) (⟨start, String.ofList written, shape⟩ :: ts)

/-- The spans lie side by side from `start` to `stop`, and none of them is empty. -/
inductive Tiles : Nat → List Span → Nat → Prop
  | nil {start : Nat} : Tiles start [] start
  | cons {start middle stop : Nat} {spans : List Span} :
      start < middle → Tiles middle spans stop → Tiles start (⟨start, middle⟩ :: spans) stop

theorem Tiles.start_le {start stop : Nat} {spans : List Span} (h : Tiles start spans stop) :
    ∀ s ∈ spans, start ≤ s.start := by
  induction h with
  | nil => simp
  | @cons start middle stop spans hlt _ ih =>
    intro s hs
    rcases List.mem_cons.1 hs with rfl | hs
    · exact Nat.le_refl start
    · exact Nat.le_trans (Nat.le_of_lt hlt) (ih s hs)

theorem Tiles.nodup {start stop : Nat} {spans : List Span} (h : Tiles start spans stop) :
    spans.Nodup := by
  induction h with
  | nil => exact List.nodup_nil
  | @cons start middle stop spans hlt htiles ih =>
    refine List.nodup_cons.2 ⟨?_, ih⟩
    intro hmem
    have hle : middle ≤ start := htiles.start_le _ hmem
    omega

/-! ### The scanner cuts -/

section
variable {start : Nat} {text rest reversed cs written : List Char} {shape : Shape}
  {t : Token} {ts : List Token}

theorem tagFree_nil (rest : List Char) : TagFree [] rest := by
  intro before after htext hafter
  exact absurd (List.append_eq_nil_iff.1 htext.symm).2 hafter

theorem TagFree.concat {c : Char} (h : TagFree text (c :: rest)) (hc : ¬ TagAt (c :: rest)) :
    TagFree (text ++ [c]) rest := by
  intro before after htext hafter
  rcases List.append_eq_append_iff.1 htext with ⟨more, rfl, hmore⟩ | ⟨more, rfl, rfl⟩
  · -- the end begins with `c` or after it
    cases more with
    | nil =>
      rw [List.nil_append] at hmore
      rwa [← hmore]
    | cons d more =>
      have hnil := (List.append_eq_nil_iff.1 (List.cons.inj hmore).2.symm).2
      exact absurd hnil hafter
  · rw [List.append_assoc, List.singleton_append]
    by_cases hmore : more = []
    · rwa [hmore, List.nil_append]
    · exact h before more rfl hmore

theorem cut_textToken (hfree : TagFree reversed.reverse rest) (hrest : rest = [] ∨ TagAt rest)
    (h : Cut (start + utf8Length reversed) rest ts) :
    Cut start (reversed.reverse ++ rest) (textToken start reversed ++ ts) := by
  cases reversed with
  | nil => exact h
  | cons c cs =>
    have hne : (c :: cs).reverse ≠ [] := by simp
    rw [← utf8Length_reverse] at h
    exact .text hne hfree hrest h

/-- Every text begins with a tag or with a character that no tag begins with, or is empty. -/
theorem scan_induction {P : List Char → Prop} (nil : P [])
    (tag : ∀ written shape rest, IsTag written shape → P rest → P (written ++ rest))
    (text : ∀ c cs, ¬ TagAt (c :: cs) → P cs → P (c :: cs)) (cs : List Char) : P cs := by
  induction hn : cs.length using Nat.strongRecOn generalizing cs with
  | _ n ih =>
    subst hn
    by_cases htag : TagAt cs
    · obtain ⟨written, shape, hwritten, rest, rfl⟩ := htag
      obtain ⟨more, rfl⟩ := hwritten.exists_cons
      have hlt : rest.length < ('<' :: more ++ rest).length := by
        simp only [List.cons_append, List.length_cons, List.length_append]
        omega
      exact tag _ shape rest hwritten (ih _ hlt rest rfl)
    · cases cs with
      | nil => exact nil
      | cons c cs => exact text c cs htag (ih _ (by simp) cs rfl)

theorem cut_scanFrom (h : TagFree reversed.reverse cs) :
    Cut start (reversed.reverse ++ cs) (scanFrom start reversed cs) := by
  induction cs using scan_induction generalizing start reversed with
  | nil =>
    rw [scanFrom_nil, ← List.append_nil (textToken start reversed)]
    exact cut_textToken h (.inl rfl) .nil
  | tag written shape rest htag ih =>
    rw [scanFrom_tag htag]
    have hfree : TagFree [].reverse rest := tagFree_nil rest
    have hrest : Cut (start + utf8Length reversed + utf8Length written) rest
        (scanFrom (start + utf8Length reversed + utf8Length written) [] rest) := ih hfree
    exact cut_textToken h (.inr ⟨written, shape, htag, rest, rfl⟩) (.tag htag hrest)
  | text c cs hc ih =>
    rw [scanFrom_text hc]
    have hfree : TagFree (c :: reversed).reverse cs := by
      rw [List.reverse_cons]
      exact h.concat hc
    have hcut : Cut start ((c :: reversed).reverse ++ cs) (scanFrom start (c :: reversed) cs) :=
      ih hfree
    rwa [List.reverse_cons, List.append_assoc, List.singleton_append] at hcut

/-- The tokens of a text are a cut of it. -/
theorem cut_scan (source : String) : Cut 0 source.toList (scan source) := by
  have hfree : TagFree [].reverse source.toList := tagFree_nil source.toList
  exact cut_scanFrom hfree

/-! ### Pieces of a cut -/

theorem span_ofList (start : Nat) (cs : List Char) (shape : Shape) :
    (⟨start, String.ofList cs, shape⟩ : Token).span = ⟨start, start + utf8Length cs⟩ := by
  rw [Token.span, utf8Length_eq_utf8ByteSize]

theorem Cut.tiles (h : Cut start cs ts) :
    Tiles start (ts.map Token.span) (start + utf8Length cs) := by
  induction h with
  | nil => exact .nil
  | @text start text rest ts hne hfree hrest hcut ih =>
    have hpos := utf8Length_pos hne
    rw [List.map_cons, span_ofList, utf8Length_append, ← Nat.add_assoc]
    exact .cons (by omega) ih
  | @tag start written rest shape ts htag hcut ih =>
    obtain ⟨more, rfl⟩ := htag.exists_cons
    have hpos := utf8Length_pos (List.cons_ne_nil '<' more)
    rw [List.map_cons, span_ofList, utf8Length_append, ← Nat.add_assoc]
    exact .cons (by omega) ih

/-- A cut of nothing, or of what begins with a tag, does not begin with text. -/
theorem Cut.head_shape_ne_text (h : Cut start cs ts) (hcs : cs = [] ∨ TagAt cs) :
    ∀ t ∈ ts.head?, t.shape ≠ .text := by
  cases h with
  | nil => simp
  | text hne hfree hrest hcut =>
    rcases hcs with hcs | hcs
    · exact absurd (List.append_eq_nil_iff.1 hcs).1 hne
    · exact absurd hcs (hfree [] _ rfl hne)
  | tag htag hcut =>
    intro t ht
    cases ht
    exact htag.shape_ne_text

/-- Two runs of text do not touch. -/
theorem Cut.isChain (h : Cut start cs ts) :
    ts.IsChain fun t u => ¬ (t.shape = .text ∧ u.shape = .text) := by
  induction h with
  | nil => exact .nil
  | text hne hfree hrest hcut ih =>
    refine List.isChain_cons.2 ⟨?_, ih⟩
    intro u hu hboth
    exact hcut.head_shape_ne_text hrest u hu hboth.2
  | tag htag hcut ih =>
    refine List.isChain_cons.2 ⟨?_, ih⟩
    intro u hu hboth
    exact htag.shape_ne_text hboth.1

/-- Where a piece stands, and what it is there. -/
theorem Cut.exists_place (h : Cut start cs ts) (ht : t ∈ ts) :
    ∃ before after, cs = before ++ (t.written.toList ++ after) ∧
      t.start = start + utf8Length before ∧
      (t.shape = .text → TagFree t.written.toList after) ∧
      (t.shape ≠ .text → IsTag t.written.toList t.shape) := by
  induction h with
  | nil => cases ht
  | @text start text rest ts hne hfree hrest hcut ih =>
    rcases List.mem_cons.1 ht with rfl | ht
    · refine ⟨[], rest, ?_, rfl, ?_, ?_⟩ <;> simp [hfree]
    · obtain ⟨before, after, rfl, hstart, hplace⟩ := ih ht
      refine ⟨text ++ before, after, by simp, ?_, hplace⟩
      rw [hstart, utf8Length_append, Nat.add_assoc]
  | @tag start written rest shape ts htag hcut ih =>
    rcases List.mem_cons.1 ht with rfl | ht
    · refine ⟨[], rest, ?_, rfl, ?_, ?_⟩ <;> simp [htag, htag.shape_ne_text]
    · obtain ⟨before, after, rfl, hstart, hplace⟩ := ih ht
      refine ⟨written ++ before, after, by simp, ?_, hplace⟩
      rw [hstart, utf8Length_append, Nat.add_assoc]

end

/-! ### The tokens of a text -/

section
variable {source : String} {t : Token}

theorem standsAt_of_mem_scan (ht : t ∈ scan source) : StandsAt source t.start t.written := by
  obtain ⟨before, after, hsource, hstart, -⟩ := (cut_scan source).exists_place ht
  exact ⟨before, after, hsource, by rw [hstart, Nat.zero_add]⟩

theorem isTag_of_mem_scan (ht : t ∈ scan source) (hshape : t.shape ≠ .text) :
    IsTag t.written.toList t.shape := by
  obtain ⟨before, after, -, -, -, htag⟩ := (cut_scan source).exists_place ht
  exact htag hshape

/-- No tag of the source begins between the two ends of a run of text. -/
theorem not_tagAt_of_mem_scan (ht : t ∈ scan source) (hshape : t.shape = .text)
    {front rest : List Char} (hsource : source.toList = front ++ rest)
    (hstart : t.start ≤ utf8Length front) (hstop : utf8Length front < t.span.stop) :
    ¬ TagAt rest := by
  obtain ⟨before, after, hplace, hbefore, hfree, -⟩ := (cut_scan source).exists_place ht
  rw [Nat.zero_add] at hbefore
  have hfront : front <+: source.toList := ⟨rest, hsource.symm⟩
  have hpre : before <+: source.toList := ⟨_, hplace.symm⟩
  obtain ⟨middle, rfl⟩ := isPrefix_of_utf8Length_le hpre hfront (hbefore ▸ hstart)
  have hlt : utf8Length middle < utf8Length t.written.toList := by
    have hend : utf8Length (before ++ middle) < t.start + t.written.utf8ByteSize := hstop
    rw [utf8Length_append, hbefore] at hend
    rw [utf8Length_toList]
    omega
  have hrest : t.written.toList ++ after = middle ++ rest := by
    rw [hplace, List.append_assoc] at hsource
    exact List.append_cancel_left hsource
  rcases List.append_eq_append_iff.1 hrest with ⟨more, rfl, -⟩ | ⟨more, htext, rfl⟩
  · rw [utf8Length_append] at hlt
    omega
  · refine hfree hshape middle more htext ?_
    rintro rfl
    rw [htext, List.append_nil] at hlt
    omega

/-- Every token is the slice at its span, and these tile the source; two runs of text do not touch,
every other piece is a tag of the source, and no tag begins inside a run of text. -/
theorem scan_lossless (source : String) :
    Tiles 0 ((scan source).map Token.span) source.utf8ByteSize ∧
    (∀ t ∈ scan source, StandsAt source t.start t.written ∧ t.span.slice source = t.written) ∧
    ((scan source).IsChain fun t u => ¬ (t.shape = .text ∧ u.shape = .text)) ∧
    (∀ t ∈ scan source, t.shape ≠ .text → IsTag t.written.toList t.shape) ∧
    ∀ t ∈ scan source, t.shape = .text → ∀ front rest, source.toList = front ++ rest →
      t.start ≤ utf8Length front → utf8Length front < t.span.stop → ¬ TagAt rest := by
  have hcut := cut_scan source
  refine ⟨?_, ?_, hcut.isChain, ?_, ?_⟩
  · have htiles := hcut.tiles
    rwa [Nat.zero_add, utf8Length_toList] at htiles
  · intro t ht
    have hstands := standsAt_of_mem_scan ht
    exact ⟨hstands, hstands.slice⟩
  · intro t ht
    exact isTag_of_mem_scan ht
  · intro t ht hshape front rest
    exact not_tagAt_of_mem_scan ht hshape

end

end Phrasebook.Markup
