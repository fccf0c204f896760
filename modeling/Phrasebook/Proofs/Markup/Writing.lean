import Phrasebook.Proofs.Markup.Cut
import Phrasebook.Proofs.Markup.Nesting

/-!
# Written forests are read back

A forest is written down by writing each of its texts as it is and each element between its tags,
in any letter case (`Written`).  Where the texts cannot be taken for tags and do not run into one
another (`Writable`), such a writing has no other reading: its tokens denote the forest
(`Written.exists_reads`), so parsing gives the forest back.
-/

namespace Phrasebook.Markup

/-! ### Writing -/

/-- The names that an element can have after parsing: lower-case letters and digits. -/
structure ElementName (name : String) : Prop where
  ne_empty : name ≠ ""
  lower : ∀ c ∈ name.toList, c.isLower = true ∨ c.isDigit = true

/-- The forests that can be told from their writing. -/
inductive Writable : List Node → Prop
  | nil : Writable []
  | text {value : String} {ns : List Node} : value ≠ "" → '<' ∉ value.toList →
      (∀ other more, ns ≠ .text other :: more) → Writable ns → Writable (.text value :: ns)
  | element {name : String} {children ns : List Node} : ElementName name →
      Writable children → Writable ns → Writable (.element name children :: ns)

/-- The characters are the name, some letters of which may be in upper case. -/
def Spells (tag : List Char) (name : String) : Prop :=
  tag.map Char.toLower = name.toList

/-- The characters write the forest down. -/
inductive Written : List Node → List Char → Prop
  | nil : Written [] []
  | text {value : String} {ns : List Node} {cs : List Char} :
      Written ns cs → Written (.text value :: ns) (value.toList ++ cs)
  | element {name : String} {children ns : List Node} {tag tag' inner cs : List Char} :
      Spells tag name → Spells tag' name → Written children inner → Written ns cs →
      Written (.element name children :: ns)
        ('<' :: (tag ++ ['>']) ++ (inner ++ ('<' :: '/' :: (tag' ++ ['>']) ++ cs)))
  | selfClosing {name : String} {ns : List Node} {tag cs : List Char} :
      Spells tag name → Written ns cs →
      Written (.element name [] :: ns) ('<' :: (tag ++ ['/', '>']) ++ cs)

/-! ### The tags of a writing -/

section
variable {tag : List Char} {name : String}

theorem isAlphanum_of_toLower {c : Char}
    (h : c.toLower.isLower = true ∨ c.toLower.isDigit = true) : c.isAlphanum = true := by
  show ((c.isUpper || c.isLower) || c.isDigit) = true
  by_cases hupper : c.isUpper = true
  · simp [hupper]
  · have hsame : c.toLower = c := dif_neg fun hrange => hupper (decide_eq_true hrange)
    rw [hsame] at h
    rcases h with h | h <;> simp [h]

theorem Spells.lowered_eq (h : Spells tag name) : lowered tag = name := by
  rw [lowered, h, String.ofList_toList]

theorem Spells.named (h : Spells tag name) (hname : ElementName name) {after : List Char}
    (hafter : ∀ c more, after = c :: more → c.isAlphanum = false) : Named tag after := by
  refine ⟨?_, ?_, hafter⟩
  · rintro rfl
    refine hname.ne_empty ?_
    rw [← h.lowered_eq]
    rfl
  · intro c hc
    have hlower : c.toLower ∈ name.toList := h ▸ List.mem_map_of_mem hc
    exact isAlphanum_of_toLower (hname.lower _ hlower)

theorem Spells.isTag_opening (h : Spells tag name) (hname : ElementName name) :
    IsTag ('<' :: (tag ++ ['>'])) (.opening name) := by
  have hnamed : Named tag [] := h.named hname (by simp)
  have hslash : ¬ EndsInSlash [] := by
    rintro ⟨front, blank, hnil, -⟩
    simp at hnil
  rw [← h.lowered_eq]
  exact .opening white_nil hnamed (by simp) hslash

theorem Spells.isTag_closing (h : Spells tag name) (hname : ElementName name) :
    IsTag ('<' :: '/' :: (tag ++ ['>'])) (.closing name) := by
  have hnamed : Named tag [] := h.named hname (by simp)
  rw [← h.lowered_eq]
  exact .closing white_nil white_nil hnamed (by simp)

theorem Spells.isTag_selfClosing (h : Spells tag name) (hname : ElementName name) :
    IsTag ('<' :: (tag ++ ['/', '>'])) (.selfClosing name) := by
  have hnamed : Named tag ['/'] := h.named hname (by simp)
  have hslash : EndsInSlash ['/'] := ⟨[], [], rfl, white_nil⟩
  rw [← h.lowered_eq]
  exact .selfClosing white_nil hnamed (by decide) hslash

end

/-! ### Reading -/

/-- Where `rest` comes next, the scanner reads the characters as these tokens. -/
def Reads (start : Nat) (cs rest : List Char) (ts : List Token) : Prop :=
  scanFrom start [] (cs ++ rest) = ts ++ scanFrom (start + utf8Length cs) [] rest

section
variable {start : Nat} {reversed text cs ds rest written : List Char} {shape : Shape}
  {ts us : List Token} {ns : List Node}

theorem Reads.append (hcs : Reads start cs (ds ++ rest) ts)
    (hds : Reads (start + utf8Length cs) ds rest us) : Reads start (cs ++ ds) rest (ts ++ us) := by
  rw [Reads, List.append_assoc, hcs, hds, utf8Length_append, List.append_assoc, Nat.add_assoc]

theorem IsTag.reads (h : IsTag written shape) (start : Nat) (rest : List Char) :
    Reads start written rest [⟨start, String.ofList written, shape⟩] :=
  scanFrom_tag h

theorem IsTag.tagAt_append (h : IsTag written shape) (rest : List Char) : TagAt (written ++ rest) :=
  ⟨written, shape, h, rest, rfl⟩

/-- Characters other than `<` are taken as text. -/
theorem scanFrom_append_of_lt_notMem (h : '<' ∉ text) :
    scanFrom start reversed (text ++ rest) = scanFrom start (text.reverse ++ reversed) rest := by
  induction text generalizing reversed with
  | nil => rfl
  | cons c text ih =>
    have hc : c ≠ '<' := fun hlt => h (hlt ▸ List.mem_cons_self)
    have htext : '<' ∉ text := fun hmem => h (List.mem_cons_of_mem c hmem)
    rw [List.cons_append, scanFrom_text (not_tagAt_cons hc _), ih htext]
    simp

/-- At a tag or at the end, the text in front of it is complete. -/
theorem scanFrom_flush (h : rest = [] ∨ TagAt rest) : scanFrom start reversed rest =
    textToken start reversed ++ scanFrom (start + utf8Length reversed) [] rest := by
  rcases h with rfl | ⟨written, shape, htag, more, rfl⟩
  · rw [scanFrom_nil, scanFrom_nil]
    exact (List.append_nil _).symm
  · rw [scanFrom_tag htag, scanFrom_tag htag]
    rfl

theorem reads_text {value : String} (hne : value ≠ "") (hlt : '<' ∉ value.toList)
    (hrest : rest = [] ∨ TagAt rest) (start : Nat) :
    Reads start value.toList rest [⟨start, value, .text⟩] := by
  have htoken : textToken start value.toList.reverse = [⟨start, value, .text⟩] := by
    simp [textToken, hne]
  rw [Reads, scanFrom_append_of_lt_notMem hlt, List.append_nil, scanFrom_flush hrest, htoken,
    utf8Length_reverse]

/-- What follows a text is not taken for more of it. -/
theorem Written.follows (h : Written ns cs) (hns : Writable ns)
    (htext : ∀ other more, ns ≠ .text other :: more) (hrest : rest = [] ∨ TagAt rest) :
    cs ++ rest = [] ∨ TagAt (cs ++ rest) := by
  cases h with
  | nil => exact hrest
  | text => exact absurd rfl (htext _ _)
  | element htag =>
    cases hns with
    | element hname =>
      rw [List.append_assoc]
      exact .inr ((htag.isTag_opening hname).tagAt_append _)
  | selfClosing htag =>
    cases hns with
    | element hname =>
      rw [List.append_assoc]
      exact .inr ((htag.isTag_selfClosing hname).tagAt_append _)

/-- The tokens of a written forest denote it, whatever tag comes next. -/
theorem Written.exists_reads (h : Written ns cs) (hns : Writable ns)
    (hrest : rest = [] ∨ TagAt rest) (start : Nat) :
    ∃ ts, Denotes ts ns ∧ Reads start cs rest ts := by
  induction h generalizing start rest with
  | nil => exact ⟨[], .nil, rfl⟩
  | @text value ns cs hcs ih =>
    cases hns with
    | text hne hlt htext hns =>
      obtain ⟨ts, hts, hreads⟩ := ih hns hrest (start + utf8Length value.toList)
      have hvalue := reads_text hne hlt (hcs.follows hns htext hrest) start
      exact ⟨_, .text rfl hts, hvalue.append hreads⟩
  | @element name children ns tag tag' inner cs htag htag' _ _ ihinner ih =>
    cases hns with
    | element hname hchildren hns =>
      have hopen := htag.isTag_opening hname
      have hclose := htag'.isTag_closing hname
      obtain ⟨ts, hts, hinner⟩ := ihinner hchildren (.inr (hclose.tagAt_append (cs ++ rest)))
        (start + utf8Length ('<' :: (tag ++ ['>'])))
      obtain ⟨us, hus, hcs⟩ := ih hns hrest _
      rw [← List.append_assoc] at hinner
      have hreads := (hopen.reads start _).append (hinner.append ((hclose.reads _ _).append hcs))
      exact ⟨_, .element rfl rfl hts hus, hreads⟩
  | @selfClosing name ns tag cs htag hcs ih =>
    cases hns with
    | element hname _ hns =>
      have hself := htag.isTag_selfClosing hname
      obtain ⟨ts, hts, hreads⟩ :=
        ih hns hrest (start + utf8Length ('<' :: (tag ++ ['/', '>'])))
      exact ⟨_, .selfClosing rfl hts, (hself.reads start _).append hreads⟩

end

/-- Parsing the writing of a forest gives the forest back, without a warning. -/
theorem parse_written {forest : List Node} {source : String} (hforest : Writable forest)
    (hwritten : Written forest source.toList) : Tree.parse source = ⟨forest, []⟩ := by
  obtain ⟨ts, hts, hreads⟩ := hwritten.exists_reads hforest (.inl rfl) 0
  have htokens : scan source = ts := by
    rw [Reads, List.append_nil, scanFrom_nil] at hreads
    rw [scan, hreads]
    exact List.append_nil ts
  rw [Tree.parse, htokens, hts.ofTokens]

/-- Texts with signs that belong to tags, and an element inside another one of its name. -/
def nestedBold : List Node :=
  [.text "1 > 0 / \x7bn\x7d", .element "b" [.text "x", .element "b" [.text ">"], .element "br" []]]

theorem parse_written_of_nestedBold :
    Writable nestedBold ∧ Written nestedBold "1 > 0 / \x7bn\x7d<B>x<b>></b><bR/></b>".toList ∧
      Tree.parse "1 > 0 / \x7bn\x7d<B>x<b>></b><bR/></b>" = ⟨nestedBold, []⟩ := by
  have hwritable : Writable nestedBold := by
    have hb : ElementName "b" := ⟨by simp, by simp⟩
    have hbr : ElementName "br" := ⟨by simp, by simp⟩
    refine .text (by decide) (by decide) (by simp) (.element hb ?_ .nil)
    refine .text (by decide) (by decide) (by simp) (.element hb ?_ (.element hbr .nil .nil))
    exact .text (by decide) (by decide) (by simp) .nil
  have hwritten : Written nestedBold "1 > 0 / \x7bn\x7d<B>x<b>></b><bR/></b>".toList := by
    have hlower : Spells ['b'] "b" := rfl
    have hupper : Spells ['B'] "b" := rfl
    have hmixed : Spells ['b', 'R'] "br" := rfl
    have htext : Written [.text ">"] (">".toList ++ []) := .text .nil
    have hchildren := Written.element hlower hlower htext (.selfClosing hmixed .nil)
    exact .text (.element hupper hlower (.text hchildren) .nil)
  exact ⟨hwritable, hwritten, parse_written hwritable hwritten⟩

end Phrasebook.Markup
