import Phrasebook.Proofs.Plural.Locations
import Phrasebook.Proofs.Plural.Scanning

/-!
# What tokens keep of their text

Nothing of a header but blanks is lost between its tokens (`blankBetween_gaps`), and each token
keeps its text or the number that this denotes (`Keeps`, `keeps_ofText`).  Only what comes after a
fault is not scanned.  So the texts of the tokens say all that there is: with a blank between each
two they have the same tokens (`scanFrom_spaced`).
-/

namespace Phrasebook.Plural

open Ascii

/-! ### Lexemes -/

theorem Mark.ofText?_eq_some {cs : List Char} {m : Mark} (h : Mark.ofText? cs = some m) :
    cs = [m.char] := by
  unfold Mark.ofText? at h
  split at h
  · cases h; rfl
  · cases h; rfl
  · cases h; rfl
  · cases h; rfl
  · cases h; rfl
  · cases h

theorem BinaryOperator.ofText?_eq_some {text : String} {op : BinaryOperator}
    (h : BinaryOperator.ofText? text = some op) : op.text = text := by
  unfold BinaryOperator.ofText? at h
  split at h <;> cases h <;> rfl

/-- The text of an operator that is written so: a third character adds nothing. -/
def operatorText (written : String) : String :=
  if written = "===" then "==" else if written = "!==" then "!=" else written

theorem operatorText_text (op : BinaryOperator) : operatorText op.text = op.text := by
  cases op <;> decide

theorem Sign.text_of_ofText? {cs : List Char} {s : Sign} (h : Sign.ofText? cs = some s) :
    s.text = operatorText (String.ofList cs) := by
  unfold Sign.ofText? at h
  split at h
  · cases h; decide
  · cases h; decide
  · cases h; decide
  · cases h; decide
  · cases h; decide
  · obtain ⟨op, hop, rfl⟩ := Option.map_eq_some_iff.1 h
    rw [← BinaryOperator.ofText?_eq_some hop]
    exact (operatorText_text op).symm

namespace Lexeme

/-- The lexeme keeps the text that it was written as: a number keeps what its digits denote, and a
fault says something else instead. -/
def Keeps (written : String) : Lexeme → Prop
  | mark m => String.singleton m.char = written
  | name text | keyword text => text = written
  | sign s => s.text = operatorText written
  | number value =>
      (∀ c ∈ written.toList, isDigit c = true) ∧ value.toInt = decimalValue written.toList
  | fault _ => True

variable {c : Char} {more rest : List Char} {next : Option Char}

theorem continuation_of_isDigit (hc : isDigit c = true) :
    continuation c rest = rest.takeWhile isDigit := by
  have hstart : ¬ isNameStart c = true := Bool.eq_false_iff.1 (isNameStart_of_isDigit hc)
  rw [continuation, if_neg hstart, if_pos hc]

theorem forall_isDigit (hc : isDigit c = true) (hm : continuation c rest = more) :
    ∀ d ∈ c :: more, isDigit d = true := by
  rw [continuation_of_isDigit hc] at hm
  subst hm
  exact List.forall_mem_cons.2 ⟨hc, List.all_eq_true.1 List.all_takeWhile⟩

theorem keeps_ofText (hm : continuation c rest = more) :
    (ofText c more next).Keeps (String.ofList (c :: more)) := by
  unfold ofText
  dsimp only
  split
  · split
    · rfl
    · rfl
  split
  · next hdigit =>
    split
    · trivial
    split
    · next hmax =>
      refine ⟨?_, ?_⟩
      · rw [String.toList_ofList]
        exact forall_isDigit hdigit hm
      · rw [String.toList_ofList]
        exact toInt_ofNat_le hmax
    · trivial
  split
  · next m hmark =>
    rw [Mark.ofText?_eq_some hmark]
    exact String.singleton_eq_ofList
  split
  · next s hsign => exact Sign.text_of_ofText? hsign
  · trivial

theorem ofText_of_isDigit (hc : isDigit c = true) :
    ofText c more next =
      if next.any isNameStart = true then fault .invalidNumber
      else if decimalValue (c :: more) ≤ maxInt64 then
        number (Int64.ofNat (decimalValue (c :: more)))
      else fault (.numberOutOfRange (String.ofList (c :: more))) := by
  have hstart : ¬ isNameStart c = true := Bool.eq_false_iff.1 (isNameStart_of_isDigit hc)
  rw [ofText, if_neg hstart, if_pos hc]

/-- Digits are a fault exactly if their number is too large or a name begins behind them. -/
theorem isFault_ofText_iff (hc : isDigit c = true) : (ofText c more next).isFault = true ↔
    maxInt64 < decimalValue (c :: more) ∨ next.any isNameStart = true := by
  rw [ofText_of_isDigit hc]
  split
  · next hnext => exact iff_of_true rfl (.inr hnext)
  next hnext =>
  split
  · next hmax => exact iff_of_false Bool.false_ne_true (not_or.2 ⟨Nat.not_lt.2 hmax, hnext⟩)
  · next hmax => exact iff_of_true rfl (.inl (Nat.lt_of_not_le hmax))

theorem exists_number_of_ofText (hc : isDigit c = true)
    (hf : (ofText c more next).isFault = false) : ∃ v, ofText c more next = number v := by
  rw [ofText_of_isDigit hc] at hf ⊢
  split at hf
  · cases hf
  next hnext =>
  rw [if_neg hnext]
  split at hf
  · next hmax => exact ⟨_, if_pos hmax⟩
  · cases hf

/-- A name goes on behind digits only if one begins there, for the digits are all that there are. -/
theorem any_isNamePart_head? (hc : isDigit c = true) (hm : continuation c (more ++ rest) = more) :
    rest.head?.any isNamePart = rest.head?.any isNameStart := by
  rw [continuation_of_isDigit hc, takeWhile_append_eq_iff] at hm
  cases hrest : rest.head? with
  | none => rfl
  | some d =>
    show (isNameStart d || isDigit d) = isNameStart d
    rw [hm.2 d hrest, Bool.or_false]

end Lexeme

/-! ### Tokens in their text -/

/-- The character of the source that begins at the byte position. -/
def charAt? (source : String) (position : Nat) : Option Char :=
  (splitBytes? position source.toList).bind fun p => p.2.head?

/-- From one byte position to the other there are blanks only. -/
def BlankBetween (source : String) (start stop : Nat) : Prop :=
  ∃ blanks, StandsAt source start blanks ∧ start + blanks.utf8ByteSize = stop ∧
    ∀ c ∈ blanks.toList, isBlank c = true

/-- What lies before each of the tokens, from `offset` on. -/
def gaps : Nat → List Token → List Span
  | _, [] => []
  | offset, t :: ts => ⟨offset, t.start⟩ :: gaps t.stop ts

/-- Where the last token ends. -/
def lastStop : Nat → List Token → Nat
  | offset, [] => offset
  | _, t :: ts => lastStop t.stop ts

section
variable {source : String} {before blanks cs : List Char}

theorem charAt?_utf8Length {after : List Char} (h : source.toList = before ++ after) :
    charAt? source (utf8Length before) = after.head? := by
  rw [charAt?, h, splitBytes?_append, Option.bind_some]

theorem blankBetween_of_split (hsource : source.toList = before ++ (blanks ++ cs))
    (hblanks : ∀ c ∈ blanks, isBlank c = true) :
    BlankBetween source (utf8Length before) (utf8Length before + utf8Length blanks) := by
  refine ⟨String.ofList blanks, ⟨before, cs, ?_, rfl⟩, ?_, ?_⟩
  · rw [String.toList_ofList, hsource]
  · rw [utf8Length_eq_utf8ByteSize blanks]
  · rwa [String.toList_ofList]

/-- The scanner is behind `blanks`, which are behind a token or stand at the beginning: a blank
makes them longer, and a token has them as its gap and leaves none. -/
theorem blankBetween_gaps (before blanks : List Char) (offset : Nat) (cs : List Char)
    (hsource : source.toList = before ++ (blanks ++ cs))
    (hblanks : ∀ c ∈ blanks, isBlank c = true)
    (hoffset : utf8Length before + utf8Length blanks = offset) :
    (∀ gap ∈ gaps (utf8Length before) (scanFrom offset cs),
      BlankBetween source gap.start gap.stop) ∧
    (¬ Faulty (scanFrom offset cs) →
      BlankBetween source (lastStop (utf8Length before) (scanFrom offset cs))
        source.utf8ByteSize) := by
  induction offset, cs using scanFrom_induction generalizing before blanks with
  | nil offset =>
    rw [scanFrom_nil]
    refine ⟨fun gap hgap => (nomatch hgap), fun _ => ?_⟩
    have hsize : source.utf8ByteSize = utf8Length before + utf8Length blanks := by
      rw [← utf8Length_toList, hsource, List.append_nil, utf8Length_append]
    rw [hsize]
    exact blankBetween_of_split hsource hblanks
  | blank offset c cs hc ih =>
    rw [scanFrom_blank hc]
    refine ih before (blanks ++ [c]) ?_ ?_ ?_
    · rw [hsource, List.append_assoc, List.singleton_append]
    · intro d hd
      rcases List.mem_append.1 hd with hd | hd
      · exact hblanks d hd
      · rwa [List.mem_singleton.1 hd]
    · rw [utf8Length_append, ← Nat.add_assoc, hoffset]
      rfl
  | token offset c more rest hc hm ih =>
    have hgap : BlankBetween source (utf8Length before) offset :=
      hoffset ▸ blankBetween_of_split hsource hblanks
    have hstop : utf8Length (before ++ (blanks ++ c :: more)) =
        offset + (String.ofList (c :: more)).utf8ByteSize := by
      rw [utf8Length_append, utf8Length_append, ← Nat.add_assoc, hoffset,
        utf8Length_eq_utf8ByteSize (c :: more)]
    have hlater := ih (before ++ (blanks ++ c :: more)) [] (by rw [hsource]; simp)
      (fun d hd => nomatch hd) (by rw [hstop, utf8Length_eq_utf8ByteSize (c :: more)]; rfl)
    rw [hstop] at hlater
    rw [scanFrom_token hc hm]
    split
    · next hf =>
      refine ⟨?_, fun hok => absurd ⟨_, List.mem_singleton_self _, hf⟩ hok⟩
      intro gap hmem
      obtain rfl := List.mem_singleton.1 hmem
      exact hgap
    · next hf =>
      rw [faulty_cons (Bool.eq_false_iff.2 hf)]
      exact ⟨List.forall_mem_cons.2 ⟨hgap, hlater.1⟩, hlater.2⟩

end

/-! ### Tokens of the texts of tokens -/

/-- What a token is, wherever it stands. -/
def Token.kept (t : Token) : String × Lexeme :=
  (t.written, t.lexeme)

/-- A lexeme that is no fault is the same in front of a text that it does not go on with. -/
theorem scanFrom_token_inert {c : Char} {more rest rest' : List Char} (offset : Nat)
    (hc : isBlank c = false) (hm : continuation c (more ++ rest) = more)
    (hf : (Lexeme.ofText c more rest.head?).isFault = false) (hrest' : Inert rest') :
    scanFrom offset (c :: (more ++ rest')) =
      ⟨offset, String.ofList (c :: more), Lexeme.ofText c more rest.head?⟩ ::
        scanFrom (offset + utf8Length (c :: more)) rest' := by
  have hreplaces : Replaces rest' rest := .inr hrest'
  rw [scanFrom_token hc (hreplaces.continuation_eq hm), hreplaces.ofText_eq (.inl hf), hf,
    if_neg Bool.false_ne_true]

/-- With a blank between each two, the texts of the tokens have the same tokens: the blank ends a
lexeme in place of what did, or of nothing. -/
theorem scanFrom_spaced {offset : Nat} {cs : List Char} (h : ¬ Faulty (scanFrom offset cs))
    (offset' : Nat) :
    (scanFrom offset' (" ".intercalate ((scanFrom offset cs).map Token.written)).toList).map
        Token.kept =
      (scanFrom offset cs).map Token.kept := by
  induction offset, cs using scanFrom_induction generalizing offset' with
  | nil offset =>
    rw [scanFrom_nil, List.map_nil, String.intercalate_nil]
    exact congrArg _ (scanFrom_nil offset')
  | blank offset c cs hc ih =>
    rw [scanFrom_blank hc] at h ⊢
    exact ih h offset'
  | token offset c more rest hc hm ih =>
    rw [scanFrom_token hc hm] at h ⊢
    split at h
    · next hf => exact absurd ⟨_, List.mem_singleton_self _, hf⟩ h
    next hf =>
    rw [faulty_cons (Bool.eq_false_iff.2 hf)] at h
    rw [if_neg hf]
    replace hf := Bool.eq_false_iff.2 hf
    replace ih := ih h
    cases hts : scanFrom (offset + utf8Length (c :: more)) rest with
    | nil =>
      have hlast := scanFrom_token_inert offset' hc hm hf inert_nil
      rw [List.append_nil, scanFrom_nil] at hlast
      rw [List.map_singleton, String.intercalate_singleton, String.toList_ofList, hlast]
      rfl
    | cons u us =>
      rw [hts] at ih
      rw [List.map_cons, List.map_cons, String.intercalate_cons_cons, String.toList_append,
        String.toList_append, String.toList_ofList, List.append_assoc]
      show (scanFrom offset' (c :: (more ++ ' ' :: _))).map Token.kept = _
      rw [scanFrom_token_inert offset' hc hm hf (inert_blank _), scanFrom_blank rfl, List.map_cons]
      exact congrArg _ (ih _)

/-! ### Texts -/

/-- The tokens of a text stand one behind the other where their texts do, with nothing but blanks
around them, as far as a fault.  Each keeps its text or the number that this denotes, and a text
that has only theirs has the same tokens. -/
theorem scan_keeps_text (source : String) :
    (∀ t ∈ scan source, StandsAt source t.start t.written ∧ t.written ≠ "" ∧
      t.stop ≤ source.utf8ByteSize ∧ (⟨t.start, t.stop⟩ : Span).slice source = t.written) ∧
    (scan source).Pairwise (fun t u => t.stop ≤ u.start ∧ t.lexeme.isFault = false) ∧
    (∀ gap ∈ gaps 0 (scan source), BlankBetween source gap.start gap.stop) ∧
    (¬ Faulty (scan source) →
      BlankBetween source (lastStop 0 (scan source)) source.utf8ByteSize) ∧
    (∀ t ∈ scan source, t.lexeme.Keeps t.written) ∧
    (∀ t ∈ scan source, ∀ c ∈ t.written.toList.head?, isDigit c = true →
      (∀ d ∈ t.written.toList, isDigit d = true) ∧
      (t.lexeme.isFault = true ↔ maxInt64 < decimalValue t.written.toList ∨
        (charAt? source t.stop).any isNamePart = true) ∧
      (t.lexeme.isFault = false → ∃ v, t.lexeme = .number v)) ∧
    (¬ Faulty (scan source) →
      (scan (" ".intercalate ((scan source).map Token.written))).map Token.kept =
        (scan source).map Token.kept) := by
  have hgaps := blankBetween_gaps [] [] 0 source.toList rfl (fun c hc => nomatch hc) rfl
  refine ⟨?_, pairwise_stop 0 source.toList, hgaps.1, hgaps.2, ?_, ?_, fun h => scanFrom_spaced h 0⟩
  · intro t ht
    have hstands := standsAt_of_mem_scan ht
    refine ⟨hstands, ?_, hstands.le, hstands.slice⟩
    intro hempty
    have hlt := start_lt_stop_of_mem_scanFrom ht
    rw [Token.stop, hempty] at hlt
    exact Nat.lt_irrefl _ hlt
  · intro t ht
    obtain ⟨before, c, more, rest, -, hm, rfl⟩ := exists_split_of_mem_scan ht
    exact Lexeme.keeps_ofText hm
  · intro t ht c hhead hdigit
    obtain ⟨before, d, more, rest, hsource, hm, rfl⟩ := exists_split_of_mem_scan ht
    dsimp only at hhead ⊢
    rw [String.toList_ofList] at hhead ⊢
    cases hhead
    have hnext : charAt? source (utf8Length (before ++ c :: more)) = rest.head? :=
      charAt?_utf8Length (by rw [hsource, List.append_assoc])
    rw [utf8Length_append, utf8Length_eq_utf8ByteSize (c :: more)] at hnext
    refine ⟨Lexeme.forall_isDigit hdigit hm, ?_, Lexeme.exists_number_of_ofText hdigit⟩
    rw [Token.stop, hnext, Lexeme.any_isNamePart_head? hdigit hm]
    exact Lexeme.isFault_ofText_iff hdigit

/-- The third `=` is written but not kept, zeros in front of a number do not matter, and the blank
at the end is no part of a token. -/
theorem scan_keeps_text_of_strictEquality :
    ¬ Faulty (scan "k===007 ") ∧
    (scan "k === 007").map Token.kept =
      [("k", .name "k"), ("===", .sign (.operator .equals)), ("007", .number 7)] ∧
    BlankBetween "k===007 " 7 8 := by
  have hscan : scan "k===007 " = [⟨0, "k", .name "k"⟩, ⟨1, "===", .sign (.operator .equals)⟩,
      ⟨4, "007", .number 7⟩] := by
    decide +kernel
  obtain ⟨-, -, -, hend, -, -, hspaced⟩ := scan_keeps_text "k===007 "
  rw [hscan] at hend hspaced ⊢
  have hok : ¬ Faulty [⟨0, "k", .name "k"⟩, ⟨1, "===", .sign (.operator .equals)⟩,
      ⟨4, "007", .number 7⟩] := by
    simp [Faulty, Lexeme.isFault]
  exact ⟨hok, hspaced hok, hend hok⟩

end Phrasebook.Plural
