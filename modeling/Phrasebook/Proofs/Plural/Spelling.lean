import Phrasebook.Proofs.Plural.Names
import Phrasebook.Proofs.Text.Runs

/-!
# Lexemes and their spellings

A lexeme has a spelling (`spelling`), and the scanner reads it back from a text that begins with the
spelling, provided the next character does not make a longer lexeme (`lex_spelling`, `Before`).
Every lexeme of a text without a fault can be spelled (`Spelled`, `spelled_of_mem_scan`).
-/

namespace Phrasebook.Plural

open Ascii

/-! ### The lexemes of a text -/

/-- The lexemes of the characters `cs`, wherever they stand. -/
def lex (cs : List Char) : List Lexeme :=
  lexemes (scanFrom 0 cs)

theorem scanFrom_blank {c : Char} (h : isBlank c = true) (offset : Nat) (cs : List Char) :
    scanFrom offset (c :: cs) = scanFrom (offset + c.utf8Size) cs := by
  rw [scanFrom, if_pos h]

theorem lexemes_scanFrom (offset : Nat) (cs : List Char) :
    lexemes (scanFrom offset cs) = lex cs := by
  induction hn : cs.length using Nat.strongRecOn generalizing cs offset with
  | _ n ih =>
    subst hn
    cases cs with
    | nil => rw [lex, scanFrom, scanFrom]
    | cons c rest =>
      by_cases hc : isBlank c = true
      · have hlt : rest.length < (c :: rest).length := Nat.lt_succ_self _
        rw [lex, scanFrom_blank hc, scanFrom_blank hc, ih _ hlt _ rest rfl, ih _ hlt _ rest rfl]
      · have hlt : (rest.drop (continuation c rest).length).length < (c :: rest).length := by
          rw [List.length_drop, List.length_cons]
          omega
        rw [lex, scanFrom, scanFrom, if_neg hc, if_neg hc]
        dsimp only
        split
        · rfl
        · rw [lexemes_cons, lexemes_cons, ih _ hlt _ _ rfl, ih _ hlt _ _ rfl]

theorem lex_nil : lex [] = [] := by
  rw [lex, scanFrom]
  rfl

theorem lex_blank {c : Char} (h : isBlank c = true) (cs : List Char) : lex (c :: cs) = lex cs := by
  rw [lex, scanFrom_blank h, lexemes_scanFrom]

theorem lex_cons {c : Char} (hc : isBlank c = false) {more rest : List Char} {l : Lexeme}
    (hm : continuation c (more ++ rest) = more) (hl : Lexeme.ofText c more rest.head? = l)
    (hf : l.isFault = false) : lex (c :: (more ++ rest)) = l :: lex rest := by
  rw [lex, scanFrom, hc, if_neg Bool.false_ne_true]
  simp only [hm, List.drop_left, hl, hf, Bool.false_eq_true, if_false]
  rw [lexemes_cons, lexemes_scanFrom]

/-! ### Spellings -/

/-- A name of the language, which no word that introduces declarations is. -/
def IsName (text : String) : Prop :=
  text ∉ keywords ∧ ∃ c more, text.toList = c :: more ∧ isNameStart c = true ∧
    ∀ d ∈ more, isNamePart d = true

theorem isName_of_mem_reservedNames {x : String} (h : x ∈ reservedNames) : IsName x := by
  simp only [reservedNames, List.mem_cons, List.not_mem_nil, or_false] at h
  rcases h with rfl | rfl | rfl
  · exact ⟨by decide, 'n', [], rfl, rfl, List.all_eq_true.1 rfl⟩
  · exact ⟨by decide, 'p', ['l', 'u', 'r', 'a', 'l'], rfl, rfl, List.all_eq_true.1 rfl⟩
  · exact ⟨by decide, 'n', ['p', 'l', 'u', 'r', 'a', 'l', 's'], rfl, rfl,
      List.all_eq_true.1 rfl⟩

namespace Lexeme

/-- The characters that stand for the lexeme in a text. -/
def spelling : Lexeme → List Char
  | number v => (toString v.toInt).toList
  | l => l.text.toList

/-- The lexemes that have a spelling: names are names, words are words, and numbers are not
negative. -/
def Spelled : Lexeme → Prop
  | mark _ | sign _ => True
  | name text => IsName text
  | keyword text => text ∈ keywords
  | number v => 0 ≤ v.toInt
  | fault _ => False

/-- Whether the character may come right after the lexeme. -/
def mayPrecede : Lexeme → Char → Bool
  | mark _, _ | fault _, _ => true
  | name _, c | keyword _, c | number _, c => !isNamePart c
  | sign _, c => c ≠ '='

/-- The text `rest` does not make a longer lexeme. -/
def Before (l : Lexeme) (rest : List Char) : Prop :=
  ∀ c more, rest = c :: more → l.mayPrecede c = true

theorem before_cons {l : Lexeme} {c : Char} (h : l.mayPrecede c = true) (cs : List Char) :
    l.Before (c :: cs) := by
  intro d more hd
  cases hd
  exact h

end Lexeme

/-! ### Reading spellings -/

theorem isNamePart_of_isBlank {c : Char} (h : isBlank c = true) : isNamePart c = false := by
  simp only [isBlank, Bool.or_eq_true, decide_eq_true_eq] at h
  rcases h with ((((rfl | rfl) | rfl) | rfl) | rfl) | rfl <;> decide

theorem isBlank_of_isNamePart {c : Char} (h : isNamePart c = true) : isBlank c = false := by
  cases hb : isBlank c with
  | false => rfl
  | true => rw [isNamePart_of_isBlank hb] at h; nomatch h

theorem isNamePart_of_isNameStart {c : Char} (h : isNameStart c = true) : isNamePart c = true := by
  rw [isNamePart, h, Bool.true_or]

theorem isNamePart_of_isDigit {c : Char} (h : isDigit c = true) : isNamePart c = true := by
  rw [isNamePart, h, Bool.or_true]

theorem isNameStart_of_isDigit {c : Char} (h : isDigit c = true) : isNameStart c = false := by
  cases hs : isNameStart c with
  | false => rfl
  | true =>
    -- the bounds of both classes as code points, so that they can be compared
    obtain ⟨hlow, hhigh⟩ : 48 ≤ c.toNat ∧ c.toNat ≤ 57 := Char.isDigit_iff_toNat.1 h
    change (decide ('A'.val ≤ c.val ∧ c.val ≤ 'Z'.val) ||
      decide ('a'.val ≤ c.val) && decide (c.val ≤ 'z'.val) || decide (c = '_')) = true at hs
    simp only [Bool.or_eq_true, Bool.and_eq_true, decide_eq_true_eq,
      UInt32.le_iff_toNat_le] at hs
    change ((65 ≤ c.toNat ∧ c.toNat ≤ 90) ∨ (97 ≤ c.toNat ∧ c.toNat ≤ 122)) ∨ c = '_' at hs
    rcases hs with (hs | hs) | rfl
    · omega
    · omega
    · exact absurd h (by decide)

/-- A text that a letter or `_` starts and only these and digits continue is one lexeme. -/
theorem lex_word {text : String} {l : Lexeme} {c : Char} {more rest : List Char}
    (htext : text.toList = c :: more) (hc : isNameStart c = true)
    (hmore : ∀ d ∈ more, isNamePart d = true)
    (hrest : ∀ d ds, rest = d :: ds → (!isNamePart d) = true)
    (hl : (if keywords.contains text then Lexeme.keyword text else .name text) = l) :
    lex (text.toList ++ rest) = l :: lex rest := by
  have hof : String.ofList (c :: more) = text := by rw [← htext, String.ofList_toList]
  rw [htext]
  refine lex_cons (isBlank_of_isNamePart (isNamePart_of_isNameStart hc)) ?_ ?_ ?_
  · rw [continuation, if_pos hc]
    refine takeWhile_append_of_stop hmore ?_
    intro d ds hd
    rw [← Bool.not_eq_true', hrest d ds hd]
  · rw [Lexeme.ofText, if_pos hc, hof]
    exact hl
  · rw [← hl]
    split <;> rfl

theorem starts_of_mem_keywords {text : String} (h : text ∈ keywords) :
    ∃ c more, text.toList = c :: more ∧ isNameStart c = true ∧
      ∀ d ∈ more, isNamePart d = true := by
  simp only [keywords, List.mem_cons, List.not_mem_nil, or_false] at h
  rcases h with rfl | rfl | rfl
  · exact ⟨'l', ['e', 't'], rfl, rfl, List.all_eq_true.1 rfl⟩
  · exact ⟨'v', ['a', 'r'], rfl, rfl, List.all_eq_true.1 rfl⟩
  · exact ⟨'c', ['o', 'n', 's', 't'], rfl, rfl, List.all_eq_true.1 rfl⟩

/-- A number that is not negative is spelled by its decimal digits. -/
theorem spelling_number {v : Int64} {n : Nat} (hv : v.toInt = n) :
    (Lexeme.number v).spelling = Nat.toDigits 10 n := by
  show (toString v.toInt).toList = _
  rw [hv, Int.toString_eq_repr, Int.repr_eq_if, if_pos (Int.natCast_nonneg n), Int.toNat_natCast]
  exact Nat.toList_repr

theorem decimalValue_toDigits (n : Nat) : decimalValue (Nat.toDigits 10 n) = n := by
  rw [decimalValue, ← Nat.ofDigitChars_eq_foldl]
  exact Nat.ofDigitChars_toDigits (by decide) (by decide)

theorem lex_number {v : Int64} (hv : 0 ≤ v.toInt) {rest : List Char}
    (hrest : (Lexeme.number v).Before rest) :
    lex ((Lexeme.number v).spelling ++ rest) = .number v :: lex rest := by
  obtain ⟨n, hn⟩ := Int.eq_ofNat_of_zero_le hv
  have hdigits : ∀ d ∈ Nat.toDigits 10 n, isDigit d = true :=
    fun d hd => Nat.isDigit_of_mem_toDigits (by decide) (by decide) hd
  have hvalue := decimalValue_toDigits n
  rw [spelling_number hn]
  obtain ⟨c, more, hcs⟩ : ∃ c more, Nat.toDigits 10 n = c :: more :=
    List.exists_cons_of_ne_nil Nat.toDigits_ne_nil
  rw [hcs] at hdigits hvalue ⊢
  obtain ⟨hc, hmore⟩ := List.forall_mem_cons.1 hdigits
  have hnext : ∀ d ds, rest = d :: ds → isNameStart d = false ∧ isDigit d = false := by
    intro d ds hd
    have hpart := hrest d ds hd
    rwa [Lexeme.mayPrecede, Bool.not_eq_true', isNamePart, Bool.or_eq_false_iff] at hpart
  refine lex_cons (isBlank_of_isNamePart (isNamePart_of_isDigit hc)) ?_ ?_ rfl
  · rw [continuation, isNameStart_of_isDigit hc, if_neg Bool.false_ne_true, if_pos hc]
    exact takeWhile_append_of_stop hmore fun d ds hd => (hnext d ds hd).2
  · have hstart : rest.head?.any isNameStart = false := by
      cases rest with
      | nil => rfl
      | cons d ds => exact (hnext d ds rfl).1
    have hmax : n ≤ maxInt64 := by
      have := v.toInt_lt
      simp only [maxInt64]
      omega
    simp only [Lexeme.ofText, isNameStart_of_isDigit hc, hc, hstart, hvalue, if_pos hmax,
      Bool.false_eq_true, if_false, if_true]
    exact congrArg _ (Int64.toInt_inj.1 ((toInt_ofNat_le hmax).trans hn.symm))

theorem lex_mark (m : Mark) (rest : List Char) : lex (m.char :: rest) = .mark m :: lex rest := by
  show lex (m.char :: ([] ++ rest)) = _
  cases m <;> exact lex_cons rfl rfl rfl rfl

theorem lex_sign {s : Sign} {rest : List Char} (hrest : (Lexeme.sign s).Before rest) :
    lex (s.text.toList ++ rest) = .sign s :: lex rest := by
  have hstop (k : Nat) : (rest.take k).takeWhile (· = '=') = [] := by
    cases k with
    | zero => rfl
    | succ k =>
      cases rest with
      | nil => rfl
      | cons d ds =>
        have hd : d ≠ '=' := of_decide_eq_true (hrest d ds rfl)
        rw [List.take_succ_cons, List.takeWhile_cons, decide_eq_false hd,
          if_neg Bool.false_ne_true]
  have read (c : Char) (more : List Char) (hs : s.text.toList = c :: more)
      (hc : isBlank c = false) (hm : continuation c (more ++ rest) = more)
      (hl : Lexeme.ofText c more rest.head? = .sign s) :
      lex (s.text.toList ++ rest) = .sign s :: lex rest := by
    rw [hs]
    exact lex_cons hc hm hl rfl
  cases s with
  | not => exact read '!' [] rfl rfl (hstop 2) rfl
  | assign => exact read '=' [] rfl rfl (hstop 2) rfl
  | question => exact read '?' [] rfl rfl rfl rfl
  | operator op =>
    cases op with
    | or => exact read '|' ['|'] rfl rfl rfl rfl
    | and => exact read '&' ['&'] rfl rfl rfl rfl
    | equals => exact read '=' ['='] rfl rfl (congrArg ('=' :: ·) (hstop 1)) rfl
    | notEquals => exact read '!' ['='] rfl rfl (congrArg ('=' :: ·) (hstop 1)) rfl
    | lower => exact read '<' [] rfl rfl (hstop 1) rfl
    | greater => exact read '>' [] rfl rfl (hstop 1) rfl
    | lowerEquals => exact read '<' ['='] rfl rfl rfl rfl
    | greaterEquals => exact read '>' ['='] rfl rfl rfl rfl
    | add => exact read '+' [] rfl rfl rfl rfl
    | subtract => exact read '-' [] rfl rfl rfl rfl
    | multiply => exact read '*' [] rfl rfl rfl rfl
    | divide => exact read '/' [] rfl rfl rfl rfl
    | modulo => exact read '%' [] rfl rfl rfl rfl

/-- The scanner reads a lexeme back from its spelling. -/
theorem lex_spelling {l : Lexeme} (hl : l.Spelled) {rest : List Char} (hrest : l.Before rest) :
    lex (l.spelling ++ rest) = l :: lex rest := by
  cases l with
  | mark m =>
    show lex ((String.singleton m.char).toList ++ rest) = _
    rw [String.toList_singleton]
    exact lex_mark m rest
  | name text =>
    obtain ⟨hword, c, more, htext, hc, hmore⟩ := hl
    refine lex_word htext hc hmore hrest ?_
    show (if keywords.contains text then Lexeme.keyword text else .name text) = .name text
    rw [if_neg (by rwa [List.contains_iff_mem])]
  | keyword text =>
    obtain ⟨c, more, htext, hc, hmore⟩ := starts_of_mem_keywords hl
    refine lex_word htext hc hmore hrest ?_
    show (if keywords.contains text then Lexeme.keyword text else .name text) = .keyword text
    rw [if_pos (by rwa [List.contains_iff_mem])]
  | sign s => exact lex_sign hrest
  | number v => exact lex_number hl hrest
  | fault f => exact hl.elim

/-- A text of the lexemes, with a blank after each one. -/
def spelledOut (ls : List Lexeme) : String :=
  String.ofList (ls.flatMap fun l => l.spelling ++ [' '])

theorem lexemes_scan_spelledOut {ls : List Lexeme} (h : ∀ l ∈ ls, l.Spelled) :
    lexemes (scan (spelledOut ls)) = ls := by
  rw [scan, spelledOut, String.toList_ofList]
  induction ls with
  | nil => exact lex_nil
  | cons l ls ih =>
    obtain ⟨hl, hls⟩ := List.forall_mem_cons.1 h
    have hblank : l.mayPrecede ' ' = true := by
      cases l <;> rfl
    have hfirst : lex (l.spelling ++ ' ' :: ls.flatMap fun l => l.spelling ++ [' ']) = l :: ls := by
      rw [lex_spelling hl (Lexeme.before_cons hblank _), lex_blank rfl]
      exact congrArg _ (ih hls)
    rw [List.flatMap_cons, List.append_assoc]
    exact hfirst

/-! ### Tokens and their places -/

/-- The token that begins with `c` at byte `offset`, before the characters `rest`. -/
def tokenAt (offset : Nat) (c : Char) (rest : List Char) : Token :=
  ⟨offset, String.ofList (c :: continuation c rest),
    Lexeme.ofText c (continuation c rest) (rest.drop (continuation c rest).length).head?⟩

theorem mem_scanFrom {offset : Nat} {cs : List Char} {t : Token} (h : t ∈ scanFrom offset cs) :
    ∃ before c rest, cs = before ++ c :: rest ∧
      t = tokenAt (offset + utf8Length before) c rest := by
  induction hn : cs.length using Nat.strongRecOn generalizing cs offset with
  | _ n ih =>
    subst hn
    cases cs with
    | nil =>
      rw [scanFrom] at h
      cases h
    | cons c rest =>
      by_cases hc : isBlank c = true
      · rw [scanFrom_blank hc] at h
        obtain ⟨before, d, more, rfl, rfl⟩ := ih _ (Nat.lt_succ_self _) h rfl
        refine ⟨c :: before, d, more, rfl, ?_⟩
        rw [utf8Length, Nat.add_assoc]
      · have hhere : t = tokenAt offset c rest →
            ∃ before d more, c :: rest = before ++ d :: more ∧
              t = tokenAt (offset + utf8Length before) d more :=
          fun ht => ⟨[], c, rest, rfl, ht⟩
        rw [scanFrom, if_neg hc] at h
        dsimp only at h
        split at h
        · exact hhere (List.mem_singleton.1 h)
        · rcases List.mem_cons.1 h with ht | h
          · exact hhere ht
          · obtain ⟨after, hafter⟩ := continuation_isPrefix c rest
            generalize continuation c rest = more at h hafter
            subst hafter
            have hlt : after.length < (c :: (more ++ after)).length := by
              rw [List.length_cons, List.length_append]
              omega
            rw [List.drop_left] at h
            obtain ⟨before, d, later, rfl, rfl⟩ := ih _ hlt h rfl
            refine ⟨c :: more ++ before, d, later, ?_, ?_⟩
            · rw [List.append_assoc, List.cons_append]
            · rw [utf8Length_append, Nat.add_assoc]

/-- A text is cut before and behind each of its tokens. -/
theorem exists_split_of_mem_scan {source : String} {t : Token} (h : t ∈ scan source) :
    ∃ before c more rest, source.toList = before ++ (c :: more ++ rest) ∧
      continuation c (more ++ rest) = more ∧
      t = ⟨utf8Length before, String.ofList (c :: more), Lexeme.ofText c more rest.head?⟩ := by
  obtain ⟨before, c, rest, hsource, rfl⟩ := mem_scanFrom h
  obtain ⟨after, hafter⟩ := continuation_isPrefix c rest
  rw [tokenAt, Nat.zero_add]
  generalize hm : continuation c rest = more at hafter
  subst hafter
  rw [List.drop_left]
  exact ⟨before, c, more, after, hsource, hm, rfl⟩

theorem spelled_ofText {c : Char} {rest : List Char} {next : Option Char}
    (h : (Lexeme.ofText c (continuation c rest) next).isFault = false) :
    (Lexeme.ofText c (continuation c rest) next).Spelled := by
  unfold Lexeme.ofText at h ⊢
  dsimp only at h ⊢
  split
  · next hc =>
    have hparts : ∀ d ∈ continuation c rest, isNamePart d = true := by
      rw [continuation, if_pos hc]
      exact List.all_eq_true.1 List.all_takeWhile
    split
    · next hword => exact List.contains_iff_mem.1 hword
    · next hword =>
      refine ⟨fun hmem => hword (List.contains_iff_mem.2 hmem), c, _, ?_, hc, hparts⟩
      exact String.toList_ofList
  · next hc =>
    rw [if_neg hc] at h
    split
    · next hdigit =>
      rw [if_pos hdigit] at h
      split
      · next hnext =>
        rw [if_pos hnext] at h
        cases h
      · next hnext =>
        rw [if_neg hnext] at h
        split
        · next hmax =>
          show 0 ≤ (Int64.ofNat _).toInt
          rw [toInt_ofNat_le hmax]
          exact Int.natCast_nonneg _
        · next hmax =>
          rw [if_neg hmax] at h
          cases h
    · next hdigit =>
      rw [if_neg hdigit] at h
      split
      · trivial
      · next hmark =>
        rw [hmark] at h
        split
        · trivial
        · next hsign =>
          rw [hsign] at h
          cases h

/-- What the scanner reads without a fault can be spelled. -/
theorem spelled_of_mem_scan {source : String} {l : Lexeme} (h : l ∈ lexemes (scan source))
    (hf : l.isFault = false) : l.Spelled := by
  obtain ⟨t, ht, rfl⟩ := List.mem_map.1 h
  obtain ⟨before, c, rest, -, rfl⟩ := mem_scanFrom ht
  exact spelled_ofText hf

end Phrasebook.Plural
