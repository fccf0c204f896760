import Phrasebook.Proofs.Plural.Acceptance
import Phrasebook.Proofs.Plural.Evaluation
import Phrasebook.Proofs.Plural.Spelling

/-!
# Reading the canonical text

The canonical text of an expression is scanned to the lexemes it was printed from (`textLexemes`,
`lex_text`), and these derive the expression again (`derives_textLexemes`).  The text does not keep
the slots: a slot is printed as its name, and gets a new number at the first occurrence of the name
in the text (`renumbered`, `parse_text`).
-/

namespace Phrasebook.Plural

open Ascii

/-! ### Lexemes of the canonical text -/

/-- The sign that is written for a prefix operator. -/
def UnaryOperator.sign : UnaryOperator → Sign
  | not => .not
  | minus => .operator .subtract
  | plus => .operator .add

theorem UnaryOperator.unary?_sign (op : UnaryOperator) : op.sign.unary? = some op := by
  cases op <;> rfl

theorem UnaryOperator.text_sign (op : UnaryOperator) : op.sign.text = op.text := by
  cases op <;> rfl

/-- What stands between parentheses. -/
def grouped (ls : List Lexeme) : List Lexeme :=
  .mark .openParen :: (ls ++ [.mark .closeParen])

namespace Expr

def textLexemes (names : List String) : Expr → List Lexeme
  | lit v => [.number v]
  | var slot => [.name (slotName names slot)]
  | unary op e => .sign op.sign :: e.textLexemes names
  | binary op l r => grouped (l.textLexemes names ++ .sign (.operator op) :: r.textLexemes names)
  | cond c t f =>
      grouped (c.textLexemes names ++ .sign .question ::
        (t.textLexemes names ++ .mark .colon :: f.textLexemes names))
  | assign slot e => grouped (.name (slotName names slot) :: .sign .assign :: e.textLexemes names)

def statementLexemes (names : List String) : Expr → List Lexeme
  | assign slot e => .name (slotName names slot) :: .sign .assign :: e.textLexemes names
  | e => e.textLexemes names

end Expr

def Program.textLexemes (p : Program) : List Lexeme :=
  p.statements.flatMap fun e => e.statementLexemes p.names ++ [.mark .semicolon]

/-! ### Scanning the canonical text -/

/-- The text `rest` begins with nothing that could continue a lexeme. -/
def Apart (rest : List Char) : Prop :=
  ∀ c more, rest = c :: more → isNamePart c = false ∧ c ≠ '='

theorem apart_cons {c : Char} (hc : isNamePart c = false) (hne : c ≠ '=') (cs : List Char) :
    Apart (c :: cs) := by
  intro d more hd
  cases hd
  exact ⟨hc, hne⟩

theorem Apart.before {rest : List Char} (h : Apart rest) (l : Lexeme) : l.Before rest := by
  intro c more hc
  obtain ⟨hpart, hne⟩ := h c more hc
  cases l with
  | mark m | fault f => rfl
  | name text | keyword text | number v =>
    rw [Lexeme.mayPrecede, hpart]
    rfl
  | sign s => exact decide_eq_true hne

/-- No canonical text begins with `=`. -/
theorem Expr.exists_text_eq_cons {names : List String} {e : Expr}
    (h : ∀ l ∈ e.textLexemes names, l.Spelled) :
    ∃ c more, (e.text names).toList = c :: more ∧ c ≠ '=' := by
  cases e with
  | lit v =>
    obtain ⟨n, hn⟩ := Int.eq_ofNat_of_zero_le (h (.number v) (List.mem_singleton_self _))
    obtain ⟨c, more, hcs⟩ : ∃ c more, Nat.toDigits 10 n = c :: more :=
      List.exists_cons_of_ne_nil Nat.toDigits_ne_nil
    have hc : isDigit c = true :=
      Nat.isDigit_of_mem_toDigits (by decide) (by decide) (hcs ▸ List.mem_cons_self)
    refine ⟨c, more, (spelling_number hn).trans hcs, ?_⟩
    rintro rfl
    exact absurd hc (by decide)
  | var slot =>
    obtain ⟨-, c, more, htext, hc, -⟩ := h (.name _) (List.mem_singleton_self _)
    refine ⟨c, more, htext, ?_⟩
    rintro rfl
    exact absurd hc (by decide)
  | unary op e =>
    rw [text, String.toList_append]
    cases op <;> exact ⟨_, _, rfl, by decide⟩
  | binary op l r =>
    simp only [text, String.toList_append, List.append_assoc]
    exact ⟨'(', _, rfl, by decide⟩
  | cond c t f =>
    simp only [text, String.toList_append, List.append_assoc]
    exact ⟨'(', _, rfl, by decide⟩
  | assign slot e =>
    simp only [text, String.toList_append, List.append_assoc]
    exact ⟨'(', _, rfl, by decide⟩

theorem lex_space (cs : List Char) : lex (" ".toList ++ cs) = lex cs :=
  lex_blank rfl cs

/-- A sign between two blanks. -/
theorem lex_spaced_sign (s : Sign) (cs : List Char) :
    lex (" ".toList ++ (s.text.toList ++ (" ".toList ++ cs))) = .sign s :: lex cs := by
  have hbefore : (Lexeme.sign s).Before (" ".toList ++ cs) := Lexeme.before_cons rfl cs
  rw [lex_space, lex_sign hbefore, lex_space]

theorem lex_question (cs : List Char) : lex (" ? ".toList ++ cs) = .sign .question :: lex cs :=
  lex_spaced_sign .question cs

theorem lex_assign (cs : List Char) : lex (" = ".toList ++ cs) = .sign .assign :: lex cs :=
  lex_spaced_sign .assign cs

theorem lex_open (cs : List Char) : lex ("(".toList ++ cs) = .mark .openParen :: lex cs :=
  lex_mark .openParen cs

theorem lex_close (cs : List Char) : lex (")".toList ++ cs) = .mark .closeParen :: lex cs :=
  lex_mark .closeParen cs

theorem lex_colon (cs : List Char) : lex (" : ".toList ++ cs) = .mark .colon :: lex cs := by
  show lex (' ' :: Mark.colon.char :: ' ' :: cs) = _
  rw [lex_blank rfl, lex_mark, lex_blank rfl]

theorem apart_blank (cs : List Char) : Apart (' ' :: cs) :=
  apart_cons (by decide) (by decide) cs

theorem apart_close (cs : List Char) : Apart (")".toList ++ cs) :=
  apart_cons (by decide) (by decide) cs

theorem forall_mem_grouped {P : Lexeme → Prop} {ls : List Lexeme} (h : ∀ l ∈ grouped ls, P l) :
    ∀ l ∈ ls, P l :=
  fun l hl => h l (List.mem_cons_of_mem _ (List.mem_append_left _ hl))

theorem lex_assigned {x : String} (hx : (Lexeme.name x).Spelled) (cs : List Char) :
    lex (x.toList ++ (" = ".toList ++ cs)) = .name x :: .sign .assign :: lex cs := by
  have hbefore : (Lexeme.name x).Before (" = ".toList ++ cs) := (apart_blank _).before _
  rw [show x.toList = (Lexeme.name x).spelling from rfl, lex_spelling hx hbefore, lex_assign]

/-- The canonical text of an expression is scanned to its lexemes. -/
theorem lex_text {names : List String} {e : Expr} (h : ∀ l ∈ e.textLexemes names, l.Spelled)
    {rest : List Char} (hrest : Apart rest) :
    lex ((e.text names).toList ++ rest) = e.textLexemes names ++ lex rest := by
  induction e generalizing rest with
  | lit v => exact lex_spelling (h _ (List.mem_singleton_self _)) (hrest.before _)
  | var slot => exact lex_spelling (h _ (List.mem_singleton_self _)) (hrest.before _)
  | unary op e ih =>
    obtain ⟨hs, he⟩ := List.forall_mem_cons.1 h
    have hbefore : (Lexeme.sign op.sign).Before ((e.text names).toList ++ rest) := by
      obtain ⟨c, more, htext, hne⟩ := Expr.exists_text_eq_cons he
      rw [htext]
      have hc : (Lexeme.sign op.sign).mayPrecede c = true := decide_eq_true hne
      exact Lexeme.before_cons hc _
    rw [Expr.text, String.toList_append, List.append_assoc, ← UnaryOperator.text_sign,
      lex_sign hbefore, ih he hrest]
    rfl
  | binary op l r ihl ihr =>
    obtain ⟨hl, hr⟩ := List.forall_mem_append.1 (forall_mem_grouped h)
    obtain ⟨-, hr⟩ := List.forall_mem_cons.1 hr
    simp only [Expr.text, String.toList_append, List.append_assoc]
    rw [lex_open, ihl hl, show op.text = (Sign.operator op).text from rfl, lex_spaced_sign,
      ihr hr (apart_close rest), lex_close]
    · simp only [Expr.textLexemes, grouped, List.cons_append, List.append_assoc, List.nil_append]
    · exact apart_blank _
  | cond c t f ihc iht ihf =>
    obtain ⟨hc, h⟩ := List.forall_mem_append.1 (forall_mem_grouped h)
    obtain ⟨ht, hf⟩ := List.forall_mem_append.1 (List.forall_mem_cons.1 h).2
    obtain ⟨-, hf⟩ := List.forall_mem_cons.1 hf
    simp only [Expr.text, String.toList_append, List.append_assoc]
    rw [lex_open, ihc hc, lex_question, iht ht, lex_colon, ihf hf (apart_close rest), lex_close]
    · simp only [Expr.textLexemes, grouped, List.cons_append, List.append_assoc, List.nil_append]
    · exact apart_blank _
    · exact apart_blank _
  | assign slot e ih =>
    obtain ⟨hx, h⟩ := List.forall_mem_cons.1 (forall_mem_grouped h)
    obtain ⟨-, he⟩ := List.forall_mem_cons.1 h
    simp only [Expr.text, String.toList_append, List.append_assoc]
    rw [lex_open, lex_assigned hx, ih he (apart_close rest), lex_close]
    simp only [Expr.textLexemes, grouped, List.cons_append, List.append_assoc, List.nil_append]

theorem lex_statementText {names : List String} {e : Expr}
    (h : ∀ l ∈ e.statementLexemes names, l.Spelled) {rest : List Char} (hrest : Apart rest) :
    lex ((e.statementText names).toList ++ rest) = e.statementLexemes names ++ lex rest := by
  cases e with
  | assign slot e =>
    obtain ⟨hx, h⟩ := List.forall_mem_cons.1 h
    obtain ⟨-, he⟩ := List.forall_mem_cons.1 h
    simp only [Expr.statementText, String.toList_append, List.append_assoc]
    rw [lex_assigned hx, lex_text he hrest]
    rfl
  | lit | var | unary | binary | cond => exact lex_text h hrest

/-- Texts that end in `;`, with a blank between each two. -/
theorem lex_statements {names : List String} {es : List Expr}
    (h : ∀ e ∈ es, ∀ l ∈ e.statementLexemes names, l.Spelled) :
    lex (" ".intercalate (es.map fun e => e.statementText names ++ ";")).toList =
      es.flatMap fun e => e.statementLexemes names ++ [.mark .semicolon] := by
  have lex_first (e : Expr) (he : ∀ l ∈ e.statementLexemes names, l.Spelled) (cs : List Char) :
      lex ((e.statementText names ++ ";").toList ++ cs) =
        e.statementLexemes names ++ [.mark .semicolon] ++ lex cs := by
    have hsemicolon : Apart (";".toList ++ cs) := apart_cons (by decide) (by decide) cs
    rw [String.toList_append, List.append_assoc, lex_statementText he hsemicolon,
      List.append_assoc]
    exact congrArg _ (lex_mark .semicolon cs)
  induction es with
  | nil =>
    rw [List.map_nil, String.intercalate_nil]
    exact lex_nil
  | cons e es ih =>
    obtain ⟨he, hes⟩ := List.forall_mem_cons.1 h
    cases es with
    | nil =>
      have hlast := lex_first e he []
      rw [List.append_nil, lex_nil] at hlast
      rw [List.map_singleton, String.intercalate_singleton, hlast]
      rfl
    | cons d es =>
      rw [List.map_cons, List.map_cons, String.intercalate_cons_cons, String.toList_append,
        String.toList_append, List.append_assoc, lex_first e he, lex_space, List.flatMap_cons]
      exact congrArg _ (ih hes)

theorem lexemes_scan_text {p : Program} (h : ∀ l ∈ p.textLexemes, l.Spelled) :
    lexemes (scan p.text) = p.textLexemes := by
  refine lex_statements fun e he l hl => h l (List.mem_flatMap.2 ⟨e, he, ?_⟩)
  exact List.mem_append_left _ hl

/-! ### Deriving the canonical text -/

/-- The levels that the canonical text of the expression takes as an operand: one for a prefix
operator or for the group around it, and in a group one more for a right operand, for a branch and
for an assigned value. -/
def Expr.height : Expr → Nat
  | lit _ | var _ => 0
  | unary _ e => e.height + 1
  | binary _ l r => max (l.height + 1) (r.height + 2)
  | cond c t f => max (c.height + 1) (max t.height f.height + 2)
  | assign _ e => e.height + 2

/-- The levels that the canonical text of a statement takes: an assignment has no group there. -/
def Expr.statementHeight : Expr → Nat
  | assign _ e => e.height + 2
  | e => e.height + 1

section
variable {limit depth : Nat} {slotOf : String → Nat} {ls ms ns : List Lexeme} {c e f l r : Expr}

theorem Derives.grouped (h : Derives limit slotOf .assignment depth ls e) :
    Derives limit slotOf .operand depth (grouped ls) e :=
  .primary (.group h)

theorem Derives.grouped_binary (op : BinaryOperator) (hle : depth + 2 ≤ limit)
    (hl : Derives limit slotOf .operand (depth + 1) ls l)
    (hr : Derives limit slotOf .operand (depth + 2) ms r) :
    Derives limit slotOf .operand depth (Plural.grouped (ls ++ .sign (.operator op) :: ms))
      (.binary op l r) :=
  (Derives.value (Nat.lt_of_succ_lt hle) (.binary op hle hl hr)).grouped

theorem Derives.grouped_cond (hle : depth + 2 ≤ limit)
    (hc : Derives limit slotOf .operand (depth + 1) ls c)
    (hl : Derives limit slotOf .operand (depth + 2) ms l)
    (hr : Derives limit slotOf .operand (depth + 2) ns r) :
    Derives limit slotOf .operand depth
      (Plural.grouped (ls ++ .sign .question :: (ms ++ .mark .colon :: ns))) (.cond c l r) := by
  have hlt : depth + 1 < limit := hle
  have hcond := Derives.ternary (hc.chain_of_operand (Nat.zero_le 6)) (hl.assignment_of_operand hlt)
    (hr.assignment_of_operand hlt)
  exact (Derives.value (Nat.lt_of_succ_lt hlt) hcond).grouped

/-- The canonical lexemes of an expression derive it, with the slots that the names have now. -/
theorem derives_textLexemes {names : List String} (slotOf : String → Nat)
    (h : depth + e.height ≤ limit) :
    Derives limit slotOf .operand depth (e.textLexemes names)
      (e.rename fun slot => slotOf (slotName names slot)) := by
  induction e generalizing depth with
  | lit v => exact .primary (.number v)
  | var slot => exact .primary (.name _)
  | unary op e ih =>
    rw [Expr.height] at h
    exact .unary op.unary?_sign (by omega) (ih (by omega))
  | binary op l r ihl ihr =>
    rw [Expr.height] at h
    exact .grouped_binary op (by omega) (ihl (by omega)) (ihr (by omega))
  | cond c t f ihc iht ihf =>
    rw [Expr.height] at h
    exact .grouped_cond (by omega) (ihc (by omega)) (iht (by omega)) (ihf (by omega))
  | assign slot e ih =>
    rw [Expr.height] at h
    exact (Derives.assign_operand _ (by omega) (ih (by omega))).grouped

theorem derives_statementLexemes {names : List String} (slotOf : String → Nat)
    (h : e.statementHeight ≤ limit) :
    Derives limit slotOf .assignment 0 (e.statementLexemes names)
      (e.rename fun slot => slotOf (slotName names slot)) := by
  cases e with
  | assign slot e =>
    rw [Expr.statementHeight] at h
    exact .assign_operand _ (by omega) (derives_textLexemes slotOf (by omega))
  | lit | var | unary | binary | cond =>
    replace h : Expr.height _ + 1 ≤ limit := h
    exact .assignment_of_operand (by omega) (derives_textLexemes slotOf (by omega))

end

theorem exists_statementHeight_le (es : List Expr) :
    ∃ limit, ∀ e ∈ es, e.statementHeight ≤ limit := by
  induction es with
  | nil => exact ⟨0, fun _ h => nomatch h⟩
  | cons e es ih =>
    obtain ⟨limit, h⟩ := ih
    refine ⟨max e.statementHeight limit, List.forall_mem_cons.2 ⟨by omega, ?_⟩⟩
    intro d hd
    have := h d hd
    omega

theorem derives_statements {limit : Nat} {names : List String} (slotOf : String → Nat)
    {es : List Expr} (h : ∀ e ∈ es, e.statementHeight ≤ limit) :
    DerivesProgram limit slotOf
      (es.flatMap fun e => e.statementLexemes names ++ [.mark .semicolon])
      (es.map (Expr.rename fun slot => slotOf (slotName names slot))) := by
  induction es with
  | nil => exact .nil
  | cons e es ih =>
    obtain ⟨he, hes⟩ := List.forall_mem_cons.1 h
    rw [List.flatMap_cons, List.append_assoc]
    exact .statement (.expression (derives_statementLexemes slotOf he)) (ih hes)

namespace Program

/-- The place of the slot's name among the first occurrences in the canonical text. -/
def newSlot (p : Program) (slot : Nat) : Nat :=
  (slotNames p.textLexemes).idxOf (slotName p.names slot)

/-- The program that the canonical text stands for. -/
def renumbered (p : Program) : Program where
  statements := p.statements.map (Expr.rename p.newSlot)
  names := slotNames p.textLexemes

/-- The canonical text is read as the renumbered program, unless it is nested too deeply. -/
theorem parse_text {p : Program} (h : ∀ l ∈ p.textLexemes, l.Spelled) :
    parse p.text = .ok p.renumbered ∨ ∃ offset, parse p.text = .error ⟨.tooDeep, offset⟩ := by
  obtain ⟨limit, hlimit⟩ := exists_statementHeight_le p.statements
  have hd : DerivesProgram limit (slotNames p.textLexemes).idxOf p.textLexemes
      p.renumbered.statements :=
    derives_statements _ hlimit
  have hscan := lexemes_scan_text h
  rw [← hscan] at hd
  have hyields : Yields limit maxNesting (parse p.text) _ := parseTokens_yields hd
  rcases hyields with hok | ⟨-, hdeep⟩
  · rw [hscan] at hok
    exact .inl hok
  · exact .inr hdeep

/-- A text with the lexemes of the canonical one is read like it, if no statement takes too many
levels. -/
theorem parse_of_textLexemes {source : String} {p : Program}
    (hscan : lexemes (scan source) = p.textLexemes)
    (h : ∀ e ∈ p.statements, e.statementHeight ≤ maxNesting) :
    parse source = .ok p.renumbered :=
  parse_of_derives hscan rfl (derives_statements _ h)

end Program

end Phrasebook.Plural
