import Phrasebook.Proofs.Plural.Rejection
import Phrasebook.Proofs.Plural.Reparsing

/-!
# The nesting of the canonical text

The printer puts a group around every operator, every `?` and every inner assignment, and the
parser counts what is in them against the limit again: a branch of a chain of `?` takes one level in
the source and two in the canonical text.  So a program that is accepted may have a canonical text
that is not.  The levels that the text takes are read off the tree (`Expr.statementHeight`), and a
text that takes more than the limit is stuck at the first lexeme beyond it (`Blocked`,
`blocked_textLexemes`, `exists_stuckProgram`).
-/

namespace Phrasebook.Plural

/-! ### Phrases without an end -/

/-- A phrase that begins with these lexemes is nested too deeply, whatever comes after them. -/
def Blocked (limit : Nat) (phrase : Phrase) (depth : Nat) (ls : List Lexeme) : Prop :=
  ∃ used rest, ls = used ++ rest ∧ ∀ next, Stuck limit next phrase depth used .tooDeep

section
variable {limit depth depth' level level' : Nat} {next : Option Lexeme} {phrase phrase' : Phrase}
  {ls : List Lexeme} {o : Obstacle}

theorem Stuck.chain_of_le (hle : level ≤ level') (hlt : level' ≤ 6)
    (h : Stuck limit next (.chain level') depth ls o) :
    Stuck limit next (.chain level) depth ls o := by
  induction hle with
  | refl => exact h
  | step _ ih => exact ih (Nat.le_of_succ_le hlt) (.first hlt h)

theorem Stuck.chain_of_operand (hlevel : level ≤ 6) (h : Stuck limit next .operand depth ls o) :
    Stuck limit next (.chain level) depth ls o :=
  (Stuck.tightest (Nat.le_refl 6) h).chain_of_le hlevel (Nat.le_refl 6)

/-- Where there are levels left, a phrase has to begin before it can be too deep. -/
theorem Stuck.ne_nil (h : Stuck limit next phrase depth ls o) (ho : o = .tooDeep)
    (hlt : phrase = .assignment → depth < limit) : ls ≠ [] := by
  induction h with
  | tooDeep hle => exact absurd (hlt rfl) (Nat.not_lt_of_le hle)
  | value _ _ ih | condition _ ih | first _ _ ih | tightest _ _ ih | primary _ ih =>
    exact ih ho fun hphrase => nomatch hphrase
  | assign | whenTrue | whenFalse | operatorTooDeep | right =>
    exact List.append_ne_nil_of_right_ne_nil _ (List.cons_ne_nil _ _)
  | unaryTooDeep | unary | inner => exact List.cons_ne_nil _ _
  | invalidTarget | colon | expression | closeParen => cases ho

/-- Lexemes that come before a blocked phrase block the phrase that they make with it. -/
theorem Blocked.behind (before : List Lexeme) (h : Blocked limit phrase depth ls)
    (f : ∀ {next used}, Stuck limit next phrase depth used .tooDeep →
      Stuck limit next phrase' depth' (before ++ used) .tooDeep) :
    Blocked limit phrase' depth' (before ++ ls) := by
  obtain ⟨used, rest, rfl, hs⟩ := h
  exact ⟨before ++ used, rest, (List.append_assoc ..).symm, fun next => f (hs next)⟩

theorem Blocked.map (h : Blocked limit phrase depth ls)
    (f : ∀ {next used}, Stuck limit next phrase depth used .tooDeep →
      Stuck limit next phrase' depth' used .tooDeep) : Blocked limit phrase' depth' ls :=
  h.behind [] f

theorem Blocked.append (h : Blocked limit phrase depth ls) (ms : List Lexeme) :
    Blocked limit phrase depth (ls ++ ms) := by
  obtain ⟨used, rest, rfl, hs⟩ := h
  exact ⟨used, rest ++ ms, List.append_assoc .., hs⟩

/-- An assignment needs a level of its own. -/
theorem blocked_assignment (h : depth < limit → Blocked limit .conditional (depth + 1) ls) :
    Blocked limit .assignment depth ls := by
  by_cases hlt : depth < limit
  · exact (h hlt).map (.value hlt)
  · exact ⟨[], ls, rfl, fun next => .tooDeep (Nat.le_of_not_lt hlt)⟩

theorem Blocked.conditional_of_operand (h : Blocked limit .operand depth ls) :
    Blocked limit .conditional depth ls :=
  h.map fun hs => .condition (hs.chain_of_operand (Nat.zero_le 6))

theorem Blocked.grouped (h : Blocked limit .assignment depth ls) :
    Blocked limit .operand depth (Plural.grouped ls) :=
  (h.append _).behind [.mark .openParen] fun hs => .primary (.inner hs)

end

/-! ### Groups that are too deep -/

section
variable {limit depth : Nat} {ls ms ns : List Lexeme} {c l t : Expr}

theorem Blocked.first_of_group (h : Blocked limit .operand (depth + 1) ls) (ms : List Lexeme) :
    Blocked limit .operand depth (Plural.grouped (ls ++ ms)) :=
  .grouped (blocked_assignment fun _ => (h.append ms).conditional_of_operand)

theorem blocked_right (op : BinaryOperator) (hl : Derives limit noSlot .operand (depth + 1) ls l)
    (h : depth + 2 ≤ limit → Blocked limit .operand (depth + 2) ms) :
    Blocked limit .operand depth (grouped (ls ++ .sign (.operator op) :: ms)) := by
  have hlevel := op.level_lt
  have hop : op ∈ operatorsAt op.level := mem_operatorsAt.2 rfl
  have hleft : Derives limit noSlot (.run op.level 0) (depth + 1) ls l :=
    .first hlevel (hl.chain_of_operand hlevel)
  have hchain : Blocked limit (.chain op.level) (depth + 1) (ls ++ .sign (.operator op) :: ms) := by
    by_cases hle : depth + 2 ≤ limit
    · rw [List.append_cons]
      refine (h hle).behind _ fun hs => ?_
      rw [← List.append_cons]
      exact .right hleft hop hle (hs.chain_of_operand hlevel)
    · have hdeep : limit ≤ depth + 1 + 0 := by omega
      exact ⟨_, ms, List.append_cons .., fun _ => .operatorTooDeep hleft hop hdeep⟩
  refine .grouped (blocked_assignment fun _ => hchain.map fun hs => ?_)
  exact .condition (hs.chain_of_le (Nat.zero_le _) (Nat.le_of_lt hlevel))

theorem blocked_whenTrue (hc : Derives limit noSlot .operand (depth + 1) ls c)
    (h : depth + 1 < limit → Blocked limit .operand (depth + 2) ms) (ns : List Lexeme) :
    Blocked limit .operand depth (grouped (ls ++ .sign .question :: (ms ++ ns))) := by
  have hbranch : Blocked limit .assignment (depth + 1) ms :=
    blocked_assignment fun hlt => (h hlt).conditional_of_operand
  have hcond : Blocked limit .conditional (depth + 1) (ls ++ .sign .question :: (ms ++ ns)) := by
    rw [List.append_cons]
    refine (hbranch.append ns).behind _ fun hs => ?_
    rw [← List.append_cons]
    exact .whenTrue (hc.chain_of_operand (Nat.zero_le 6)) hs
  exact .grouped (blocked_assignment fun _ => hcond)

theorem blocked_whenFalse (hc : Derives limit noSlot .operand (depth + 1) ls c)
    (ht : Derives limit noSlot .assignment (depth + 1) ms t)
    (h : depth + 1 < limit → Blocked limit .operand (depth + 2) ns) :
    Blocked limit .operand depth
      (grouped (ls ++ .sign .question :: (ms ++ .mark .colon :: ns))) := by
  have hbranch : Blocked limit .assignment (depth + 1) ns :=
    blocked_assignment fun hlt => (h hlt).conditional_of_operand
  have hsplit (ns : List Lexeme) : ls ++ .sign .question :: (ms ++ .mark .colon :: ns) =
      (ls ++ .sign .question :: (ms ++ [.mark .colon])) ++ ns := by
    simp only [List.append_assoc, List.cons_append, List.nil_append]
  have hcond : Blocked limit .conditional (depth + 1)
      (ls ++ .sign .question :: (ms ++ .mark .colon :: ns)) := by
    rw [hsplit]
    refine hbranch.behind _ fun hs => ?_
    rw [← hsplit]
    exact .whenFalse (hc.chain_of_operand (Nat.zero_le 6)) ht hs
  exact .grouped (blocked_assignment fun _ => hcond)

theorem blocked_assign_name (x : String)
    (h : depth + 1 < limit → Blocked limit .operand (depth + 2) ls) :
    Blocked limit .assignment depth (.name x :: .sign .assign :: ls) := by
  by_cases hlt : depth < limit
  · have hvalue : Blocked limit .assignment (depth + 1) ls :=
      blocked_assignment fun hlt => (h hlt).conditional_of_operand
    have hname : Derives limit noSlot .conditional (depth + 1) [.name x] (.var (noSlot x)) :=
      Derives.conditional_of_operand (.primary (.name x))
    exact hvalue.behind [.name x, .sign .assign] fun hs => .assign hlt hname hs
  · exact blocked_assignment fun hlt' => absurd hlt' hlt

end

/-! ### Canonical text that is too deep -/

/-- The canonical text of an expression is an operand where its levels fit, and blocked elsewhere.
The cases follow the parts in the order of the text: the first that does not fit blocks it, and
those before it are read. -/
theorem blocked_textLexemes {limit depth : Nat} {e : Expr} (names : List String)
    (hdepth : depth ≤ limit) (h : limit < depth + e.height) :
    Blocked limit .operand depth (e.textLexemes names) := by
  induction e generalizing depth with
  | lit | var => exact absurd h (Nat.not_lt_of_le hdepth)
  | unary op e ih =>
    rw [Expr.height] at h
    by_cases hlt : depth < limit
    · exact (ih hlt (by omega)).behind [_] fun hs => .unary op.unary?_sign hlt hs
    · exact ⟨[_], _, rfl, fun _ => .unaryTooDeep op.unary?_sign (Nat.le_of_not_lt hlt)⟩
  | binary op l r ihl ihr =>
    rw [Expr.height] at h
    by_cases hlt : depth < limit
    · by_cases hl : depth + 1 + l.height ≤ limit
      · exact blocked_right op (derives_textLexemes noSlot hl) fun hle => ihr hle (by omega)
      · exact (ihl hlt (Nat.lt_of_not_le hl)).first_of_group _
    · exact .grouped (blocked_assignment fun hlt' => absurd hlt' hlt)
  | cond c t f ihc iht ihf =>
    rw [Expr.height] at h
    by_cases hlt : depth < limit
    · by_cases hc : depth + 1 + c.height ≤ limit
      · have hread : Derives limit noSlot .operand (depth + 1) (c.textLexemes names) _ :=
          derives_textLexemes noSlot hc
        by_cases ht : depth + 2 + t.height ≤ limit
        · exact blocked_whenFalse hread
            (.assignment_of_operand (by omega) (derives_textLexemes noSlot ht))
            fun hle => ihf hle (by omega)
        · exact blocked_whenTrue hread (fun hle => iht hle (Nat.lt_of_not_le ht)) _
      · exact (ihc hlt (Nat.lt_of_not_le hc)).first_of_group _
    · exact .grouped (blocked_assignment fun hlt' => absurd hlt' hlt)
  | assign slot e ih =>
    rw [Expr.height] at h
    exact .grouped (blocked_assign_name _ fun hlt => ih hlt (by omega))

theorem blocked_statementLexemes {limit : Nat} {e : Expr} (names : List String)
    (h : limit < e.statementHeight) : Blocked limit .assignment 0 (e.statementLexemes names) := by
  cases e with
  | assign slot e =>
    rw [Expr.statementHeight] at h
    exact blocked_assign_name _ fun hlt => blocked_textLexemes names hlt (by omega)
  | lit | var | unary | binary | cond =>
    replace h : limit < Expr.height _ + 1 := h
    exact blocked_assignment fun hlt =>
      (blocked_textLexemes names hlt (by omega)).conditional_of_operand

/-- The first statement that takes too many levels blocks the program. -/
theorem exists_stuckProgram {limit : Nat} (names : List String) (hpos : 0 < limit)
    {es : List Expr} (h : ∃ e ∈ es, limit < e.statementHeight) :
    ∃ used rest,
      (es.flatMap fun e => e.statementLexemes names ++ [.mark .semicolon]) = used ++ rest ∧
        ∀ next, StuckProgram limit next used .tooDeep := by
  induction es with
  | nil => exact absurd h fun ⟨_, he, _⟩ => nomatch he
  | cons d es ih =>
    rw [List.flatMap_cons, List.append_assoc]
    by_cases hd : d.statementHeight ≤ limit
    · obtain ⟨e, he, hdeep⟩ := h
      have htail : e ∈ es := by
        rcases List.mem_cons.1 he with rfl | he
        · exact absurd hd (Nat.not_le_of_lt hdeep)
        · exact he
      obtain ⟨used, rest, hes, hs⟩ := ih ⟨e, htail, hdeep⟩
      have hclause : DerivesClause limit noSlot (d.statementLexemes names) _ :=
        .inr (.expression (derives_statementLexemes noSlot hd))
      refine ⟨d.statementLexemes names ++ .mark .semicolon :: used, rest, ?_, fun next => ?_⟩
      · rw [hes, List.append_assoc]
        rfl
      · exact .later hclause (hs next)
    · obtain ⟨used, rest, hused, hs⟩ :=
        blocked_statementLexemes names (Nat.lt_of_not_le hd)
      refine ⟨used, rest ++ _, by rw [hused, List.append_assoc], fun next => .first ?_⟩
      have hbegun : used ≠ [] := (hs next).ne_nil rfl fun _ => hpos
      exact .expression (fun hnil => absurd hnil hbegun) (.inside (hs _))

namespace Program

section
variable {p : Program}

theorem parse_text_eq_tooDeep (hspelled : ∀ l ∈ p.textLexemes, l.Spelled)
    (h : ∃ e ∈ p.statements, maxNesting < e.statementHeight) :
    ∃ offset, parse p.text = .error ⟨.tooDeep, offset⟩ := by
  obtain ⟨used, rest, hsplit, hs⟩ := exists_stuckProgram p.names (by decide) h
  have hscan : lexemes (scan p.text) = used ++ rest := (lexemes_scan_text hspelled).trans hsplit
  obtain ⟨us, vs, htokens, rfl, rfl⟩ := List.map_eq_append_iff.1 hscan
  exact ⟨_, parseTokens_eq_error_iff.2 ⟨us, vs, .tooDeep, htokens, hs _, rfl⟩⟩

end

end Program

/-! ### A chain of `?` -/

/-- The lexemes of `n ? n : n ? n : … : n`, with `k` times `?`. -/
def alternatives : Nat → List Lexeme
  | 0 => [.name "n"]
  | k + 1 => [.name "n"] ++ .sign .question :: ([.name "n"] ++ .mark .colon :: alternatives k)

def alternativesTree (slot : Nat) : Nat → Expr
  | 0 => .var slot
  | k + 1 => .cond (.var slot) (.var slot) (alternativesTree slot k)

theorem spelled_alternatives (k : Nat) : ∀ l ∈ alternatives k, l.Spelled := by
  have hname : (Lexeme.name "n").Spelled := isName_of_mem_reservedNames (by decide)
  induction k with
  | zero => exact List.forall_mem_singleton.2 hname
  | succ k ih =>
    simp only [alternatives, List.cons_append, List.nil_append, List.forall_mem_cons]
    exact ⟨hname, trivial, hname, trivial, ih⟩

/-- In the source each `?` takes one level. -/
theorem derives_alternatives {limit : Nat} {slotOf : String → Nat} {k depth : Nat}
    (h : depth + k < limit) :
    Derives limit slotOf .assignment depth (alternatives k) (alternativesTree (slotOf "n") k) := by
  have operand {depth : Nat} : Derives limit slotOf .operand depth [.name "n"] _ :=
    .primary (.name "n")
  induction k generalizing depth with
  | zero => exact .assignment_of_operand h operand
  | succ k ih =>
    have htrue : Derives limit slotOf .assignment (depth + 1) [.name "n"] _ :=
      .assignment_of_operand (by omega) operand
    exact .value (by omega)
      (.ternary (operand.chain_of_operand (Nat.zero_le 6)) htrue (ih (by omega)))

/-- In the canonical text each `?` takes two levels. -/
theorem height_alternativesTree (slot k : Nat) : (alternativesTree slot k).height = 2 * k := by
  induction k with
  | zero => rfl
  | succ k ih =>
    rw [alternativesTree, Expr.height, ih]
    simp only [Expr.height]
    omega

theorem statementHeight_alternativesTree (slot k : Nat) :
    (alternativesTree slot k).statementHeight = 2 * k + 1 := by
  rw [← height_alternativesTree slot k]
  cases k <;> rfl

end Phrasebook.Plural

namespace Phrasebook.PluralRule

open Plural

theorem compile_text_eq_tooDeep {source : String} {rule : PluralRule}
    (h : compile source = .ok rule)
    (hdeep : ∃ e ∈ rule.program.statements, maxNesting < e.statementHeight) :
    ∃ offset, compile rule.program.text = .error ⟨rule.program.text, .tooDeep, offset⟩ := by
  have hspelled := (Program.parse_wellFormed (compile_eq_ok h).1).spelled_textLexemes
  obtain ⟨offset, hparse⟩ := Program.parse_text_eq_tooDeep hspelled hdeep
  refine ⟨offset, ?_⟩
  rw [compile, hparse]

/-- The canonical text of a compiled rule is accepted exactly if none of its statements takes more
levels than the limit, and if one does, its nesting is what is refused. -/
theorem compile_text_isOk_iff {source : String} {rule : PluralRule}
    (h : compile source = .ok rule) :
    ((∃ rule', compile rule.program.text = .ok rule') ↔
        ∀ e ∈ rule.program.statements, e.statementHeight ≤ maxNesting) ∧
      ((∃ e ∈ rule.program.statements, maxNesting < e.statementHeight) →
        ∃ offset, compile rule.program.text = .error ⟨rule.program.text, .tooDeep, offset⟩) := by
  refine ⟨⟨?_, fun hfits => ?_⟩, compile_text_eq_tooDeep h⟩
  · rintro ⟨rule', hok⟩ e he
    refine Nat.le_of_not_lt fun hdeep => ?_
    obtain ⟨offset, herror⟩ := compile_text_eq_tooDeep h ⟨e, he, hdeep⟩
    rw [hok] at herror
    cases herror
  · have hspelled := (Program.parse_wellFormed (compile_eq_ok h).1).spelled_textLexemes
    exact ⟨_, compile_of_parse (Program.parse_of_textLexemes (lexemes_scan_text hspelled) hfits)⟩

/-- A chain with fewer `?` than there are levels is accepted. -/
theorem exists_compile_alternatives {k : Nat} (h : k < maxNesting) :
    ∃ rule e, compile (spelledOut (alternatives k)) = .ok rule ∧
      rule.program.statements = [e] ∧ e.statementHeight = 2 * k + 1 := by
  have hd (slotOf : String → Nat) : Derives maxNesting slotOf .assignment 0 (alternatives k) _ :=
    derives_alternatives (by omega)
  have hparse := Program.parse_spelledOut (spelled_alternatives k) (.last (.expression (hd _)))
  exact ⟨_, _, compile_of_parse hparse, rfl, statementHeight_alternativesTree _ k⟩

/-- With 63 times `?` the canonical text takes 127 levels, and is accepted. -/
theorem compile_text_isOk_iff_of_alternatives :
    ∃ rule e, compile (spelledOut (alternatives 63)) = .ok rule ∧
      rule.program.statements = [e] ∧ e.statementHeight = 127 ∧ 127 ≤ maxNesting ∧
      ∃ rule', compile rule.program.text = .ok rule' := by
  obtain ⟨rule, e, h, hstatements, hheight⟩ :=
    exists_compile_alternatives (show 63 < maxNesting by decide)
  have hlimit : 127 ≤ maxNesting := by decide
  refine ⟨rule, e, h, hstatements, hheight, hlimit, (compile_text_isOk_iff h).1.2 ?_⟩
  rw [hstatements, List.forall_mem_singleton, hheight]
  exact hlimit

/-- With 64 times `?` the source takes 65 levels and is accepted, and its canonical text takes 129
and is refused. -/
theorem exists_compile_text_tooDeep :
    ∃ rule, compile (spelledOut (alternatives 64)) = .ok rule ∧
      ∃ offset, compile rule.program.text = .error ⟨rule.program.text, .tooDeep, offset⟩ := by
  obtain ⟨rule, e, h, hstatements, hheight⟩ :=
    exists_compile_alternatives (show 64 < maxNesting by decide)
  have hmem : e ∈ rule.program.statements := hstatements ▸ List.mem_singleton_self e
  have hdeep : maxNesting < e.statementHeight := by
    rw [hheight]
    decide
  exact ⟨rule, h, compile_text_eq_tooDeep h ⟨e, hmem, hdeep⟩⟩

end Phrasebook.PluralRule
