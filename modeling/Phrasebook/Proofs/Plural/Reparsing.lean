import Phrasebook.Proofs.Plural.Printing
import Phrasebook.Proofs.Plural.WellFormed

/-!
# Programs after printing and reading

The canonical text of a compiled program is read as the program with its slots renumbered, for a
name that was only declared is not printed.  The renumbered program has the same text
(`Program.text_renumbered`) and runs in step with the one it came from
(`Program.reserved_value_renumbered`).  If every declared name had a value, no slot changes
(`BareDeclarator`, `slotNames_printed`, `Program.renumbered_eq_self`).
-/

namespace Phrasebook.Plural

/-! ### Names and literals of the canonical text -/

theorem namesOf_grouped (ls : List Lexeme) : namesOf (grouped ls) = namesOf ls := by
  rw [grouped, namesOf_cons_of_none rfl, namesOf_append, namesOf_cons_of_none rfl]
  exact List.append_nil _

namespace Expr

variable {names : List String} {e : Expr}

theorem namesOf_textLexemes (names : List String) (e : Expr) :
    namesOf (e.textLexemes names) = e.slots.map (slotName names) := by
  induction e with
  | lit v => rfl
  | var slot => rfl
  | unary op e ih => rw [textLexemes, namesOf_cons_of_none rfl, ih, slots]
  | binary op l r ihl ihr =>
    rw [textLexemes, namesOf_grouped, namesOf_append, namesOf_cons_of_none rfl, ihl, ihr, slots,
      List.map_append]
  | cond c t f ihc iht ihf =>
    rw [textLexemes, namesOf_grouped, namesOf_append, namesOf_cons_of_none rfl, namesOf_append,
      namesOf_cons_of_none rfl, ihc, iht, ihf, slots, List.map_append, List.map_append]
  | assign slot e ih =>
    rw [textLexemes, namesOf_grouped, namesOf_cons_name, namesOf_cons_of_none rfl, ih, slots,
      List.map_cons]

theorem namesOf_statementLexemes (names : List String) (e : Expr) :
    namesOf (e.statementLexemes names) = e.slots.map (slotName names) := by
  cases e with
  | assign slot e =>
    rw [statementLexemes, namesOf_cons_name, namesOf_cons_of_none rfl, namesOf_textLexemes, slots,
      List.map_cons]
  | lit | var | unary | binary | cond => exact namesOf_textLexemes names _

theorem spelled_textLexemes (hnames : ∀ slot ∈ e.slots, IsName (slotName names slot))
    (hliterals : ∀ v ∈ e.literals, 0 ≤ v.toInt) : ∀ l ∈ e.textLexemes names, l.Spelled := by
  have spelled_grouped {ls : List Lexeme} (h : ∀ l ∈ ls, l.Spelled) :
      ∀ l ∈ grouped ls, l.Spelled := by
    rw [grouped, List.forall_mem_cons, List.forall_mem_append, List.forall_mem_singleton]
    exact ⟨trivial, h, trivial⟩
  induction e with
  | lit v =>
    intro l hl
    obtain rfl := List.mem_singleton.1 hl
    exact hliterals v (List.mem_singleton_self v)
  | var slot =>
    intro l hl
    obtain rfl := List.mem_singleton.1 hl
    exact hnames slot (List.mem_singleton_self slot)
  | unary op e ih => exact List.forall_mem_cons.2 ⟨trivial, ih hnames hliterals⟩
  | binary op l r ihl ihr =>
    obtain ⟨hl, hr⟩ := List.forall_mem_append.1 hnames
    obtain ⟨hl', hr'⟩ := List.forall_mem_append.1 hliterals
    apply spelled_grouped
    rw [List.forall_mem_append, List.forall_mem_cons]
    exact ⟨ihl hl hl', trivial, ihr hr hr'⟩
  | cond c t f ihc iht ihf =>
    obtain ⟨hc, h⟩ := List.forall_mem_append.1 hnames
    obtain ⟨ht, hf⟩ := List.forall_mem_append.1 h
    obtain ⟨hc', h'⟩ := List.forall_mem_append.1 hliterals
    obtain ⟨ht', hf'⟩ := List.forall_mem_append.1 h'
    apply spelled_grouped
    rw [List.forall_mem_append, List.forall_mem_cons, List.forall_mem_append,
      List.forall_mem_cons]
    exact ⟨ihc hc hc', trivial, iht ht ht', trivial, ihf hf hf'⟩
  | assign slot e ih =>
    obtain ⟨hx, he⟩ := List.forall_mem_cons.1 hnames
    apply spelled_grouped
    rw [List.forall_mem_cons, List.forall_mem_cons]
    exact ⟨hx, trivial, ih he hliterals⟩

theorem spelled_statementLexemes (hnames : ∀ slot ∈ e.slots, IsName (slotName names slot))
    (hliterals : ∀ v ∈ e.literals, 0 ≤ v.toInt) : ∀ l ∈ e.statementLexemes names, l.Spelled := by
  have h := spelled_textLexemes hnames hliterals
  cases e with
  | assign slot e =>
    intro l hl
    exact h l (List.mem_cons_of_mem _ (List.mem_append_left _ hl))
  | lit | var | unary | binary | cond => exact h

/-- A renaming of slots that keeps their names keeps the text. -/
theorem text_rename {names' : List String} {f : Nat → Nat}
    (h : ∀ slot ∈ e.slots, slotName names' (f slot) = slotName names slot) :
    (e.rename f).text names' = e.text names := by
  induction e with
  | lit v => rfl
  | var slot => exact h slot (List.mem_singleton_self slot)
  | unary op e ih => rw [rename, text, text, ih h]
  | binary op l r ihl ihr =>
    obtain ⟨hl, hr⟩ := List.forall_mem_append.1 h
    rw [rename, text, text, ihl hl, ihr hr]
  | cond c t e ihc iht ihe =>
    obtain ⟨hc, h⟩ := List.forall_mem_append.1 h
    obtain ⟨ht, he⟩ := List.forall_mem_append.1 h
    rw [rename, text, text, ihc hc, iht ht, ihe he]
  | assign slot e ih =>
    obtain ⟨hs, he⟩ := List.forall_mem_cons.1 h
    rw [rename, text, text, hs, ih he]

theorem statementText_rename {names' : List String} {f : Nat → Nat}
    (h : ∀ slot ∈ e.slots, slotName names' (f slot) = slotName names slot) :
    (e.rename f).statementText names' = e.statementText names := by
  cases e with
  | assign slot e =>
    obtain ⟨hs, he⟩ := List.forall_mem_cons.1 h
    rw [rename, statementText, statementText, hs, text_rename he]
  | lit | var | unary | binary | cond => exact text_rename h

end Expr

theorem slotName_idxOf {names : List String} {x : String} (h : x ∈ names) :
    slotName names (names.idxOf x) = x := by
  have hlt : names.idxOf x < names.length := List.idxOf_lt_length_of_mem h
  rw [slotName, List.getD_eq_getElem?_getD, List.getElem?_eq_getElem hlt, Option.getD_some]
  exact List.getElem_idxOf hlt

theorem slotName_eq_getElem {names : List String} {slot : Nat} (h : slot < names.length) :
    slotName names slot = names[slot] := by
  rw [slotName, List.getD_eq_getElem?_getD, List.getElem?_eq_getElem h, Option.getD_some]

theorem idxOf_slotName {names : List String} (hnodup : names.Nodup) {slot : Nat}
    (h : slot < names.length) : names.idxOf (slotName names slot) = slot := by
  rw [slotName_eq_getElem h]
  exact hnodup.idxOf_getElem slot h

/-! ### The renumbered program -/

namespace Program

theorem namesOf_textLexemes (p : Program) :
    namesOf p.textLexemes = (p.statements.flatMap Expr.slots).map (slotName p.names) := by
  unfold textLexemes
  induction p.statements with
  | nil => rfl
  | cons e es ih =>
    rw [List.flatMap_cons, List.flatMap_cons, namesOf_append, namesOf_append, ih, List.map_append,
      Expr.namesOf_statementLexemes, namesOf_cons_of_none rfl]
    exact congrArg (· ++ _) (List.append_nil _)

/-- The slots that keep a name when the program is printed. -/
def Printed (p : Program) (slot : Nat) : Prop :=
  slot < p.names.length ∧ slotName p.names slot ∈ slotNames p.textLexemes

theorem reserved_isPrefix_slotNames (ls : List Lexeme) : reservedNames <+: slotNames ls := by
  rw [slotNames_eq]
  exact prefix_addNames _ _

section
variable {p : Program}

theorem WellFormed.spelled_textLexemes (h : p.WellFormed) : ∀ l ∈ p.textLexemes, l.Spelled := by
  intro l hl
  obtain ⟨e, he, hl⟩ := List.mem_flatMap.1 hl
  rcases List.mem_append.1 hl with hl | hl
  · have hnames : ∀ slot ∈ e.slots, IsName (slotName p.names slot) := by
      intro slot hslot
      have hlt := h.slots e he slot hslot
      rw [slotName_eq_getElem hlt]
      exact h.isName _ (List.getElem_mem hlt)
    exact Expr.spelled_statementLexemes hnames (h.literals e he) l hl
  · obtain rfl := List.mem_singleton.1 hl
    trivial

theorem WellFormed.printed_slots (h : p.WellFormed) :
    ∀ e ∈ p.statements, ∀ slot ∈ e.slots, p.Printed slot := by
  intro e he slot hslot
  refine ⟨h.slots e he slot hslot, ?_⟩
  rw [slotNames_eq, mem_addNames, namesOf_textLexemes]
  exact .inr (List.mem_map_of_mem (List.mem_flatMap.2 ⟨e, he, hslot⟩))

theorem newSlot_injective (h : p.WellFormed) :
    ∀ i j, p.Printed i → p.Printed j → p.newSlot i = p.newSlot j → i = j := by
  intro i j hi hj hij
  have hname : slotName p.names i = slotName p.names j := by
    rw [← slotName_idxOf hi.2, ← slotName_idxOf hj.2]
    exact congrArg _ hij
  rw [← idxOf_slotName h.nodup hi.1, ← idxOf_slotName h.nodup hj.1, hname]

/-- The count, the variant and the number of variants keep their slots. -/
theorem WellFormed.reserved_slot (h : p.WellFormed) {slot : Nat}
    (hslot : slot < reservedNames.length) : p.Printed slot ∧ p.newSlot slot = slot := by
  have hlt : slot < p.names.length := Nat.lt_of_lt_of_le hslot h.reserved.length_le
  have hname : slotName p.names slot = reservedNames[slot] := by
    rw [slotName_eq_getElem hlt]
    exact (h.reserved.getElem hslot).symm
  have hmem : slotName p.names slot ∈ reservedNames := hname ▸ List.getElem_mem hslot
  have hpre := reserved_isPrefix_slotNames p.textLexemes
  refine ⟨⟨hlt, hpre.subset hmem⟩, ?_⟩
  rw [newSlot, ← hpre.idxOf_eq_of_mem hmem, h.reserved.idxOf_eq_of_mem hmem]
  exact idxOf_slotName h.nodup hlt

theorem text_renumbered (h : p.WellFormed) : p.renumbered.text = p.text := by
  have hkeep : ∀ e ∈ p.statements, ∀ slot ∈ e.slots,
      slotName (slotNames p.textLexemes) (p.newSlot slot) = slotName p.names slot := by
    intro e he slot hslot
    exact slotName_idxOf (h.printed_slots e he slot hslot).2
  unfold text renumbered
  rw [List.map_map]
  refine congrArg _ (List.map_congr_left ?_)
  intro e he
  show (e.rename p.newSlot).statementText _ ++ ";" = _
  rw [Expr.statementText_rename (hkeep e he)]

theorem matches_start (h : p.WellFormed) (n : Int64) :
    Matches p.Printed p.newSlot (p.start n) (p.renumbered.start n) := by
  intro slot hslot
  obtain ⟨hcount, hzero⟩ := h.reserved_slot (show countSlot < reservedNames.length by decide)
  have hlt : p.newSlot slot < p.renumbered.names.length :=
    List.idxOf_lt_length_of_mem hslot.2
  have hiff : p.newSlot slot = countSlot ↔ slot = countSlot := by
    constructor
    · intro heq
      exact newSlot_injective h slot countSlot hslot hcount (heq.trans hzero.symm)
    · rintro rfl
      exact hzero
  refine ⟨_, p.getElem?_start n (Nat.lt_of_lt_of_le hslot.1 (Nat.le_max_left _ _)), ?_⟩
  rw [p.renumbered.getElem?_start n (Nat.lt_of_lt_of_le hlt (Nat.le_max_left _ _))]
  simp only [hiff]

theorem run_renumbered (h : p.WellFormed) (n : Int64) :
    ∃ env env', p.run n = some env ∧ p.renumbered.run n = some env' ∧
      Matches p.Printed p.newSlot env env' :=
  run_rename (newSlot_injective h) h.printed_slots rfl (matches_start h n)

/-- A run leaves the same value in a reserved slot. -/
theorem reserved_value_renumbered (h : p.WellFormed) (n : Int64) {slot : Nat}
    (hslot : slot < reservedNames.length) :
    (p.renumbered.run n).bind (·[slot]?) = (p.run n).bind (·[slot]?) := by
  obtain ⟨env, env', hrun, hrun', hmatch⟩ := run_renumbered h n
  obtain ⟨hprinted, hkeep⟩ := h.reserved_slot hslot
  obtain ⟨v, hv, hv'⟩ := hmatch slot hprinted
  rw [hkeep] at hv'
  rw [hrun, hrun', Option.bind_some, Option.bind_some, hv, hv']

theorem assigns_renumbered (h : p.WellFormed) :
    p.renumbered.assigns npluralsSlot = p.assigns npluralsSlot := by
  obtain ⟨hprinted, hkeep⟩ := h.reserved_slot (show npluralsSlot < reservedNames.length by decide)
  have hassigns : ∀ e ∈ p.statements,
      (e.rename p.newSlot).assigns npluralsSlot = e.assigns npluralsSlot := by
    intro e he
    conv => lhs; rw [← hkeep]
    refine Expr.assigns_rename ?_
    intro slot hslot heq
    exact newSlot_injective h slot npluralsSlot (h.printed_slots e he slot hslot) hprinted heq
  unfold assigns renumbered
  rw [List.any_map, Bool.eq_iff_iff, List.any_eq_true, List.any_eq_true]
  refine exists_congr fun e => and_congr_right ?_
  intro he
  show (e.rename p.newSlot).assigns npluralsSlot = true ↔ _
  rw [hassigns e he]

/-- Renumbering changes nothing when every name was printed, in the old order. -/
theorem renumbered_eq_self (h : p.WellFormed) (hnames : slotNames p.textLexemes = p.names) :
    p.renumbered = p := by
  have hkeep : ∀ e ∈ p.statements, ∀ slot ∈ e.slots, p.newSlot slot = slot := by
    intro e he slot hslot
    rw [newSlot, hnames]
    exact idxOf_slotName h.nodup (h.slots e he slot hslot)
  have hstatements : p.statements.map (Expr.rename p.newSlot) = p.statements := by
    refine (List.map_congr_left ?_).trans (List.map_id _)
    intro e he
    exact Expr.rename_eq_self (hkeep e he)
  unfold renumbered
  rw [hstatements, hnames]

end

end Program

/-! ### Declarators without a value -/

/-- A lexeme that a declarator follows. -/
def Lexeme.introduces : Lexeme → Bool
  | keyword _ | mark .comma => true
  | _ => false

/-- A declared name that no `=` follows. -/
def BareDeclarator (ls : List Lexeme) : Prop :=
  ∃ before l x after, ls = before ++ l :: .name x :: after ∧ l.introduces = true ∧
    after.head? ≠ some (.sign .assign)

theorem BareDeclarator.append_left {ms : List Lexeme} (h : BareDeclarator ms)
    (ls : List Lexeme) : BareDeclarator (ls ++ ms) := by
  obtain ⟨before, l, x, after, rfl, hl, hafter⟩ := h
  exact ⟨ls ++ before, l, x, after, (List.append_assoc ..).symm, hl, hafter⟩

theorem BareDeclarator.append_mark {ls : List Lexeme} (h : BareDeclarator ls) (m : Mark)
    (ms : List Lexeme) : BareDeclarator (ls ++ .mark m :: ms) := by
  obtain ⟨before, l, x, after, rfl, hl, hafter⟩ := h
  refine ⟨before, l, x, after ++ .mark m :: ms, ?_, hl, ?_⟩
  · simp only [List.append_assoc, List.cons_append]
  · cases after with
    | nil => simp
    | cons a after => exact hafter

section
variable {limit : Nat} {slotOf : String → Nat} {ls : List Lexeme} {es : List Expr}

theorem Separated.declarators_slots_eq
    (h : Separated .comma (DerivesDeclarator limit slotOf) ls es) {l : Lexeme}
    (hl : l.introduces = true) (hbare : ¬ BareDeclarator (l :: ls)) :
    es.flatMap Expr.slots = (namesOf ls).map slotOf := by
  have part {ls : List Lexeme} {es : List Expr} (h : DerivesDeclarator limit slotOf ls es)
      {l : Lexeme} (hl : l.introduces = true) (hbare : ¬ BareDeclarator (l :: ls)) :
      es.flatMap Expr.slots = (namesOf ls).map slotOf := by
    cases h with
    | bare x => exact absurd ⟨[], l, x, [], rfl, hl, fun heq => nomatch heq⟩ hbare
    | @initialised x ms e he =>
      rw [List.flatMap_singleton, Expr.slots, he.slots_eq, namesOf_cons_name,
        namesOf_cons_of_none rfl, List.map_cons]
  induction h generalizing l with
  | last h => exact part h hl hbare
  | @more ls ms es fs h _ ih =>
    have hfirst : ¬ BareDeclarator (l :: ls) := fun hb => hbare (hb.append_mark .comma ms)
    have hothers : ¬ BareDeclarator (.mark .comma :: ms) :=
      fun hb => hbare (hb.append_left (l :: ls))
    rw [List.flatMap_append, part h hl hfirst, ih rfl hothers, namesOf_append,
      namesOf_cons_of_none rfl, List.map_append]

theorem DerivesStatement.slots_eq (h : DerivesStatement limit slotOf ls es)
    (hbare : ¬ BareDeclarator ls) : es.flatMap Expr.slots = (namesOf ls).map slotOf := by
  cases h with
  | declaration hd =>
    rw [namesOf_cons_of_none rfl]
    exact hd.declarators_slots_eq rfl hbare
  | expression he =>
    rw [List.flatMap_singleton]
    exact he.slots_eq

/-- If every declarator has a value, the statements use the names of the text one by one. -/
theorem DerivesProgram.slots_eq (h : DerivesProgram limit slotOf ls es)
    (hbare : ¬ BareDeclarator ls) : es.flatMap Expr.slots = (namesOf ls).map slotOf := by
  have hclauses := derivesProgram_iff.1 h
  have part {ls : List Lexeme} {es : List Expr} (hc : DerivesClause limit slotOf ls es)
      (hbare : ¬ BareDeclarator ls) : es.flatMap Expr.slots = (namesOf ls).map slotOf := by
    rcases hc with ⟨rfl, rfl⟩ | hs
    · rfl
    · exact hs.slots_eq hbare
  induction hclauses with
  | last hc => exact part hc hbare
  | @more ls ms es fs hc hms ih =>
    have hfirst : ¬ BareDeclarator ls := fun hb => hbare (hb.append_mark .semicolon ms)
    have hothers : ¬ BareDeclarator ms :=
      fun hb => hbare (hb.append_left [.mark .semicolon] |>.append_left ls)
    rw [List.flatMap_append, part hc hfirst, ih (derivesProgram_iff.2 hms) hothers, namesOf_append,
      namesOf_cons_of_none rfl, List.map_append]

end

/-- If every declarator has a value, the canonical text keeps all names, in their order. -/
theorem slotNames_printed {source : String} {p : Program}
    (h : Program.parse source = .ok p) (hbare : ¬ BareDeclarator (lexemes (scan source))) :
    slotNames p.textLexemes = p.names := by
  obtain ⟨hnames, hd⟩ := parseTokens_reads h
  have hall : ∀ x ∈ namesOf (lexemes (scan source)), x ∈ p.names := by
    intro x hx
    rw [hnames, slotNames_eq, mem_addNames]
    exact .inr hx
  have hsame : namesOf p.textLexemes = namesOf (lexemes (scan source)) := by
    rw [Program.namesOf_textLexemes, hd.slots_eq hbare, List.map_map]
    refine (List.map_congr_left ?_).trans (List.map_id _)
    intro x hx
    exact slotName_idxOf (hall x hx)
  rw [hnames, slotNames, slotNames, hsame]

end Phrasebook.Plural

namespace Phrasebook.PluralRule

open Plural

theorem declaredCount_renumbered {p : Program} (h : p.WellFormed) :
    declaredCount p.renumbered = declaredCount p := by
  have hvalue := Program.reserved_value_renumbered h 0
    (show npluralsSlot < reservedNames.length by decide)
  have hcount (q : Program) : declaredCount q =
      if q.assigns npluralsSlot then ((q.run 0).bind (·[npluralsSlot]?)).bind variantNumber?
      else none := by
    rw [declaredCount, Option.bind_assoc]
    rfl
  rw [hcount, hcount, Program.assigns_renumbered h, hvalue]

/-- The canonical text of a compiled rule compiles to a rule with the same text, indices and number
of variants, or it is nested too deeply and nothing else is wrong with it.  The program itself
comes back if every declarator has a value. -/
theorem compile_text {source : String} {rule : PluralRule} (h : compile source = .ok rule) :
    (∃ offset, compile rule.program.text = .error ⟨rule.program.text, .tooDeep, offset⟩) ∨
      ∃ rule', compile rule.program.text = .ok rule' ∧
        rule'.program.text = rule.program.text ∧
        (∀ n, rule'.index n = rule.index n) ∧
        rule'.nplurals = rule.nplurals ∧
        (¬ BareDeclarator (lexemes (scan source)) → rule'.program = rule.program) := by
  obtain ⟨hparse, hcount⟩ := compile_eq_ok h
  have hwf := Program.parse_wellFormed hparse
  rcases Program.parse_text hwf.spelled_textLexemes with hok | ⟨offset, hdeep⟩
  · refine .inr ⟨_, compile_of_parse hok, Program.text_renumbered hwf, ?_, ?_, ?_⟩
    · intro n
      have hvalue := Program.reserved_value_renumbered hwf n
        (show pluralSlot < reservedNames.length by decide)
      exact congrArg (Option.getD · 0) hvalue
    · rw [hcount]
      exact declaredCount_renumbered hwf
    · intro hbare
      exact Program.renumbered_eq_self hwf (slotNames_printed hparse hbare)
  · refine .inl ⟨offset, ?_⟩
    rw [compile, hdeep]

/-- The name `k` is declared without a value, and before `m`. -/
def declaredOnly : Program where
  statements := [.assign 4 (.lit 2), .assign pluralSlot (.binary .multiply (.var 4) (.var 3))]
  names := ["n", "plural", "nplurals", "k", "m"]

/-- The declaration of `k` is not printed, so `m` is now the first of the two. -/
def declaredOnlyPrinted : Program where
  statements := [.assign 3 (.lit 2), .assign pluralSlot (.binary .multiply (.var 3) (.var 4))]
  names := ["n", "plural", "nplurals", "m", "k"]

theorem parse_declaredOnly :
    Program.parse "let k, m = 2; plural = m * k" = .ok declaredOnly := by
  have hlexemes : lexemes (scan "let k, m = 2; plural = m * k") =
      [.keyword "let", .name "k", .mark .comma, .name "m", .sign .assign, .number 2,
        .mark .semicolon, .name "plural", .sign .assign, .name "m", .sign (.operator .multiply),
        .name "k"] := by decide +kernel
  have htwo : Derives maxNesting declaredOnly.names.idxOf .assignment 0 _ (.lit 2) :=
    .assignment_of_operand (by decide) (.primary (.number 2))
  have hproduct : Derives maxNesting declaredOnly.names.idxOf .conditional 2 _
      (.binary .multiply (.var 4) (.var 3)) :=
    .binary .multiply (by decide) (.primary (.name "m")) (.primary (.name "k"))
  have hvariant := Derives.assign_name "plural" (by decide) (.value (by decide) hproduct)
  exact Program.parse_of_derives hlexemes (by decide)
    (.statement (.declaration (.more (.bare "k") (.last (.initialised htwo))))
      (.last (.expression hvariant)))

/-- The canonical text comes back and the program does not. -/
theorem compile_text_of_declaredOnly :
    ∃ rule rule', compile "let k, m = 2; plural = m * k" = .ok rule ∧
      rule.program = declaredOnly ∧
      rule.program.text = "m = 2; plural = (m * k);" ∧
      compile rule.program.text = .ok rule' ∧
      rule'.program.text = "m = 2; plural = (m * k);" ∧
      (∀ n, rule'.index n = rule.index n) ∧
      rule'.nplurals = rule.nplurals ∧
      rule'.program = declaredOnlyPrinted ∧
      BareDeclarator (lexemes (scan "let k, m = 2; plural = m * k")) := by
  have hcanonical : lexemes (scan declaredOnly.text) = declaredOnly.textLexemes := by
    decide +kernel
  have hcompile := compile_of_parse parse_declaredOnly
  have hagain := compile_of_parse (Program.parse_of_textLexemes hcanonical (by decide))
  rcases compile_text hcompile with ⟨offset, hdeep⟩ | ⟨rule', hok, htext, hindex, hcount, hsame⟩
  · cases hdeep.symm.trans hagain
  · have hprogram : rule'.program = declaredOnlyPrinted :=
      congrArg program (Except.ok.inj (hok.symm.trans hagain))
    refine ⟨_, rule', hcompile, rfl, rfl, hok, htext, hindex, hcount, hprogram, ?_⟩
    by_contra hbare
    exact absurd (hprogram.symm.trans (hsame hbare)) (by decide)

end Phrasebook.PluralRule
