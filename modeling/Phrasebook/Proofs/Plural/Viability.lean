import Phrasebook.Proofs.Plural.Rejection
import Phrasebook.Proofs.Plural.Nesting
import Phrasebook.Proofs.Plural.Reparsing
import Phrasebook.Proofs.Plural.Scanning

/-!
# The first token that cannot stand

An error stands at the first token that no header begins like.  What comes after that token does
not matter (`RefusedAfter`, `refusedAfter_of_stuck`), and what comes before it is the beginning of a
header that compiles (`Viable`, `viable_of_stuck`), unless the header was refused for its nesting:
whatever else a program is stuck at, other lexemes in that place complete it (`Completes`,
`StuckProgram.completes`).
-/

namespace Phrasebook.Plural

/-! ### How to go on -/

/-- Other lexemes, which can be spelled, make `Part` of the lexemes `ls`. -/
def Completes (Part : List Lexeme → Prop) (ls : List Lexeme) : Prop :=
  ∃ ms, (∀ l ∈ ms, l.Spelled) ∧ Part (ls ++ ms)

/-- The lexemes are a `phrase` at the nesting count `depth`. -/
def IsPhrase (limit : Nat) (phrase : Phrase) (depth : Nat) (ls : List Lexeme) : Prop :=
  ∃ e, Derives limit noSlot phrase depth ls e

section
variable {Part Part' : List Lexeme → Prop} {ls ms : List Lexeme}

theorem completes_of (h : Part ls) : Completes Part ls :=
  ⟨[], fun _ h => (nomatch h), by rwa [List.append_nil]⟩

theorem Completes.map (h : Completes Part ls) (f : ∀ ns, Part (ls ++ ns) → Part' (ms ++ ns)) :
    Completes Part' ms := by
  obtain ⟨ns, hns, hp⟩ := h
  exact ⟨ns, hns, f ns hp⟩

/-- More lexemes come after those that complete a part of the whole. -/
theorem Completes.append {last : List Lexeme} (h : Completes Part ls)
    (hlast : ∀ l ∈ last, l.Spelled) (f : ∀ ns, Part (ls ++ ns) → Part' (ms ++ (ns ++ last))) :
    Completes Part' ms := by
  obtain ⟨ns, hns, hp⟩ := h
  exact ⟨ns ++ last, List.forall_mem_append.2 ⟨hns, hlast⟩, f ns hp⟩

end

section
variable {limit depth : Nat} {next : Option Lexeme} {phrase : Phrase} {ls : List Lexeme}
  {o : Obstacle}

theorem derives_zero (hlt : depth < limit) :
    Derives limit noSlot .assignment depth [.number 0] (.lit 0) :=
  .assignment_of_operand hlt (.primary (.number 0))

theorem spelled_colon_zero : ∀ l ∈ [Lexeme.mark .colon, .number 0], l.Spelled :=
  List.forall_mem_cons.2 ⟨trivial, List.forall_mem_singleton.2 spelled_zero⟩

theorem spelled_closeParen : ∀ l ∈ [Lexeme.mark .closeParen], l.Spelled :=
  List.forall_mem_singleton.2 trivial

/-- Whatever a phrase is stuck at, except for the limit, it could have gone on otherwise. -/
theorem Stuck.completes (h : Stuck limit next phrase depth ls o) (ho : o ≠ .tooDeep) :
    Completes (IsPhrase limit phrase depth) ls := by
  induction h with
  | tooDeep | operatorTooDeep | unaryTooDeep => exact absurd rfl ho
  | value hlt _ ih => exact (ih ho).map fun _ ⟨e, hd⟩ => ⟨e, .value hlt hd⟩
  | invalidTarget hlt hd => exact completes_of ⟨_, .value hlt (.condition hd)⟩
  | assign hlt hd _ ih =>
    refine (ih ho).map fun ns ⟨e, he⟩ => ?_
    rw [List.append_assoc, List.cons_append]
    exact ⟨_, .assign hlt hd he⟩
  | condition _ ih => exact (ih ho).map fun _ ⟨e, hd⟩ => ⟨e, .condition hd⟩
  | whenTrue hc _ ih =>
    refine (ih ho).append spelled_colon_zero fun ns ⟨t, ht⟩ => ?_
    rw [List.append_assoc, List.cons_append, ← List.append_assoc]
    exact ⟨_, .ternary hc ht (derives_zero ht.lt_limit)⟩
  | colon hc ht _ =>
    refine ⟨_, spelled_colon_zero, ?_⟩
    rw [List.append_assoc, List.cons_append]
    exact ⟨_, .ternary hc ht (derives_zero ht.lt_limit)⟩
  | whenFalse hc ht _ ih =>
    refine (ih ho).map fun ns ⟨f, hf⟩ => ?_
    rw [List.append_assoc, List.cons_append, List.append_assoc, List.cons_append]
    exact ⟨_, .ternary hc ht hf⟩
  | first hlevel _ ih => exact (ih ho).map fun _ ⟨e, hd⟩ => ⟨e, .chain (.first hlevel hd)⟩
  | tightest hlevel _ ih => exact (ih ho).map fun _ ⟨e, hd⟩ => ⟨e, .tightest hlevel hd⟩
  | right hd hop hle _ ih =>
    refine (ih ho).map fun ns ⟨r, hr⟩ => ?_
    rw [List.append_assoc, List.cons_append]
    exact ⟨_, .chain (.next hd hop hle hr)⟩
  | unary hop hlt _ ih => exact (ih ho).map fun _ ⟨_, he⟩ => ⟨_, .unary hop hlt he⟩
  | primary _ ih => exact (ih ho).map fun _ ⟨e, hd⟩ => ⟨e, .primary hd⟩
  | expression => exact ⟨[.number 0], List.forall_mem_singleton.2 spelled_zero, _, .number 0⟩
  | inner _ ih =>
    refine (ih ho).append spelled_closeParen fun ns ⟨e, hd⟩ => ?_
    rw [List.cons_append, ← List.append_assoc]
    exact ⟨e, .group hd⟩
  | closeParen hd _ => exact ⟨_, spelled_closeParen, _, .group hd⟩

theorem StuckWhole.completes (h : StuckWhole limit next ls o) (ho : o ≠ .tooDeep) :
    Completes (IsPhrase limit .assignment 0) ls := by
  cases h with
  | inside hs => exact hs.completes ho
  | separator hd => exact completes_of ⟨_, hd⟩

theorem StuckDeclarator.completes (h : StuckDeclarator limit next ls o) (ho : o ≠ .tooDeep) :
    Completes (fun ls => ∃ es, DerivesDeclarator limit noSlot ls es) ls := by
  cases h with
  | name =>
    have hn : (Lexeme.name "n").Spelled := isName_of_mem_reservedNames List.mem_cons_self
    exact ⟨[.name "n"], List.forall_mem_singleton.2 hn, _, .bare "n"⟩
  | separator => exact completes_of ⟨_, .bare _⟩
  | value hw => exact (hw.completes ho).map fun _ ⟨_, he⟩ => ⟨_, .initialised he⟩

theorem StuckSeparated.completes {separator : Mark} {Part : List Lexeme → List Expr → Prop}
    {StuckPart : Option Lexeme → List Lexeme → Obstacle → Prop}
    (hpart : ∀ {next ls}, StuckPart next ls o → Completes (fun ls => ∃ es, Part ls es) ls)
    (h : StuckSeparated separator Part StuckPart next ls o) :
    Completes (fun ls => ∃ es, Separated separator Part ls es) ls := by
  induction h with
  | first hs => exact (hpart hs).map fun _ ⟨es, hp⟩ => ⟨es, .last hp⟩
  | later hp _ ih =>
    refine (ih hpart).map fun ns ⟨fs, hfs⟩ => ?_
    rw [List.append_assoc, List.cons_append]
    exact ⟨_, .more hp hfs⟩

theorem StuckStatement.completes (h : StuckStatement limit next ls o) (ho : o ≠ .tooDeep) :
    Completes (fun ls => ∃ es, DerivesClause limit noSlot ls es) ls := by
  cases h with
  | declaration hd =>
    have hdeclarators := hd.completes fun hs => hs.completes ho
    exact hdeclarators.map fun _ ⟨es, hp⟩ => ⟨es, .inr (.declaration hp)⟩
  | expression _ hw =>
    exact (hw.completes ho).map fun _ ⟨e, he⟩ => ⟨[e], .inr (.expression he)⟩

theorem StuckProgram.completes (h : StuckProgram limit next ls o) (ho : o ≠ .tooDeep) :
    Completes (IsProgram limit) ls :=
  StuckSeparated.completes (fun hs => hs.completes ho) h

theorem eq_of_nextIn {separator : Mark} {l : Lexeme} (h : nextIn separator next = some l) :
    next = some l := by
  unfold nextIn at h
  split at h
  · cases h
  · exact h

theorem StuckSeparated.exists_part {separator : Mark} {Part : List Lexeme → List Expr → Prop}
    {StuckPart : Option Lexeme → List Lexeme → Obstacle → Prop}
    (h : StuckSeparated separator Part StuckPart next ls o) :
    ∃ ms, StuckPart (nextIn separator next) ms o := by
  induction h with
  | first hs => exact ⟨_, hs⟩
  | later _ _ ih => exact ih

theorem StuckWhole.next_eq_assign (h : StuckWhole limit next ls .invalidTarget) :
    next = some (.sign .assign) := by
  cases h with
  | inside hs => exact hs.next_eq_assign rfl

theorem StuckProgram.next_eq_assign (h : StuckProgram limit next ls .invalidTarget) :
    next = some (.sign .assign) := by
  obtain ⟨ms, hs⟩ := h.exists_part
  have hnext : nextIn .semicolon next = some (.sign .assign) := by
    cases hs with
    | declaration hd =>
      obtain ⟨ns, hp⟩ := hd.exists_part
      cases hp with
      | value hw => exact eq_of_nextIn hw.next_eq_assign
    | expression _ hw => exact hw.next_eq_assign
  exact eq_of_nextIn hnext

end

/-! ### Faults -/

section
variable {limit : Nat} {next : Option Lexeme} {ls : List Lexeme} {o : Obstacle}

theorem isFault_of_inExpression (h : ∀ l ∈ ls, l.inExpression = true) :
    ∀ l ∈ ls, l.isFault = false := by
  intro l hl
  have hin := h l hl
  cases l with
  | fault f => cases hin
  | mark | name | keyword | sign | number => rfl

theorem isFault_mark (m : Mark) : (Lexeme.mark m).isFault = false :=
  rfl

theorem DerivesClause.not_fault {slotOf : String → Nat} {es : List Expr}
    (h : DerivesClause limit slotOf ls es) : ∀ l ∈ ls, l.isFault = false := by
  rcases h with ⟨rfl, -⟩ | hs
  · exact fun _ h => nomatch h
  · cases hs with
    | declaration hd =>
      refine List.forall_mem_cons.2 ⟨rfl, hd.forall_mem (fun ls es hp => ?_) (isFault_mark _)⟩
      exact isFault_of_inExpression hp.inExpression
    | expression he => exact isFault_of_inExpression he.inExpression

theorem StuckStatement.not_fault (h : StuckStatement limit next ls o) :
    ∀ l ∈ ls, l.isFault = false := by
  cases h with
  | declaration hd =>
    refine List.forall_mem_cons.2 ⟨rfl, hd.forall_mem ?_ ?_ (isFault_mark _)⟩
    · exact fun hp => isFault_of_inExpression hp.inExpression
    · exact fun hs => isFault_of_inExpression hs.inExpression
  | expression _ hw => exact isFault_of_inExpression hw.inExpression

theorem IsProgram.not_fault (h : IsProgram limit ls) : ∀ l ∈ ls, l.isFault = false := by
  obtain ⟨es, h⟩ := h
  exact h.forall_mem (fun _ _ hc => hc.not_fault) (isFault_mark _)

theorem StuckProgram.not_fault (h : StuckProgram limit next ls o) :
    ∀ l ∈ ls, l.isFault = false :=
  StuckSeparated.forall_mem (fun hc => hc.not_fault) (fun hs => hs.not_fault) (isFault_mark _) h

end

theorem Obstacle.error_of_fault {t : Token} {f : LexicalFault} (ht : t.lexeme = .fault f)
    (w : Wanted) : (wanted w).error (.token t) = ⟨.lexical f, t.start⟩ := by
  unfold error ParseState.unexpected
  dsimp only
  rw [ht]

/-! ### Texts and their beginnings -/

section
variable {source : String} {before after : List Char} {used rest ts us : List Token} {t : Token}

theorem start_lt_of_mem_scan (h : t ∈ scan source) : t.start < source.utf8ByteSize := by
  have hlt := (start_of_mem_scanFrom h).2
  rwa [Nat.zero_add, utf8Length_toList] at hlt

/-- The tokens before a token are those of the text before it. -/
theorem scanFrom_before (hsource : source.toList = before ++ after)
    (hscan : scan source = used ++ t :: rest) (hstart : t.start = utf8Length before) :
    scanFrom 0 before = used ∧ ¬ Faulty used := by
  have ht : t ∈ scanFrom 0 (before ++ after) := by
    rw [← hsource, ← scan, hscan]
    exact List.mem_append_right _ List.mem_cons_self
  obtain ⟨hcut, hok⟩ := scanFrom_append_of_start ht (by rw [hstart, Nat.zero_add])
  rw [← hsource, ← scan, Nat.zero_add] at hcut
  -- of the tokens of the second part, `t` is the first
  have hmem : t ∈ scanFrom (utf8Length before) after := by
    rw [← hsource, ← scan, hcut] at ht
    rcases List.mem_append.1 ht with ht | ht
    · have hlt := (start_of_mem_scanFrom ht).2
      omega
    · exact ht
  obtain ⟨vs, ws, hvs⟩ := List.append_of_mem hmem
  have hnil : vs = [] := by
    refine List.eq_nil_iff_forall_not_mem.2 fun v hv => ?_
    have hle := (start_of_mem_scanFrom (hvs ▸ List.mem_append_left _ hv)).1
    have hpair := pairwise_start (utf8Length before) after
    rw [hvs] at hpair
    have hlt := (List.pairwise_append.1 hpair).2.2 v hv t List.mem_cons_self
    omega
  rw [hvs, hnil, List.nil_append] at hcut
  have hpair := pairwise_start 0 source.toList
  rw [← scan, hscan] at hpair
  obtain ⟨rfl, -⟩ := split_eq_of_start hpair (hscan.symm.trans hcut) rfl
  exact ⟨rfl, hok⟩

/-- The tokens that come before `rest` are those of the text before it. -/
theorem scan_before (hsource : source.toList = before ++ after) (hscan : scan source = used ++ rest)
    (hlength : utf8Length before = ((Stop.endOfText source.utf8ByteSize).ahead rest).offset) :
    scan (String.ofList before) = used := by
  rw [scan, String.toList_ofList]
  cases rest with
  | nil =>
    replace hlength : utf8Length before = source.utf8ByteSize := hlength
    rw [← utf8Length_toList, hsource, utf8Length_append] at hlength
    have hafter : after = [] := by
      cases after with
      | nil => rfl
      | cons c cs =>
        have hpos := utf8Length_pos (List.cons_ne_nil c cs)
        omega
    rw [hafter, List.append_nil] at hsource
    rw [← hsource, ← scan, hscan, List.append_nil]
  | cons t ts => exact (scanFrom_before hsource hscan hlength.symm).1

/-- What begins with the token at the place where `rest` begins is `rest`. -/
theorem split_eq_of_offset (hsplit : scan source = ts ++ t :: us)
    (hscan : scan source = used ++ rest)
    (hstart : t.start = ((Stop.endOfText source.utf8ByteSize).ahead rest).offset) :
    ts = used ∧ t :: us = rest := by
  cases rest with
  | nil =>
    have hlt : t.start < source.utf8ByteSize := by
      refine start_lt_of_mem_scan ?_
      rw [hsplit]
      exact List.mem_append_right _ List.mem_cons_self
    exact absurd hstart (Nat.ne_of_lt hlt)
  | cons u vs =>
    have hpair := pairwise_start 0 source.toList
    rw [← scan, hsplit] at hpair
    have hsame := hsplit.symm.trans hscan
    obtain ⟨rfl, -⟩ := split_eq_of_start hpair hsame hstart
    exact ⟨rfl, List.append_cancel_left hsame⟩

/-- The program that a text begins is completed by the text of the lexemes that are missing. -/
theorem exists_parse_of_completes {text : String}
    (hok : ¬ Faulty (scan text)) (h : Completes (IsProgram maxNesting) (lexemes (scan text))) :
    ∃ more p, Program.parse (text ++ more) = .ok p := by
  obtain ⟨ms, hms, hprogram⟩ := h
  refine ⟨" " ++ spelledOut ms, parseTokens_isOk_iff.2 ?_⟩
  have hlexemes : lexemes (scan (text ++ (" " ++ spelledOut ms))) = lexemes (scan text) ++ ms := by
    have htext : (text ++ (" " ++ spelledOut ms)).toList =
        text.toList ++ ' ' :: (spelledOut ms).toList := by
      rw [String.toList_append, String.toList_append]
      rfl
    have hmore : lex (' ' :: (spelledOut ms).toList) = ms :=
      (lex_blank rfl _).trans (lexemes_scan_spelledOut hms)
    rw [scan, htext, scanFrom_append (inert_blank _) hok, lexemes_append,
      lexemes_scanFrom _ (_ :: _), hmore]
    rfl
  rw [hlexemes]
  exact hprogram

end

end Phrasebook.Plural

/-! ### Rules -/

namespace Phrasebook.PluralRule

open Plural

/-- Some text behind it makes a header that compiles. -/
def Viable (text : String) : Prop :=
  ∃ more rule, compile (text ++ more) = .ok rule

/-- Every header is refused at the byte position `offset` that begins with the lexemes of `before`
and then has the one of `t` in the same place. -/
def RefusedAfter (before : List Token) (t : Token) (offset : Nat) : Prop :=
  ∀ source before' t' after, scan source = before' ++ t' :: after →
    lexemes before' = lexemes before → t'.lexeme = t.lexeme → t'.start = t.start →
    ∃ e, compile source = .error e ∧ e.error.offset = offset

section
variable {source : String} {used rest : List Token} {o : Obstacle} {e : ParseError}

theorem refusedAfter_of_stuck {t : Token}
    (h : StuckProgram maxNesting (some t.lexeme) (lexemes used) o) :
    RefusedAfter used t t.start := by
  intro source before t' after hscan hbefore ht hstart
  have hsticks : Sticks (.endOfText source.utf8ByteSize) (StuckProgram maxNesting) (scan source)
      (o.error (.token t')) := by
    refine ⟨before, t' :: after, o, hscan, ?_, rfl⟩
    rw [hbefore, lexemes_cons, ht]
    exact h
  refine ⟨⟨source, o.error (.token t')⟩, ?_, ?_⟩
  · rw [compile, show Program.parse source = _ from parseTokens_eq_error_iff.2 hsticks]
  · exact (o.offset_error _).trans hstart

theorem lexical_of_stuck {t : Token} {f : LexicalFault} (ht : t.lexeme = .fault f)
    (h : StuckProgram maxNesting (some t.lexeme) (lexemes used) o)
    (hcause : (o.error (.token t)).cause ≠ .tooDeep) :
    (o.error (.token t)).cause = .lexical f := by
  cases o with
  | tooDeep => exact absurd rfl hcause
  | invalidTarget =>
    rw [ht] at h
    cases h.next_eq_assign
  | wanted w => rw [Obstacle.error_of_fault ht]

theorem viable_of_stuck {before after : List Char} (hscan : scan source = used ++ rest)
    (hsource : source.toList = before ++ after)
    (hlength : utf8Length before = ((Stop.endOfText source.utf8ByteSize).ahead rest).offset)
    (h : StuckProgram maxNesting (lexemes rest).head? (lexemes used) o) (ho : o ≠ .tooDeep) :
    Viable (String.ofList before) := by
  have hcompletes := h.completes ho
  have hused := scan_before hsource hscan hlength
  have hok : ¬ Faulty used := by
    obtain ⟨ms, -, hprogram⟩ := hcompletes
    rintro ⟨t, ht, hfault⟩
    have hmem : t.lexeme ∈ lexemes used := List.mem_map_of_mem ht
    rw [hprogram.not_fault _ (List.mem_append_left ms hmem)] at hfault
    cases hfault
  obtain ⟨more, p, hp⟩ : ∃ more p, Program.parse (String.ofList before ++ more) = .ok p := by
    refine exists_parse_of_completes ?_ ?_
    · rwa [hused]
    · rwa [hused]
  exact ⟨more, _, compile_of_parse hp⟩

end

/-- A header with a fault is refused.  Every refusal is at the first token that no header begins
like, or at the end of the text: what comes later does not matter, what comes before may be the
beginning of a header that compiles, unless the nesting was at its limit, and a fault in this place
is what the message tells of. -/
theorem compile_refuses_at_first_impossible_token (source : String) :
    match compile source with
    | .ok _ => ∀ t ∈ scan source, t.lexeme.isFault = false
    | .error e =>
        ((∃ t ∈ scan source, t.start = e.error.offset) ∨
          e.error.offset = source.utf8ByteSize) ∧
        (∀ before t after, scan source = before ++ t :: after → t.start = e.error.offset →
          RefusedAfter before t e.error.offset ∧
          ∀ f, t.lexeme = .fault f → e.error.cause ≠ .tooDeep →
            e.error.cause = .lexical f ∧ e.error.cause.message = f.message) ∧
        ∃ before after, source = before ++ after ∧ before.utf8ByteSize = e.error.offset ∧
          (e.error.cause ≠ .tooDeep → Viable before) := by
  cases hcompile : compile source with
  | ok rule =>
    obtain ⟨hparse, -⟩ := compile_eq_ok hcompile
    have hprogram := parseTokens_isOk_iff.1 ⟨_, hparse⟩
    exact fun t ht => hprogram.not_fault _ (List.mem_map_of_mem ht)
  | error e =>
    obtain ⟨-, hparse⟩ := compile_eq_error hcompile
    obtain ⟨used, rest, o, hscan, hstuck, herror⟩ := parseTokens_eq_error_iff.1 hparse
    have hoffset : e.error.offset = ((Stop.endOfText source.utf8ByteSize).ahead rest).offset :=
      herror ▸ o.offset_error _
    refine ⟨?_, ?_, ?_⟩
    · cases rest with
      | nil => exact .inr hoffset
      | cons t ts =>
        refine .inl ⟨t, ?_, hoffset.symm⟩
        rw [hscan]
        exact List.mem_append_right _ List.mem_cons_self
    · intro before t after hsplit hstart
      obtain ⟨rfl, rfl⟩ := split_eq_of_offset hsplit hscan (hstart.trans hoffset)
      refine ⟨hstart ▸ refusedAfter_of_stuck hstuck, fun f hf hcause => ?_⟩
      have hlexical : e.error.cause = .lexical f := by
        rw [herror] at hcause ⊢
        exact lexical_of_stuck hf hstuck hcause
      exact ⟨hlexical, hlexical ▸ rfl⟩
    · obtain ⟨before, after, hsource, hlength⟩ := Program.standsAt_of_parse_error hparse
      generalize e.error.cause.quoted.toList ++ after = behind at hsource
      refine ⟨String.ofList before, String.ofList behind, ?_, ?_, fun hcause => ?_⟩
      · rw [← String.ofList_append, ← hsource, String.ofList_toList]
      · rw [← utf8Length_eq_utf8ByteSize, hlength]
      · refine viable_of_stuck hscan hsource (hlength.trans hoffset) hstuck fun ho => hcause ?_
        rw [herror, ho]
        rfl

end Phrasebook.PluralRule
