import Phrasebook.Proofs.Plural.Completeness
import Phrasebook.Proofs.Plural.Spelling

/-!
# Programs that are accepted

The parser accepts the token lists that the grammar derives, and gives the statements and names of
the derivation.  What expressions need is known from the readers; here clauses are put together
(`DerivesClause`, `derivesProgram_iff`), for what the parser takes (`parseTokens_reads`) and for
what it should take (`parseTokens_yields`).
-/

namespace Phrasebook.Plural

/-! ### Marks and words outside expressions -/

/-- A lexeme that may stand inside an expression. -/
def Inner (l : Lexeme) : Prop :=
  l ≠ .mark .semicolon ∧ l ≠ .mark .comma ∧ ∀ word, l ≠ .keyword word

theorem inner_sign (s : Sign) : Inner (.sign s) :=
  ⟨fun h => (nomatch h), fun h => (nomatch h), fun _ h => (nomatch h)⟩

theorem Derives.ne_nil {limit depth : Nat} {slotOf : String → Nat} {phrase : Phrase}
    {ls : List Lexeme} {e : Expr} (h : Derives limit slotOf phrase depth ls e) : ls ≠ [] := by
  induction h with
  | value _ _ ih | condition _ ih | chain _ ih | tightest _ _ ih | first _ _ ih
  | primary _ ih => exact ih
  | assign | ternary | next => exact List.append_ne_nil_of_right_ne_nil _ (List.cons_ne_nil _ _)
  | unary | number | name | group => exact List.cons_ne_nil _ _

theorem Derives.inner {limit depth : Nat} {slotOf : String → Nat} {phrase : Phrase}
    {ls : List Lexeme} {e : Expr} (h : Derives limit slotOf phrase depth ls e) :
    ∀ l ∈ ls, Inner l := by
  induction h with
  | value _ _ ih | condition _ ih | chain _ ih | tightest _ _ ih | first _ _ ih
  | primary _ ih => exact ih
  | assign _ _ _ ihl ihr | next _ _ _ _ ihl ihr =>
    rw [List.forall_mem_append, List.forall_mem_cons]
    exact ⟨ihl, inner_sign _, ihr⟩
  | ternary _ _ _ ihc ihl ihr =>
    rw [List.forall_mem_append, List.forall_mem_cons, List.forall_mem_append,
      List.forall_mem_cons]
    exact ⟨ihc, inner_sign _, ihl, by simp [Inner], ihr⟩
  | unary _ _ _ ih =>
    rw [List.forall_mem_cons]
    exact ⟨inner_sign _, ih⟩
  | number v => simp [Inner]
  | name x => simp [Inner]
  | group _ ih =>
    rw [List.forall_mem_cons, List.forall_mem_append]
    exact ⟨by simp [Inner], ih, by simp [Inner]⟩

/-! ### Clauses -/

section
variable {separator : Mark} {last : Stop} {ts us : List Token} {t : Token}

theorem clauses_of_free (h : ∀ t ∈ ts, t.lexeme ≠ .mark separator) :
    clauses separator last ts = [⟨ts, last⟩] := by
  induction ts with
  | nil => rfl
  | cons t ts ih =>
    obtain ⟨ht, hts⟩ := List.forall_mem_cons.1 h
    have := ih hts
    simp only [clauses, List.cons.injEq] at this
    obtain ⟨hfirst, hothers⟩ := this
    simp only [clauses, splitClauses, hfirst, hothers, if_neg ht]

theorem clauses_append_cons (h : ∀ t ∈ ts, t.lexeme ≠ .mark separator)
    (ht : t.lexeme = .mark separator) :
    clauses separator last (ts ++ t :: us) = ⟨ts, .token t⟩ :: clauses separator last us := by
  induction ts with
  | nil => simp only [List.nil_append, clauses, splitClauses, if_pos ht]
  | cons u ts ih =>
    obtain ⟨hu, hts⟩ := List.forall_mem_cons.1 h
    have := ih hts
    simp only [clauses, List.cons.injEq] at this
    obtain ⟨hfirst, hothers⟩ := this
    simp only [List.cons_append, clauses, splitClauses, hfirst, hothers, if_neg hu]

/-- A token list has no separator, or it is cut at its first one. -/
theorem free_or_cut (separator : Mark) (tokens : List Token) :
    (∀ t ∈ tokens, t.lexeme ≠ .mark separator) ∨
      ∃ ts t us, tokens = ts ++ t :: us ∧ (∀ t ∈ ts, t.lexeme ≠ .mark separator) ∧
        t.lexeme = .mark separator := by
  induction tokens with
  | nil => exact .inl fun _ h => nomatch h
  | cons u tokens ih =>
    by_cases hu : u.lexeme = .mark separator
    · exact .inr ⟨[], u, tokens, rfl, fun _ h => (nomatch h), hu⟩
    · rcases ih with hfree | ⟨ts, t, us, rfl, hts, ht⟩
      · exact .inl (List.forall_mem_cons.2 ⟨hu, hfree⟩)
      · exact .inr ⟨u :: ts, t, us, rfl, List.forall_mem_cons.2 ⟨hu, hts⟩, ht⟩

end

/-- Induction on the cuts of a token list. -/
theorem cut_induction (separator : Mark) {motive : List Token → Prop}
    (free : ∀ ts, (∀ t ∈ ts, t.lexeme ≠ .mark separator) → motive ts)
    (cut : ∀ ts t us, (∀ t ∈ ts, t.lexeme ≠ .mark separator) → t.lexeme = .mark separator →
      motive us → motive (ts ++ t :: us)) (tokens : List Token) : motive tokens := by
  induction hn : tokens.length using Nat.strongRecOn generalizing tokens with
  | _ n ih =>
    subst hn
    rcases free_or_cut separator tokens with hfree | ⟨ts, t, us, rfl, hts, ht⟩
    · exact free tokens hfree
    · refine cut ts t us hts ht (ih us.length ?_ us rfl)
      rw [List.length_append, List.length_cons]
      omega

/-! ### From the parser to the grammar -/

/-- The names after the lexemes `ls` have been read, and a part of the grammar that they are. -/
def ReadsAs (Part : (String → Nat) → List Lexeme → List Expr → Prop) (names : List String)
    (ls : List Lexeme) (es : List Expr) (names' : List String) : Prop :=
  names' = addNames names (namesOf ls) ∧ ∀ all, names' <+: all → Part all.idxOf ls es

theorem Reads.whole {limit depth : Nat} {phrase : Phrase} {ts : List Token} {names : List String}
    {e : Expr} {s' : ParseState} (h : Reads limit phrase depth ⟨ts, names⟩ e s')
    (hs : s'.rest = []) :
    s'.names = addNames names (namesOf (lexemes ts)) ∧
      ∀ all, s'.names <+: all → Derives limit all.idxOf phrase depth (lexemes ts) e := by
  obtain ⟨used, hr, hn, hd⟩ := h
  obtain rfl : ts = used := by rw [show ts = _ from hr, hs, List.append_nil]
  exact ⟨hn, hd⟩

theorem finishClause_eq_ok {stop : Stop} {s : ParseState} {names : List String}
    (h : finishClause stop s = .ok names) : s.rest = [] ∧ names = s.names := by
  unfold finishClause at h
  split at h
  · next hs =>
    cases h
    exact ⟨hs, rfl⟩
  · cases h

theorem parseDeclarator_reads {names names' : List String} {clause : Clause} {es : List Expr}
    (h : parseDeclarator names clause = .ok (es, names')) :
    ReadsAs (DerivesDeclarator maxNesting) names (lexemes clause.tokens) es names' := by
  obtain ⟨tokens, stop⟩ := clause
  unfold parseDeclarator at h
  dsimp only at h ⊢
  split at h
  · cases h
  · next t rest =>
    split at h
    · next x hx =>
      rw [ParseState.slot_eq] at h
      dsimp only at h
      split at h
      · cases h
        rw [lexemes_cons, hx]
        exact ⟨rfl, fun all _ => .bare x⟩
      · next u rest =>
        split at h
        · next hu =>
          obtain ⟨⟨value, s⟩, hv, h⟩ := bind_eq_ok.1 h
          obtain ⟨last, hf, h⟩ := bind_eq_ok.1 h
          cases h
          obtain ⟨hrest, rfl⟩ := finishClause_eq_ok hf
          have hreads := parseAssignment_reads (Nat.add_zero maxNesting) hv
          have hx' : addName names x <+: s.names := hreads.names_isPrefix
          obtain ⟨hnames, hd⟩ := hreads.whole hrest
          rw [lexemes_cons, lexemes_cons, hx, hu]
          refine ⟨hnames, ?_⟩
          intro all ha
          rw [(hx'.trans ha).idxOf_eq_of_mem (mem_addName names x)]
          exact .initialised (hd all ha)
        · cases h
    · cases h

theorem parseAll_cons_eq_ok
    {parse : List String → Clause → Except ParseError (List Expr × List String)}
    {names names' : List String} {c : Clause} {cs : List Clause} {es : List Expr}
    (h : parseAll parse names (c :: cs) = .ok (es, names')) :
    ∃ fs names₁ gs, parse names c = .ok (fs, names₁) ∧
      parseAll parse names₁ cs = .ok (gs, names') ∧ es = fs ++ gs := by
  rw [parseAll] at h
  obtain ⟨⟨fs, names₁⟩, hf, h⟩ := bind_eq_ok.1 h
  obtain ⟨⟨gs, names₂⟩, hg, h⟩ := bind_eq_ok.1 h
  cases h
  exact ⟨fs, names₁, gs, hf, hg, rfl⟩

/-- Clauses that are read as parts make a separated list of parts. -/
theorem parseAll_reads
    {parse : List String → Clause → Except ParseError (List Expr × List String)}
    {Part : (String → Nat) → List Lexeme → List Expr → Prop}
    (hparse : ∀ {names clause es names'}, parse names clause = .ok (es, names') →
      ReadsAs Part names (lexemes clause.tokens) es names')
    (separator : Mark) {last : Stop} (tokens : List Token) {names names' : List String}
    {es : List Expr} (h : parseAll parse names (clauses separator last tokens) = .ok (es, names')) :
    ReadsAs (fun slotOf => Separated separator (Part slotOf)) names (lexemes tokens) es names' := by
  induction tokens using cut_induction separator generalizing names es with
  | free ts hfree =>
    rw [clauses_of_free hfree] at h
    obtain ⟨fs, names₁, gs, hf, hg, rfl⟩ := parseAll_cons_eq_ok h
    cases hg
    obtain ⟨hn, hd⟩ := hparse hf
    rw [List.append_nil]
    exact ⟨hn, fun all ha => .last (hd all ha)⟩
  | cut ts t us hts ht ih =>
    rw [clauses_append_cons hts ht] at h
    obtain ⟨fs, names₁, gs, hf, hg, rfl⟩ := parseAll_cons_eq_ok h
    obtain ⟨hn, hd⟩ := hparse hf
    obtain ⟨hn', hd'⟩ := ih hg
    have hpre : names₁ <+: names' := hn' ▸ prefix_addNames names₁ _
    rw [lexemes_append, lexemes_cons, ht]
    refine ⟨?_, fun all ha => .more (hd all (hpre.trans ha)) (hd' all ha)⟩
    rw [hn', hn, addNames_split rfl]

/-- A clause of a program: nothing, or a statement. -/
def DerivesClause (limit : Nat) (slotOf : String → Nat) (ls : List Lexeme) (es : List Expr) : Prop :=
  ls = [] ∧ es = [] ∨ DerivesStatement limit slotOf ls es

theorem parseClause_reads {names names' : List String} {clause : Clause} {es : List Expr}
    (h : parseClause names clause = .ok (es, names')) :
    ReadsAs (DerivesClause maxNesting) names (lexemes clause.tokens) es names' := by
  obtain ⟨tokens, stop⟩ := clause
  unfold parseClause at h
  dsimp only at h ⊢
  split at h
  · cases h
    exact ⟨rfl, fun all _ => .inl ⟨rfl, rfl⟩⟩
  · next t rest =>
    split at h
    · next word hword =>
      obtain ⟨hn, hd⟩ := parseAll_reads parseDeclarator_reads .comma rest h
      rw [lexemes_cons, hword]
      exact ⟨hn, fun all ha => .inr (.declaration (hd all ha))⟩
    · obtain ⟨⟨e, s⟩, he, h⟩ := bind_eq_ok.1 h
      obtain ⟨last, hf, h⟩ := bind_eq_ok.1 h
      cases h
      obtain ⟨hrest, rfl⟩ := finishClause_eq_ok hf
      obtain ⟨hn, hd⟩ := (parseAssignment_reads (Nat.add_zero maxNesting) he).whole hrest
      exact ⟨hn, fun all ha => .inr (.expression (hd all ha))⟩

/-- A program is the list of its clauses, with `;` between each two. -/
theorem derivesProgram_iff {limit : Nat} {slotOf : String → Nat} {ls : List Lexeme}
    {es : List Expr} :
    DerivesProgram limit slotOf ls es ↔
      Separated .semicolon (DerivesClause limit slotOf) ls es := by
  constructor
  · intro h
    induction h with
    | nil => exact .last (.inl ⟨rfl, rfl⟩)
    | semicolon _ ih => exact .more (.inl ⟨rfl, rfl⟩) ih
    | last hs => exact .last (.inr hs)
    | statement hs _ ih => exact .more (.inr hs) ih
  · intro h
    induction h with
    | last hc =>
      rcases hc with ⟨rfl, rfl⟩ | hs
      · exact .nil
      · exact .last hs
    | more hc _ ih =>
      rcases hc with ⟨rfl, rfl⟩ | hs
      · exact .semicolon ih
      · exact .statement hs ih

theorem parseTokens_reads {length : Nat} {tokens : List Token} {p : Program}
    (h : parseTokens length tokens = .ok p) :
    p.names = slotNames (lexemes tokens) ∧
      DerivesProgram maxNesting p.names.idxOf (lexemes tokens) p.statements := by
  rw [parseTokens] at h
  obtain ⟨⟨es, names⟩, hp, h⟩ := bind_eq_ok.1 h
  cases h
  obtain ⟨hn, hd⟩ := parseAll_reads parseClause_reads .semicolon tokens hp
  exact ⟨hn.trans (slotNames_eq _).symm, derivesProgram_iff.2 (hd names (List.prefix_refl names))⟩

/-! ### From the grammar to the parser -/

theorem Separated.forall_mem {separator : Mark} {Part : List Lexeme → List Expr → Prop}
    {P : Lexeme → Prop} (hpart : ∀ ls es, Part ls es → ∀ l ∈ ls, P l) (hmark : P (.mark separator))
    {ls : List Lexeme} {es : List Expr} (h : Separated separator Part ls es) : ∀ l ∈ ls, P l := by
  induction h with
  | last hp => exact hpart _ _ hp
  | more hp _ ih =>
    rw [List.forall_mem_append, List.forall_mem_cons]
    exact ⟨hpart _ _ hp, hmark, ih⟩

theorem DerivesDeclarator.inner {limit : Nat} {slotOf : String → Nat} {ls : List Lexeme}
    {es : List Expr} (h : DerivesDeclarator limit slotOf ls es) : ∀ l ∈ ls, Inner l := by
  cases h with
  | bare x => simp [Inner]
  | initialised he =>
    rw [List.forall_mem_cons, List.forall_mem_cons]
    exact ⟨by simp [Inner], inner_sign _, he.inner⟩

theorem DerivesClause.no_semicolon {limit : Nat} {slotOf : String → Nat} {ls : List Lexeme}
    {es : List Expr} (h : DerivesClause limit slotOf ls es) : ∀ l ∈ ls, l ≠ .mark .semicolon := by
  rcases h with ⟨rfl, -⟩ | hs
  · exact fun _ h => nomatch h
  · cases hs with
    | declaration hd =>
      refine List.forall_mem_cons.2 ⟨fun h => (nomatch h), ?_⟩
      exact hd.forall_mem (fun _ _ hp l hl => (hp.inner l hl).1) (fun h => nomatch h)
    | expression he =>
      intro l hl
      exact (he.inner l hl).1

section
variable {limit : Nat} {all names : List String} {es : List Expr}

theorem Derives.yields_whole {ts : List Token} {e : Expr} (stop : Stop)
    (h : Derives limit all.idxOf .assignment 0 (lexemes ts) e)
    (ha : addNames names (namesOf (lexemes ts)) <+: all) :
    Yields limit maxNesting (parseAssignment stop maxNesting ⟨ts, names⟩)
      (.ok (e, ⟨[], addNames names (namesOf (lexemes ts))⟩)) := by
  have hwhole : Yields limit maxNesting (parseAssignment stop maxNesting ⟨ts ++ [], names⟩) _ :=
    h.accepts.yields rfl ha (.nil .assignment e) maxNesting
  rw [List.append_nil] at hwhole
  exact hwhole

theorem parseDeclarator_yields {clause : Clause}
    (h : DerivesDeclarator limit all.idxOf (lexemes clause.tokens) es)
    (ha : addNames names (namesOf (lexemes clause.tokens)) <+: all) :
    Yields limit maxNesting (parseDeclarator names clause)
      (.ok (es, addNames names (namesOf (lexemes clause.tokens)))) := by
  obtain ⟨tokens, stop⟩ := clause
  dsimp only at h ha ⊢
  generalize hls : lexemes tokens = ls at h ha ⊢
  cases h with
  | bare x =>
    obtain ⟨t, us, rfl, ht, hus⟩ := lexemes_eq_cons hls
    obtain rfl := List.map_eq_nil_iff.1 hus
    refine .inl ?_
    simp only [parseDeclarator, ht, ParseState.slot_eq]
    rfl
  | @initialised x ms e he =>
    obtain ⟨t, us, rfl, ht, hus⟩ := lexemes_eq_cons hls
    obtain ⟨u, vs, rfl, hu, rfl⟩ := lexemes_eq_cons hus
    have hx : addName names x <+: all := (prefix_addNames _ _).trans ha
    have hvalue := he.yields_whole stop ha
    simp only [parseDeclarator, ht, hu, ParseState.slot_eq, if_true]
    refine hvalue.bind (Nat.le_refl _) (.inl ?_)
    rw [hx.idxOf_eq_of_mem (mem_addName names x)]
    rfl

/-- A separated list of parts is read when its parts are. -/
theorem parseAll_yields {separator : Mark}
    {parse : List String → Clause → Except ParseError (List Expr × List String)}
    {Part : List Lexeme → List Expr → Prop}
    (hfree : ∀ ls es, Part ls es → ∀ l ∈ ls, l ≠ .mark separator)
    (hparse : ∀ {names : List String} {clause : Clause} {es : List Expr},
      Part (lexemes clause.tokens) es → addNames names (namesOf (lexemes clause.tokens)) <+: all →
      Yields limit maxNesting (parse names clause)
        (.ok (es, addNames names (namesOf (lexemes clause.tokens)))))
    {ls : List Lexeme} (h : Separated separator Part ls es) (last : Stop) {tokens : List Token}
    (hls : lexemes tokens = ls) (ha : addNames names (namesOf ls) <+: all) :
    Yields limit maxNesting (parseAll parse names (clauses separator last tokens))
      (.ok (es, addNames names (namesOf ls))) := by
  have free_of_part {ts : List Token} {fs : List Expr} (hp : Part (lexemes ts) fs) :
      ∀ t ∈ ts, t.lexeme ≠ .mark separator :=
    fun t ht => hfree _ _ hp t.lexeme (List.mem_map_of_mem ht)
  induction h generalizing names tokens with
  | @last ls es hp =>
    subst hls
    rw [clauses_of_free (free_of_part hp), parseAll]
    refine (hparse hp ha).bind (Nat.le_refl _) (.inl ?_)
    show Except.ok (es ++ [], _) = _
    rw [List.append_nil]
  | more hp _ ih =>
    obtain ⟨us, t, vs, rfl, rfl, ht, hvs⟩ := lexemes_eq_append_cons hls
    rw [addNames_split rfl] at ha ⊢
    rw [clauses_append_cons (free_of_part hp) ht, parseAll]
    refine (hparse hp ((prefix_addNames _ _).trans ha)).bind (Nat.le_refl _) ?_
    exact (ih hvs ha).bind (Nat.le_refl _) (.inl rfl)

theorem parseClause_yields {clause : Clause}
    (h : DerivesClause limit all.idxOf (lexemes clause.tokens) es)
    (ha : addNames names (namesOf (lexemes clause.tokens)) <+: all) :
    Yields limit maxNesting (parseClause names clause)
      (.ok (es, addNames names (namesOf (lexemes clause.tokens)))) := by
  obtain ⟨tokens, stop⟩ := clause
  dsimp only at h ha ⊢
  rcases h with ⟨hnil, rfl⟩ | hs
  · obtain rfl := List.map_eq_nil_iff.1 hnil
    exact .inl rfl
  · generalize hls : lexemes tokens = ls at hs ha ⊢
    cases hs with
    | declaration hd =>
      obtain ⟨t, us, rfl, ht, hus⟩ := lexemes_eq_cons hls
      simp only [parseClause, ht]
      have hcomma (ls : List Lexeme) (es : List Expr)
          (h : DerivesDeclarator limit all.idxOf ls es) : ∀ l ∈ ls, l ≠ .mark .comma :=
        fun l hl => (h.inner l hl).2.1
      exact parseAll_yields hcomma parseDeclarator_yields hd stop hus ha
    | expression he =>
      subst hls
      obtain ⟨t, us, rfl⟩ : ∃ t us, tokens = t :: us := by
        cases tokens with
        | nil => exact absurd rfl he.ne_nil
        | cons t us => exact ⟨t, us, rfl⟩
      have hword : ∀ word, t.lexeme ≠ .keyword word :=
        (he.inner t.lexeme List.mem_cons_self).2.2
      simp only [parseClause]
      exact (he.yields_whole stop ha).bind (Nat.le_refl _) (.inl rfl)

end

/-- A program that is derived under any limit is read, unless it is nested too deeply. -/
theorem parseTokens_yields {limit length : Nat} {tokens : List Token} {es : List Expr}
    (h : DerivesProgram limit (slotNames (lexemes tokens)).idxOf (lexemes tokens) es) :
    Yields limit maxNesting (parseTokens length tokens)
      (.ok ⟨es, slotNames (lexemes tokens)⟩) := by
  rw [slotNames_eq] at h ⊢
  rw [parseTokens]
  have hall := parseAll_yields (fun _ _ hc => hc.no_semicolon) parseClause_yields
    (derivesProgram_iff.1 h) (.endOfText length) rfl (List.prefix_refl _)
  exact hall.bind (Nat.le_refl _) (.inl rfl)

/-- The parser accepts exactly what the grammar derives, with the trees and names of the
derivation. -/
theorem parseTokens_eq_ok_iff (length : Nat) (tokens : List Token) (statements : List Expr)
    (names : List String) :
    parseTokens length tokens = .ok ⟨statements, names⟩ ↔
      names = slotNames (lexemes tokens) ∧
        DerivesProgram maxNesting names.idxOf (lexemes tokens) statements := by
  constructor
  · exact parseTokens_reads
  · rintro ⟨rfl, h⟩
    exact (parseTokens_yields h).eq

/-- A text is read as the program that its lexemes derive. -/
theorem Program.parse_of_derives {source : String} {ls : List Lexeme} {p : Program}
    (hscan : lexemes (scan source) = ls) (hnames : slotNames ls = p.names)
    (h : DerivesProgram maxNesting p.names.idxOf ls p.statements) :
    Program.parse source = .ok p := by
  rw [← hnames, ← hscan] at h
  have hok : Program.parse source = _ := (parseTokens_yields h).eq
  rw [hok, hscan, hnames]

/-- A program of the grammar is read from the text of its lexemes. -/
theorem Program.parse_spelledOut {ls : List Lexeme} {es : List Expr}
    (hls : ∀ l ∈ ls, l.Spelled) (h : DerivesProgram maxNesting (slotNames ls).idxOf ls es) :
    Program.parse (spelledOut ls) = .ok ⟨es, slotNames ls⟩ :=
  Program.parse_of_derives (lexemes_scan_spelledOut hls) rfl h

end Phrasebook.Plural
