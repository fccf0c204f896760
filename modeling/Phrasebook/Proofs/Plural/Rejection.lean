import Phrasebook.Proofs.Plural.Refusal

/-!
# Programs that are rejected

The grammar says which token lists are programs; here it is said which ones begin like a program
and then go wrong, at which token and for which obstacle (`StuckProgram`, made of `StuckStatement`,
`StuckDeclarator` and `StuckWhole`).  The parser rejects these and no others, with the error of the
obstacle (`parseTokens_eq_error_iff`): a list of clauses is rejected when one of them is and those
before it are read (`parseAll_eq_error_iff`).
-/

namespace Phrasebook.Plural

/-! ### Statements that are stuck -/

/-- Lexemes that begin like an assignment, or are one and should have ended. -/
inductive StuckWhole (limit : Nat) (next : Option Lexeme) : List Lexeme → Obstacle → Prop
  | inside {ls : List Lexeme} {o : Obstacle} : Stuck limit next .assignment 0 ls o →
      StuckWhole limit next ls o
  | separator {ls : List Lexeme} {e : Expr} {l : Lexeme} :
      Derives limit noSlot .assignment 0 ls e → next = some l → ¬ Extends .assignment e l →
      StuckWhole limit next ls (.wanted .separator)

inductive StuckDeclarator (limit : Nat) (next : Option Lexeme) : List Lexeme → Obstacle → Prop
  | name : (∀ x, next ≠ some (.name x)) → StuckDeclarator limit next [] (.wanted .variableName)
  | separator {x : String} {l : Lexeme} : next = some l → l ≠ .sign .assign →
      StuckDeclarator limit next [.name x] (.wanted .separator)
  | value {x : String} {ls : List Lexeme} {o : Obstacle} : StuckWhole limit next ls o →
      StuckDeclarator limit next (.name x :: .sign .assign :: ls) o

/-- What comes next in a part that ends before the separator. -/
def nextIn (separator : Mark) (next : Option Lexeme) : Option Lexeme :=
  if next = some (.mark separator) then none else next

/-- Any number of parts, and then a part that is stuck. -/
inductive StuckSeparated (separator : Mark) (Part : List Lexeme → List Expr → Prop)
    (StuckPart : Option Lexeme → List Lexeme → Obstacle → Prop) (next : Option Lexeme) :
    List Lexeme → Obstacle → Prop
  | first {ls : List Lexeme} {o : Obstacle} : StuckPart (nextIn separator next) ls o →
      StuckSeparated separator Part StuckPart next ls o
  | later {ls ms : List Lexeme} {es : List Expr} {o : Obstacle} : Part ls es →
      StuckSeparated separator Part StuckPart next ms o →
      StuckSeparated separator Part StuckPart next (ls ++ .mark separator :: ms) o

inductive StuckStatement (limit : Nat) (next : Option Lexeme) : List Lexeme → Obstacle → Prop
  | declaration {word : String} {ls : List Lexeme} {o : Obstacle} :
      StuckSeparated .comma (DerivesDeclarator limit noSlot) (StuckDeclarator limit) next ls o →
      StuckStatement limit next (.keyword word :: ls) o
  | expression {ls : List Lexeme} {o : Obstacle} :
      (ls = [] → ∃ l, next = some l ∧ ∀ word, l ≠ .keyword word) →
      StuckWhole limit next ls o → StuckStatement limit next ls o

/-- Lexemes that begin like a program, which does not go on with `next`. -/
def StuckProgram (limit : Nat) : Option Lexeme → List Lexeme → Obstacle → Prop :=
  StuckSeparated .semicolon (DerivesClause limit noSlot) (StuckStatement limit)

/-! ### Statements without slots -/

section
variable {limit : Nat} {slotOf : String → Nat} {ls : List Lexeme} {es : List Expr}

theorem DerivesDeclarator.reslot (h : DerivesDeclarator limit slotOf ls es)
    (slotOf' : String → Nat) : ∃ es', DerivesDeclarator limit slotOf' ls es' := by
  cases h with
  | bare x => exact ⟨[], .bare x⟩
  | initialised he =>
    obtain ⟨e', he', -⟩ := he.reslot slotOf'
    exact ⟨_, .initialised he'⟩

theorem Separated.reslot {separator : Mark} {Part Part' : List Lexeme → List Expr → Prop}
    (hpart : ∀ {ls es}, Part ls es → ∃ es', Part' ls es') (h : Separated separator Part ls es) :
    ∃ es', Separated separator Part' ls es' := by
  induction h with
  | last hp =>
    obtain ⟨es', hp'⟩ := hpart hp
    exact ⟨es', .last hp'⟩
  | more hp _ ih =>
    obtain ⟨es', hp'⟩ := hpart hp
    obtain ⟨fs', hmore⟩ := ih
    exact ⟨es' ++ fs', .more hp' hmore⟩

theorem DerivesClause.reslot (h : DerivesClause limit slotOf ls es) (slotOf' : String → Nat) :
    ∃ es', DerivesClause limit slotOf' ls es' := by
  rcases h with ⟨rfl, -⟩ | hs
  · exact ⟨[], .inl ⟨rfl, rfl⟩⟩
  · cases hs with
    | declaration hd =>
      obtain ⟨es', hd'⟩ := hd.reslot fun h => h.reslot slotOf'
      exact ⟨es', .inr (.declaration hd')⟩
    | expression he =>
      obtain ⟨e', he', -⟩ := he.reslot slotOf'
      exact ⟨[e'], .inr (.expression he')⟩

end

/-- Whether the part is read does not depend on the names before it. -/
def ReadIff (parse : List String → Clause → Except ParseError (List Expr × List String))
    (Part : List Lexeme → List Expr → Prop) : Prop :=
  ∀ names clause, (∃ r, parse names clause = .ok r) ↔ ∃ es, Part (lexemes clause.tokens) es

theorem parseDeclarator_readIff :
    ReadIff parseDeclarator (DerivesDeclarator maxNesting noSlot) := by
  intro names clause
  constructor
  · rintro ⟨⟨es, names'⟩, h⟩
    obtain ⟨-, hd⟩ := parseDeclarator_reads h
    exact (hd names' (List.prefix_refl _)).reslot noSlot
  · rintro ⟨es, h⟩
    obtain ⟨es', hd⟩ := h.reslot (addNames names (namesOf (lexemes clause.tokens))).idxOf
    exact ⟨_, (parseDeclarator_yields hd (List.prefix_refl _)).eq⟩

theorem parseClause_readIff : ReadIff parseClause (DerivesClause maxNesting noSlot) := by
  intro names clause
  constructor
  · rintro ⟨⟨es, names'⟩, h⟩
    obtain ⟨-, hd⟩ := parseClause_reads h
    exact (hd names' (List.prefix_refl _)).reslot noSlot
  · rintro ⟨es, h⟩
    obtain ⟨es', hd⟩ := h.reslot (addNames names (namesOf (lexemes clause.tokens))).idxOf
    exact ⟨_, (parseClause_yields hd (List.prefix_refl _)).eq⟩

/-! ### Lexemes before an obstacle -/

section
variable {limit : Nat} {next : Option Lexeme} {ls : List Lexeme} {o : Obstacle}

theorem StuckWhole.inExpression (h : StuckWhole limit next ls o) :
    ∀ l ∈ ls, l.inExpression = true := by
  cases h with
  | inside hs => exact hs.inExpression
  | separator hd => exact hd.inExpression

theorem StuckDeclarator.inExpression (h : StuckDeclarator limit next ls o) :
    ∀ l ∈ ls, l.inExpression = true := by
  cases h with
  | name => exact fun _ h => nomatch h
  | separator => exact List.forall_mem_singleton.2 rfl
  | value hw => exact List.forall_mem_cons.2 ⟨rfl, List.forall_mem_cons.2 ⟨rfl, hw.inExpression⟩⟩

theorem DerivesDeclarator.inExpression {slotOf : String → Nat} {es : List Expr}
    (h : DerivesDeclarator limit slotOf ls es) : ∀ l ∈ ls, l.inExpression = true := by
  cases h with
  | bare => exact List.forall_mem_singleton.2 rfl
  | initialised he =>
    exact List.forall_mem_cons.2 ⟨rfl, List.forall_mem_cons.2 ⟨rfl, he.inExpression⟩⟩

theorem StuckSeparated.forall_mem {separator : Mark} {Part : List Lexeme → List Expr → Prop}
    {StuckPart : Option Lexeme → List Lexeme → Obstacle → Prop} {P : Lexeme → Prop}
    (hpart : ∀ {ls es}, Part ls es → ∀ l ∈ ls, P l)
    (hstuck : ∀ {next ls o}, StuckPart next ls o → ∀ l ∈ ls, P l) (hmark : P (.mark separator))
    (h : StuckSeparated separator Part StuckPart next ls o) : ∀ l ∈ ls, P l := by
  induction h with
  | first hs => exact hstuck hs
  | later hp _ ih =>
    rw [List.forall_mem_append, List.forall_mem_cons]
    exact ⟨hpart hp, hmark, ih⟩

end

/-! ### Wholes and declarators -/

section
variable {stop : Stop} {s : ParseState} {names : List String} {err : ParseError}

theorem finishClause_cons {t : Token} {ts : List Token} (hs : s.rest = t :: ts) :
    finishClause stop s = .error ((Obstacle.wanted .separator).error (stop.ahead s.rest)) := by
  rw [← s.unexpected_eq, finishClause]
  rw [hs]

/-- An assignment that must fill the rest of a clause. -/
theorem whole_sticks {α : Type} {f : Expr × ParseState → List String → α}
    (h : (parseAssignment stop maxNesting s >>= fun r =>
      finishClause stop r.2 >>= fun names => pure (f r names)) = .error err) :
    Sticks stop (StuckWhole maxNesting) s.rest err := by
  rcases bind_eq_error.1 h with hv | ⟨⟨e, s₁⟩, hv, h⟩
  · exact (parseAssignment_sticks (Nat.add_zero _) hv).map .inside
  rcases bind_eq_error.1 h with hf | ⟨names, -, h⟩
  · obtain ⟨used, e', hrest, hd, -⟩ :=
      (parseAssignment_reads (Nat.add_zero maxNesting) hv).derives_noSlot
    have hends := parseAssignment_ends hv
    dsimp only at hf
    cases hs : s₁.rest with
    | nil =>
      rw [finishClause, hs] at hf
      cases hf
    | cons t ts =>
      rw [finishClause_cons hs] at hf
      cases hf
      refine .after used hrest ?_
      rw [hs]
      exact .separator hd rfl (hends t ts hs)
  · cases h

theorem whole_of_sticks {α : Type} {f : Expr × ParseState → List String → α}
    (h : Sticks stop (StuckWhole maxNesting) s.rest err) :
    (parseAssignment stop maxNesting s >>= fun r =>
      finishClause stop r.2 >>= fun names => pure (f r names)) = .error err := by
  obtain ⟨used, rest, o, hs, hw, rfl⟩ := h
  obtain ⟨ts, names⟩ := s
  obtain rfl : ts = used ++ rest := hs
  cases hw with
  | inside hstuck =>
    have hread : parseAssignment stop maxNesting _ = _ :=
      hstuck.refuses stop maxNesting names used rest rfl rfl rfl
    rw [hread]
    rfl
  | @separator e l hd hl hends =>
    have hend : Ends .assignment e rest := by
      refine .of_head? fun l' hl' => ?_
      cases hl.symm.trans hl'
      exact hends
    obtain ⟨e', names', -, hread, -⟩ :=
      hd.reads_noSlot stop names (Nat.add_zero maxNesting) rfl hend
    replace hread : parseAssignment stop maxNesting _ = .ok (e', ⟨rest, names'⟩) := hread
    obtain ⟨t, us, rfl, -⟩ := lexemes_eq_of_head? hl
    have hfinish : finishClause stop ⟨t :: us, names'⟩ = _ := finishClause_cons rfl
    rw [hread]
    exact congrArg (· >>= fun names => pure (f (e', ⟨t :: us, names'⟩) names)) hfinish

theorem parseDeclarator_sticks {clause : Clause} (h : parseDeclarator names clause = .error err) :
    Sticks clause.stop (StuckDeclarator maxNesting) clause.tokens err := by
  obtain ⟨tokens, stop⟩ := clause
  unfold parseDeclarator at h
  dsimp only at h ⊢
  split at h
  · rw [ParseState.unexpected_eq] at h
    cases h
    refine .here (.name fun x hx => ?_)
    cases hx
  · next t rest =>
    split at h
    · next x hx =>
      rw [ParseState.slot_eq] at h
      dsimp only at h
      split at h
      · cases h
      · next u rest =>
        split at h
        · next hu =>
          refine (whole_sticks h).behind [t, u] rfl fun hw => ?_
          rw [lexemes_cons, lexemes_cons, hx, hu]
          exact .value hw
        · next hu =>
          rw [ParseState.unexpected_eq] at h
          cases h
          refine .after [t] rfl ?_
          show StuckDeclarator maxNesting _ [t.lexeme] _
          rw [hx]
          exact .separator rfl hu
    · next hname =>
      rw [ParseState.unexpected_eq] at h
      cases h
      exact .here (.name fun x hx => hname x (Option.some.inj hx))

theorem parseDeclarator_of_sticks {clause : Clause}
    (h : Sticks clause.stop (StuckDeclarator maxNesting) clause.tokens err) :
    parseDeclarator names clause = .error err := by
  obtain ⟨tokens, stop⟩ := clause
  obtain ⟨used, rest, o, htokens, hd, rfl⟩ := h
  obtain rfl : tokens = used ++ rest := htokens
  generalize hls : lexemes used = ls at hd
  cases hd with
  | name hnext =>
    obtain rfl := List.map_eq_nil_iff.1 hls
    rw [List.nil_append, parseDeclarator]
    dsimp only
    cases rest with
    | nil => exact congrArg Except.error (ParseState.unexpected_eq stop ⟨[], names⟩ _)
    | cons t ts =>
      dsimp only
      split
      · next x hx => exact absurd (congrArg some hx) (hnext x)
      · exact congrArg Except.error (ParseState.unexpected_eq stop ⟨t :: ts, names⟩ _)
  | @separator x l hl hne =>
    obtain ⟨t, us, rfl, ht, hus⟩ := lexemes_eq_cons hls
    obtain rfl := List.map_eq_nil_iff.1 hus
    obtain ⟨u, vs, rfl, rfl⟩ := lexemes_eq_of_head? hl
    simp only [parseDeclarator, List.cons_append, List.nil_append, ht, ParseState.slot_eq]
    rw [if_neg hne]
    exact congrArg Except.error (ParseState.unexpected_eq stop ⟨u :: vs, addName names x⟩ _)
  | @value x ms _ hw =>
    obtain ⟨t, us, rfl, ht, hus⟩ := lexemes_eq_cons hls
    obtain ⟨u, vs, rfl, hu, rfl⟩ := lexemes_eq_cons hus
    simp only [parseDeclarator, List.cons_append, ht, hu, ParseState.slot_eq, if_true]
    exact whole_of_sticks ⟨vs, rest, o, rfl, hw, rfl⟩

theorem parseDeclarator_eq_error_iff {clause : Clause} :
    parseDeclarator names clause = .error err ↔
      Sticks clause.stop (StuckDeclarator maxNesting) clause.tokens err :=
  ⟨parseDeclarator_sticks, parseDeclarator_of_sticks⟩

end

/-! ### Lists of parts -/

section
variable {separator : Mark} {next : Option Lexeme} {last : Stop} {ts us rest tokens : List Token}
  {t : Token} {err : ParseError}
  {parse : List String → Clause → Except ParseError (List Expr × List String)}
  {Part : List Lexeme → List Expr → Prop}
  {StuckPart : Option Lexeme → List Lexeme → Obstacle → Prop}

theorem nextIn_of_ne (h : ∀ t ∈ rest, t.lexeme ≠ .mark separator) :
    nextIn separator (lexemes rest).head? = (lexemes rest).head? := by
  refine if_neg fun hnext => ?_
  obtain ⟨t, us, rfl, ht⟩ := lexemes_eq_of_head? hnext
  exact h t List.mem_cons_self ht

theorem nextIn_append_cons (h : ∀ t ∈ rest, t.lexeme ≠ .mark separator)
    (ht : t.lexeme = .mark separator) :
    nextIn separator (lexemes (rest ++ t :: us)).head? = (lexemes rest).head? := by
  cases rest with
  | nil => exact if_pos (congrArg some ht)
  | cons u vs => exact if_neg fun hnext => h u List.mem_cons_self (Option.some.inj hnext)

theorem Stop.ahead_append_cons (stop : Stop) (rest : List Token) (t : Token) (us : List Token) :
    stop.ahead (rest ++ t :: us) = (Stop.token t).ahead rest := by
  cases rest <;> rfl

theorem parseAll_sticks (hread : ReadIff parse Part)
    (herror : ∀ {names clause err}, parse names clause = .error err →
      Sticks clause.stop StuckPart clause.tokens err) {names : List String}
    (h : parseAll parse names (clauses separator last tokens) = .error err) :
    Sticks last (StuckSeparated separator Part StuckPart) tokens err := by
  induction tokens using cut_induction separator generalizing names with
  | free ts hfree =>
    rw [clauses_of_free hfree, parseAll] at h
    rcases bind_eq_error.1 h with hc | ⟨⟨es, names'⟩, -, h⟩
    · obtain ⟨used, rest, o, rfl, hs, rfl⟩ := herror hc
      refine .after used rfl (.first ?_)
      rw [nextIn_of_ne (List.forall_mem_append.1 hfree).2]
      exact hs
    · cases h
  | cut ts t us hts ht ih =>
    rw [clauses_append_cons hts ht, parseAll] at h
    rcases bind_eq_error.1 h with hc | ⟨⟨es, names'⟩, hc, h⟩
    · obtain ⟨used, rest, o, rfl, hs, rfl⟩ := herror hc
      rw [List.append_assoc]
      refine ⟨used, rest ++ t :: us, o, rfl, .first ?_, ?_⟩
      · rw [nextIn_append_cons (List.forall_mem_append.1 hts).2 ht]
        exact hs
      · rw [last.ahead_append_cons]
    · rcases bind_eq_error.1 h with hcs | ⟨⟨fs, names₂⟩, -, h⟩
      · obtain ⟨es', hp⟩ := (hread names ⟨ts, .token t⟩).1 ⟨_, hc⟩
        refine (ih hcs).behind (ts ++ [t]) (List.append_cons ts t us) fun hs => ?_
        rw [lexemes_append, lexemes_cons, ht, List.append_assoc]
        exact .later hp hs
      · cases h

theorem parseAll_of_sticks (hread : ReadIff parse Part)
    (herror : ∀ {names clause err}, Sticks clause.stop StuckPart clause.tokens err →
      parse names clause = .error err)
    (hpart : ∀ {ls es}, Part ls es → ∀ l ∈ ls, l ≠ .mark separator)
    (hstuck : ∀ {next ls o}, StuckPart next ls o → ∀ l ∈ ls, l ≠ .mark separator)
    {names : List String}
    (h : Sticks last (StuckSeparated separator Part StuckPart) tokens err) :
    parseAll parse names (clauses separator last tokens) = .error err := by
  have free_of {P : Lexeme → Prop} {ts : List Token} (h : ∀ l ∈ lexemes ts, P l) :
      ∀ t ∈ ts, P t.lexeme := fun t ht => h t.lexeme (List.mem_map_of_mem ht)
  obtain ⟨used, rest, o, rfl, hs, rfl⟩ := h
  generalize hls : lexemes used = ls at hs
  induction hs generalizing names used with
  | first hs =>
    subst hls
    have hused := free_of (hstuck hs)
    rcases free_or_cut separator rest with hfree | ⟨more, t, us, rfl, hmore, ht⟩
    · rw [clauses_of_free (List.forall_mem_append.2 ⟨hused, hfree⟩), parseAll]
      rw [nextIn_of_ne hfree] at hs
      rw [herror ⟨used, rest, _, rfl, hs, rfl⟩]
      rfl
    · rw [← List.append_assoc,
        clauses_append_cons (List.forall_mem_append.2 ⟨hused, hmore⟩) ht, parseAll]
      rw [nextIn_append_cons hmore ht] at hs
      rw [herror ⟨used, more, _, rfl, hs, rfl⟩, last.ahead_append_cons]
      rfl
  | later hp _ ih =>
    obtain ⟨us, t, vs, rfl, rfl, ht, hvs⟩ := lexemes_eq_append_cons hls
    rw [List.append_assoc, List.cons_append, clauses_append_cons (free_of (hpart hp)) ht,
      parseAll]
    obtain ⟨⟨es, names'⟩, hc⟩ := (hread names ⟨us, .token t⟩).2 ⟨_, hp⟩
    rw [hc]
    show (parseAll parse names' _ >>= _) = _
    rw [ih vs hvs]
    rfl

/-- The clauses of a list are refused when one of them is and those before it are read. -/
theorem parseAll_eq_error_iff (hread : ReadIff parse Part)
    (herror : ∀ {names clause err}, parse names clause = .error err ↔
      Sticks clause.stop StuckPart clause.tokens err)
    (hpart : ∀ {ls es}, Part ls es → ∀ l ∈ ls, l ≠ .mark separator)
    (hstuck : ∀ {next ls o}, StuckPart next ls o → ∀ l ∈ ls, l ≠ .mark separator)
    {names : List String} :
    parseAll parse names (clauses separator last tokens) = .error err ↔
      Sticks last (StuckSeparated separator Part StuckPart) tokens err :=
  ⟨parseAll_sticks hread herror.1, parseAll_of_sticks hread herror.2 hpart hstuck⟩

end

/-! ### Programs -/

theorem ne_of_inExpression {ls : List Lexeme} (h : ∀ l ∈ ls, l.inExpression = true) {l' : Lexeme}
    (h' : l'.inExpression = false) : ∀ l ∈ ls, l ≠ l' := by
  rintro l hl rfl
  rw [h l hl] at h'
  cases h'

section
variable {limit : Nat} {next : Option Lexeme} {ls : List Lexeme} {o : Obstacle}
  {names : List String} {err : ParseError}

theorem StuckStatement.no_semicolon (h : StuckStatement limit next ls o) :
    ∀ l ∈ ls, l ≠ .mark .semicolon := by
  cases h with
  | declaration hd =>
    have hcomma : Lexeme.mark .comma ≠ .mark .semicolon := fun h => nomatch h
    refine List.forall_mem_cons.2 ⟨fun h => (nomatch h), hd.forall_mem ?_ ?_ hcomma⟩
    · exact fun hp => ne_of_inExpression hp.inExpression rfl
    · exact fun hs => ne_of_inExpression hs.inExpression rfl
  | expression _ hw => exact ne_of_inExpression hw.inExpression rfl

theorem parseDeclarators_eq_error_iff {stop : Stop} {tokens : List Token} :
    parseAll parseDeclarator names (clauses .comma stop tokens) = .error err ↔
      Sticks stop (StuckSeparated .comma (DerivesDeclarator maxNesting noSlot)
        (StuckDeclarator maxNesting)) tokens err :=
  parseAll_eq_error_iff parseDeclarator_readIff parseDeclarator_eq_error_iff
    (fun hp => ne_of_inExpression hp.inExpression rfl)
    (fun hs => ne_of_inExpression hs.inExpression rfl)

theorem parseClause_sticks {clause : Clause} (h : parseClause names clause = .error err) :
    Sticks clause.stop (StuckStatement maxNesting) clause.tokens err := by
  obtain ⟨tokens, stop⟩ := clause
  unfold parseClause at h
  dsimp only at h ⊢
  split at h
  · cases h
  · next t rest =>
    split at h
    · next word hword =>
      refine (parseDeclarators_eq_error_iff.1 h).behind [t] rfl fun hs => ?_
      rw [lexemes_cons, hword]
      exact .declaration hs
    · next hword =>
      obtain ⟨used, more, o, htokens, hw, rfl⟩ := whole_sticks h
      refine .after used htokens (.expression (fun hnil => ?_) hw)
      obtain rfl := List.map_eq_nil_iff.1 hnil
      obtain rfl : t :: rest = more := htokens
      exact ⟨t.lexeme, rfl, hword⟩

theorem parseClause_of_sticks {clause : Clause}
    (h : Sticks clause.stop (StuckStatement maxNesting) clause.tokens err) :
    parseClause names clause = .error err := by
  obtain ⟨tokens, stop⟩ := clause
  obtain ⟨used, rest, o, htokens, hs, rfl⟩ := h
  obtain rfl : tokens = used ++ rest := htokens
  generalize hls : lexemes used = ls at hs
  cases hs with
  | declaration hd =>
    obtain ⟨t, us, rfl, ht, rfl⟩ := lexemes_eq_cons hls
    simp only [parseClause, List.cons_append, ht]
    exact parseDeclarators_eq_error_iff.2 ⟨us, rest, o, rfl, hd, rfl⟩
  | expression hnext hw =>
    subst hls
    -- the clause has a first token, and it is no keyword
    obtain ⟨t, ts, hcons, hword⟩ : ∃ t ts, used ++ rest = t :: ts ∧
        ∀ word, t.lexeme ≠ .keyword word := by
      cases used with
      | nil =>
        obtain ⟨l, hl, hword⟩ := hnext rfl
        obtain ⟨t, ts, rfl, rfl⟩ := lexemes_eq_of_head? hl
        exact ⟨t, ts, rfl, hword⟩
      | cons t us =>
        exact ⟨t, us ++ rest, rfl, fun word =>
          ne_of_inExpression hw.inExpression rfl t.lexeme List.mem_cons_self⟩
    rw [hcons]
    simp only [parseClause]
    exact whole_of_sticks ⟨used, rest, o, hcons.symm, hw, rfl⟩

theorem parseClause_eq_error_iff {clause : Clause} :
    parseClause names clause = .error err ↔
      Sticks clause.stop (StuckStatement maxNesting) clause.tokens err :=
  ⟨parseClause_sticks, parseClause_of_sticks⟩

end

/-- The lexemes are a program, whatever the slots of its names. -/
def IsProgram (limit : Nat) (ls : List Lexeme) : Prop :=
  ∃ es, Separated .semicolon (DerivesClause limit noSlot) ls es

theorem parseTokens_isOk_iff {length : Nat} {tokens : List Token} :
    (∃ p, parseTokens length tokens = .ok p) ↔ IsProgram maxNesting (lexemes tokens) := by
  constructor
  · rintro ⟨p, h⟩
    exact (derivesProgram_iff.1 (parseTokens_reads h).2).reslot fun hc => hc.reslot noSlot
  · rintro ⟨es, h⟩
    obtain ⟨es', h'⟩ := h.reslot fun hc => hc.reslot (slotNames (lexemes tokens)).idxOf
    exact ⟨_, (parseTokens_yields (derivesProgram_iff.2 h')).eq⟩

/-- The parser rejects exactly the token lists that are stuck, with the error of the obstacle. -/
theorem parseTokens_eq_error_iff {length : Nat} {tokens : List Token} {e : ParseError} :
    parseTokens length tokens = .error e ↔
      Sticks (.endOfText length) (StuckProgram maxNesting) tokens e := by
  have hall : parseAll parseClause reservedNames
      (clauses .semicolon (.endOfText length) tokens) = .error e ↔ _ :=
    parseAll_eq_error_iff parseClause_readIff parseClause_eq_error_iff
      (fun hc => hc.no_semicolon) (fun hs => hs.no_semicolon)
  refine Iff.trans ?_ hall
  rw [parseTokens, bind_eq_error]
  refine ⟨?_, .inl⟩
  rintro (h | ⟨⟨es, names⟩, -, h⟩)
  · exact h
  · cases h

end Phrasebook.Plural
