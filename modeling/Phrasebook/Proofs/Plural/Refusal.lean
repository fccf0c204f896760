import Phrasebook.Proofs.Plural.Obstacles
import Phrasebook.Proofs.Plural.Locations

/-!
# What is refused, and why

The parser refuses the token lists that begin with a stuck phrase, with the error of its obstacle
at the token that comes next, and no others.  `Sticks` says this of an error and `Refuses` of a
phrase:

* `parseAssignment_sticks`, with one lemma like it for every other reader: what a reader fails with
  is the error of an obstacle behind a stuck beginning of its tokens;
* `Stuck.refuses`: with budget enough, a reader fails on every stuck beginning of its phrase.

So an error is settled by the lexemes up to that token.
-/

namespace Phrasebook.Plural

/-! ### Errors at the end of a beginning -/

/-- The error is the one of an obstacle that comes after a beginning of the tokens `ts`; `Beginning`
says of which lexeme comes next, of which lexemes and of which obstacle this may be so. -/
def Sticks (stop : Stop) (Beginning : Option Lexeme → List Lexeme → Obstacle → Prop)
    (ts : List Token) (e : ParseError) : Prop :=
  ∃ used rest o, ts = used ++ rest ∧ Beginning (lexemes rest).head? (lexemes used) o ∧
    e = o.error (stop.ahead rest)

section
variable {stop : Stop} {Beginning Longer : Option Lexeme → List Lexeme → Obstacle → Prop}
  {ts rest : List Token} {o : Obstacle} {e : ParseError}

theorem Sticks.here (h : Beginning (lexemes ts).head? [] o) :
    Sticks stop Beginning ts (o.error (stop.ahead ts)) :=
  ⟨[], ts, o, rfl, h, rfl⟩

theorem Sticks.after (used : List Token) (hts : ts = used ++ rest)
    (h : Beginning (lexemes rest).head? (lexemes used) o) :
    Sticks stop Beginning ts (o.error (stop.ahead rest)) :=
  ⟨used, rest, o, hts, h, rfl⟩

/-- A beginning that others come before. -/
theorem Sticks.behind (h : Sticks stop Beginning rest e) (used : List Token)
    (hts : ts = used ++ rest)
    (f : ∀ {next ls o}, Beginning next ls o → Longer next (lexemes used ++ ls) o) :
    Sticks stop Longer ts e := by
  obtain ⟨more, rest', o, rfl, hb, rfl⟩ := h
  refine ⟨used ++ more, rest', o, ?_, ?_, rfl⟩
  · rw [hts, List.append_assoc]
  · rw [lexemes_append]
    exact f hb

theorem Sticks.map (h : Sticks stop Beginning ts e)
    (f : ∀ {next ls o}, Beginning next ls o → Longer next ls o) : Sticks stop Longer ts e :=
  h.behind [] rfl f

end

/-! ### From the readers -/

section
variable {limit depth : Nat} {phrase : Phrase} {stop : Stop} {s s' : ParseState} {e : Expr}
  {m : Mark} {err : ParseError}

theorem Reads.derives_noSlot (h : Reads limit phrase depth s e s') :
    ∃ used e', s.rest = used ++ s'.rest ∧ Derives limit noSlot phrase depth (lexemes used) e' ∧
      (e'.IsVar ↔ e.IsVar) := by
  obtain ⟨used, hrest, -, hd⟩ := h
  obtain ⟨e', he', hvar⟩ := (hd s'.names (List.prefix_refl _)).reslot noSlot
  exact ⟨used, e', hrest, he', hvar⟩

theorem ParseState.expect_eq_error (h : s.expect stop m = .error err) :
    err = (Obstacle.wanted (.mark m)).error (stop.ahead s.rest) ∧
      ∀ l, (lexemes s.rest).head? = some l → l ≠ .mark m := by
  unfold ParseState.expect at h
  split at h
  · next t rest hs =>
    split at h
    · cases h
    · next ht =>
      cases h
      refine ⟨s.unexpected_eq stop _, fun l hl => ?_⟩
      rw [hs] at hl
      cases hl
      exact ht
  · next hs =>
    cases h
    refine ⟨s.unexpected_eq stop _, fun l hl => ?_⟩
    rw [hs] at hl
    cases hl

theorem Ends.misses {rest : List Token} (h : Ends .assignment e rest)
    (hm : ∀ l, (lexemes rest).head? = some l → l ≠ .mark m) (e' : Expr) :
    Misses m e' (lexemes rest).head? := by
  intro l hl
  refine ⟨?_, hm l hl⟩
  cases rest with
  | nil => cases hl
  | cons t ts =>
    cases hl
    exact h t ts rfl

end

variable {limit : Nat} {stop : Stop}

mutual

theorem parseAssignment_sticks {budget depth : Nat} {s : ParseState} {e : ParseError}
    (hb : budget + depth = limit) (h : parseAssignment stop budget s = .error e) :
    Sticks stop (Stuck limit · .assignment depth) s.rest e := by
  match budget with
  | 0 =>
    rw [parseAssignment, s.tooDeep_eq] at h
    cases h
    exact .here (.tooDeep (by omega))
  | budget + 1 =>
    have hlt : depth < limit := by omega
    have hb' : budget + (depth + 1) = limit := by omega
    rw [parseAssignment] at h
    rcases bind_eq_error.1 h with hl | ⟨⟨left, s₁⟩, hl, h⟩
    · exact (parseConditional_sticks hb' hl).map (.value hlt)
    · dsimp only at h
      split at h
      · cases h
      · next t rest hs =>
        split at h
        · next ht =>
          split at h
          · next slot =>
            rcases bind_eq_error.1 h with hv | ⟨⟨value, s₂⟩, -, h⟩
            · obtain ⟨used, left, hrest, hd, hvar⟩ := (parseConditional_reads hb' hl).derives_noSlot
              obtain ⟨slot', rfl⟩ := hvar.2 ⟨slot, rfl⟩
              rw [hs, List.append_cons] at hrest
              refine (parseAssignment_sticks hb' hv).behind _ hrest fun hstuck => ?_
              rw [lexemes_append, lexemes_cons, ht, List.append_assoc]
              exact .assign hlt hd hstuck
            · cases h
          · next hvar =>
            cases h
            -- a ternary would have ended before something else than `=`
            rcases parseConditional_ends hl with ⟨hc, -⟩ | hends
            · obtain ⟨used, left', hrest, hd, hiff⟩ := (parseChain_reads hb' hc).derives_noSlot
              rw [hs] at hrest
              have hnot : ¬ left'.IsVar := fun h => by
                obtain ⟨slot, rfl⟩ := hiff.1 h
                exact hvar slot rfl
              exact ⟨used, t :: rest, .invalidTarget, hrest,
                .invalidTarget hlt hd hnot (congrArg some ht), rfl⟩
            · exact absurd (.inr (.inr ht)) (hends t rest hs)
        · cases h
termination_by (budget, 0)

theorem parseConditional_sticks {budget depth : Nat} {s : ParseState} {e : ParseError}
    (hb : budget + depth = limit) (h : parseConditional stop budget s = .error e) :
    Sticks stop (Stuck limit · .conditional depth) s.rest e := by
  rw [parseConditional] at h
  rcases bind_eq_error.1 h with hc | ⟨⟨condition, s₁⟩, hc, h⟩
  · exact (parseChain_sticks hb hc).map .condition
  · dsimp only at h
    split at h
    · cases h
    · next t rest hs =>
      split at h
      · next ht =>
        obtain ⟨used, c, hrest, hd, -⟩ := (parseChain_reads hb hc).derives_noSlot
        rw [hs, List.append_cons] at hrest
        rcases bind_eq_error.1 h with hl | ⟨⟨whenTrue, s₂⟩, hl, h⟩
        · refine (parseAssignment_sticks hb hl).behind _ hrest fun hstuck => ?_
          rw [lexemes_append, lexemes_cons, ht, List.append_assoc]
          exact .whenTrue hd hstuck
        obtain ⟨used₂, c₂, hrest₂, hd₂, -⟩ := (parseAssignment_reads hb hl).derives_noSlot
        replace hrest₂ : rest = used₂ ++ s₂.rest := hrest₂
        rw [hrest₂, ← List.append_assoc] at hrest
        rcases bind_eq_error.1 h with hx | ⟨s₃, hx, h⟩
        · obtain ⟨rfl, hmark⟩ := ParseState.expect_eq_error hx
          refine .after _ hrest ?_
          rw [lexemes_append, lexemes_append, lexemes_cons, ht, List.append_assoc]
          exact .colon hd hd₂ ((parseAssignment_ends hl).misses hmark c₂)
        obtain ⟨u, us, hs₂, hu, rfl⟩ := ParseState.expect_eq_ok hx
        rw [hs₂, List.append_cons] at hrest
        rcases bind_eq_error.1 h with hr | ⟨⟨whenFalse, s₄⟩, -, h⟩
        · refine (parseAssignment_sticks hb hr).behind _ hrest fun hstuck => ?_
          simp only [lexemes_append, lexemes_cons, ht, hu, List.append_assoc]
          exact .whenFalse hd hd₂ hstuck
        · cases h
      · cases h
termination_by (budget, 10)

theorem parseChain_sticks {level budget depth : Nat} {s : ParseState} {e : ParseError}
    (hb : budget + depth = limit) (h : parseChain stop level budget s = .error e) :
    Sticks stop (Stuck limit · (.chain level) depth) s.rest e := by
  rw [parseChain] at h
  split at h
  · next hlevel =>
    rcases bind_eq_error.1 h with hf | ⟨⟨first, s₁⟩, hf, h⟩
    · exact (parseChain_sticks hb hf).map (.first hlevel)
    · exact parseChainRest_sticks ((parseChain_reads hb hf).map (.first hlevel)) hb h
  · next hlevel => exact (parsePrefix_sticks hb h).map (.tightest (by omega))
termination_by (budget, 3 + (6 - level))

/-- What was read of a chain so far, and the rest of it, stick together. -/
theorem parseChainRest_sticks {level count budget depth : Nat} {left : Expr} {s₀ s : ParseState}
    {e : ParseError} (hl : Reads limit (.run level count) depth s₀ left s)
    (hb : budget + (depth + count) = limit)
    (h : parseChainRest stop level budget left s = .error e) :
    Sticks stop (Stuck limit · (.chain level) depth) s₀.rest e := by
  rw [parseChainRest] at h
  split at h
  · cases h
  · next t rest hs =>
    split at h
    · next op ht =>
      split at h
      · next hlevel =>
        have hop : op ∈ operatorsAt level := mem_operatorsAt.2 hlevel
        obtain ⟨used, l, hrest, hd, -⟩ := hl.derives_noSlot
        rw [hs, List.append_cons] at hrest
        cases budget with
        | zero =>
          cases h
          refine ParseState.tooDeep_eq stop { s with rest } ▸ .after _ hrest ?_
          rw [lexemes_append, lexemes_cons, ht]
          exact .operatorTooDeep hd hop (by omega)
        | succ budget =>
          have hb' : budget + (depth + (count + 1)) = limit := by omega
          rcases bind_eq_error.1 h with hr | ⟨⟨right, s₁⟩, hr, h⟩
          · refine (parseChain_sticks hb' hr).behind _ hrest fun hstuck => ?_
            rw [lexemes_append, lexemes_cons, ht, List.append_assoc]
            exact .right hd hop (by omega) hstuck
          · subst hlevel
            exact parseChainRest_sticks (hl.next hs ht (by omega) (parseChain_reads hb' hr)) hb' h
      · cases h
    · cases h
termination_by (budget, 0)

theorem parsePrefix_sticks {budget depth : Nat} {s : ParseState} {e : ParseError}
    (hb : budget + depth = limit) (h : parsePrefix stop budget s = .error e) :
    Sticks stop (Stuck limit · .operand depth) s.rest e := by
  rw [parsePrefix] at h
  split at h
  · next hs =>
    refine (parsePrimary_sticks hb ?_ h).map .primary
    intro t ts sign ht
    exact nomatch hs.symm.trans ht
  · next t rest hs =>
    split at h
    · next sign ht =>
      split at h
      · next op hop =>
        cases budget with
        | zero =>
          cases h
          refine ParseState.tooDeep_eq stop { s with rest } ▸ .after [t] hs ?_
          rw [lexemes_cons, ht]
          exact .unaryTooDeep hop (by omega)
        | succ budget =>
          have hb' : budget + (depth + 1) = limit := by omega
          rcases bind_eq_error.1 h with he | ⟨⟨operand, s₁⟩, -, h⟩
          · refine (parsePrefix_sticks hb' he).behind [t] hs fun hstuck => ?_
            rw [lexemes_cons, ht]
            exact .unary hop (by omega) hstuck
          · cases h
      · next hop =>
        refine (parsePrimary_sticks hb ?_ h).map .primary
        intro u us sign' hu hsign
        cases hs.symm.trans hu
        cases ht.symm.trans hsign
        exact hop
    · next hsign =>
      refine (parsePrimary_sticks hb ?_ h).map .primary
      intro u us sign hu ht
      cases hs.symm.trans hu
      exact absurd ht (hsign sign)
termination_by (budget, 2)

theorem parsePrimary_sticks {budget depth : Nat} {s : ParseState} {e : ParseError}
    (hb : budget + depth = limit)
    (hsign : ∀ t ts sign, s.rest = t :: ts → t.lexeme = .sign sign → sign.unary? = none)
    (h : parsePrimary stop budget s = .error e) :
    Sticks stop (Stuck limit · .primary depth) s.rest e := by
  rw [parsePrimary] at h
  split at h
  · next hs =>
    rw [s.unexpected_eq] at h
    cases h
    refine .here (.expression ?_)
    rw [hs]
    exact fun l hl => nomatch hl
  · next t rest hs =>
    split at h
    · next ht =>
      rcases bind_eq_error.1 h with he | ⟨⟨inner, s₁⟩, he, h⟩
      · refine (parseAssignment_sticks hb he).behind [t] hs fun hstuck => ?_
        rw [lexemes_cons, ht]
        exact .inner hstuck
      · obtain ⟨used, e', hrest, hd, -⟩ := (parseAssignment_reads hb he).derives_noSlot
        replace hrest : rest = used ++ s₁.rest := hrest
        rw [hrest, ← List.cons_append] at hs
        rcases bind_eq_error.1 h with hx | ⟨s₂, -, h⟩
        · obtain ⟨rfl, hmark⟩ := ParseState.expect_eq_error hx
          refine .after _ hs ?_
          rw [lexemes_cons, ht]
          exact .closeParen hd ((parseAssignment_ends he).misses hmark e')
        · cases h
    · cases h
    · cases h
    · next hopen hnumber hname =>
      rw [s.unexpected_eq] at h
      cases h
      refine .here (.expression ?_)
      rw [hs]
      intro l hl
      cases hl
      cases hl : t.lexeme with
      | mark m =>
        cases m with
        | openParen => exact absurd hl hopen
        | _ => rfl
      | name x => exact absurd hl (hname x)
      | number v => exact absurd hl (hnumber v)
      | sign sign =>
        rw [Lexeme.startsOperand, hsign t rest sign hs hl]
        rfl
      | keyword | fault => rfl
termination_by (budget, 1)

end

/-! ### To the readers -/

theorem Extends.of_isVar_iff {phrase : Phrase} {e e' : Expr} {l : Lexeme}
    (hvar : e'.IsVar ↔ e.IsVar) (h : Extends phrase e' l) : Extends phrase e l := by
  cases phrase with
  | conditional =>
    rcases h with hop | hq | ⟨heq, hne⟩
    · exact .inl hop
    · exact .inr (.inl hq)
    · refine .inr (.inr ⟨heq, fun slot he => ?_⟩)
      obtain ⟨slot', he'⟩ := hvar.2 ⟨slot, he⟩
      exact hne slot' he'
  | assignment | chain | run | operand | primary => exact h

section
variable {limit depth budget : Nat} {phrase : Phrase} {next : Option Lexeme} {ls : List Lexeme}
  {e : Expr} {o : Obstacle} {used rest : List Token}

/-- A reader with budget enough takes the tokens of a phrase, whatever slots the names get. -/
theorem Derives.reads_noSlot (h : Derives limit noSlot phrase depth ls e) (stop : Stop)
    (names : List String) (hb : budget + depth = limit) (hu : lexemes used = ls)
    (hend : Ends phrase e rest) :
    ∃ e' names', phrase.spent ≤ budget ∧
      phrase.read stop budget ⟨used ++ rest, names⟩ =
        phrase.resume stop budget e' ⟨rest, names'⟩ ∧ (e'.IsVar ↔ e.IsVar) := by
  obtain ⟨e', hd, hvar⟩ := h.reslot (addNames names (namesOf ls)).idxOf
  have hend' : Ends phrase e' rest := hend.map fun l => Extends.of_isVar_iff hvar
  have haccepts : Accepts stop limit _ phrase depth ls e' := hd.accepts
  rcases haccepts budget names used rest hu (List.prefix_refl _) hend' with
    ⟨hspent, hread⟩ | ⟨hlt, -⟩
  · exact ⟨e', _, hspent, hread, hvar⟩
  · omega

/-- With budget enough, its reader refuses a phrase that begins with `ls`, where `next` comes after
these, for the obstacle `o`. -/
def Refuses (stop : Stop) (limit : Nat) (next : Option Lexeme) (phrase : Phrase) (depth : Nat)
    (ls : List Lexeme) (o : Obstacle) : Prop :=
  ∀ budget names used rest, budget + depth = limit → lexemes used = ls →
    (lexemes rest).head? = next →
    phrase.read stop budget ⟨used ++ rest, names⟩ = .error (o.error (stop.ahead rest))

theorem lexemes_eq_of_head? {ts : List Token} {l : Lexeme} (h : (lexemes ts).head? = some l) :
    ∃ t us, ts = t :: us ∧ t.lexeme = l := by
  cases ts with
  | nil => cases h
  | cons t us => exact ⟨t, us, rfl, Option.some.inj h⟩

theorem Ends.of_head? (h : ∀ l, (lexemes rest).head? = some l → ¬ Extends phrase e l) :
    Ends phrase e rest := by
  intro t ts ht
  exact h t.lexeme (ht ▸ rfl)

end

section
variable {stop : Stop} {limit depth level count : Nat} {next : Option Lexeme}
  {ls ms ns : List Lexeme} {c e l t : Expr} {o : Obstacle} {m : Mark}

theorem refuses_tooDeep (hle : limit ≤ depth) :
    Refuses stop limit next .assignment depth [] .tooDeep := by
  intro budget names used rest hb hu _
  obtain rfl := List.map_eq_nil_iff.1 hu
  obtain rfl : budget = 0 := by omega
  exact parseAssignment_zero.trans (congrArg _ (ParseState.tooDeep_eq stop ⟨rest, names⟩))

theorem Refuses.value (hlt : depth < limit)
    (h : Refuses stop limit next .conditional (depth + 1) ls o) :
    Refuses stop limit next .assignment depth ls o := by
  intro budget names used rest hb hu hn
  obtain ⟨budget, rfl⟩ : ∃ k, budget = k + 1 := ⟨budget - 1, by omega⟩
  have hcond : parseConditional stop budget _ = _ := h budget names used rest (by omega) hu hn
  show parseAssignment stop (budget + 1) _ = _
  rw [parseAssignment, hcond]
  rfl

theorem refuses_invalidTarget (hlt : depth < limit)
    (hd : Derives limit noSlot (.chain 0) (depth + 1) ls e) (hvar : ¬ e.IsVar) :
    Refuses stop limit (some (.sign .assign)) .assignment depth ls .invalidTarget := by
  intro budget names used rest hb hu hn
  obtain ⟨budget, rfl⟩ : ∃ k, budget = k + 1 := ⟨budget - 1, by omega⟩
  obtain ⟨t, ts, rfl, ht⟩ := lexemes_eq_of_head? hn
  have hend : Ends (.chain 0) e (t :: ts) := by
    refine .cons ?_ ts
    rw [ht]
    rintro ⟨op, -, h⟩
    cases h
  obtain ⟨e', names', -, hread, hiff⟩ :=
    hd.reads_noSlot stop names (show budget + (depth + 1) = limit by omega) hu hend
  replace hread : parseChain stop 0 budget _ = .ok (e', ⟨t :: ts, names'⟩) := hread
  have hcond : parseConditional stop budget ⟨used ++ t :: ts, names⟩ =
      .ok (e', ⟨t :: ts, names'⟩) := by
    rw [parseConditional, hread]
    exact if_neg (by rw [ht]; exact fun h => nomatch h)
  show parseAssignment stop (budget + 1) _ = _
  rw [parseAssignment, hcond]
  show (if t.lexeme = .sign .assign then _ else _) = _
  rw [if_pos ht]
  cases e' with
  | var slot => exact absurd (hiff.1 ⟨slot, rfl⟩) hvar
  | lit | unary | binary | cond | assign => rfl

theorem Refuses.assign {slot : Nat} (hlt : depth < limit)
    (hd : Derives limit noSlot .conditional (depth + 1) ls (.var slot))
    (h : Refuses stop limit next .assignment (depth + 1) ms o) :
    Refuses stop limit next .assignment depth (ls ++ .sign .assign :: ms) o := by
  intro budget names used rest hb hu hn
  obtain ⟨budget, rfl⟩ : ∃ k, budget = k + 1 := ⟨budget - 1, by omega⟩
  obtain ⟨us, t, vs, rfl, hus, ht, hvs⟩ := lexemes_eq_append_cons hu
  rw [List.append_assoc, List.cons_append]
  have hend : Ends .conditional (.var slot) (t :: (vs ++ rest)) := by
    refine .cons ?_ _
    rw [ht]
    rintro (⟨op, h⟩ | h | ⟨-, h⟩)
    · cases h
    · cases h
    · exact h slot rfl
  obtain ⟨e', names', -, hread, hiff⟩ :=
    hd.reads_noSlot stop names (show budget + (depth + 1) = limit by omega) hus hend
  obtain ⟨slot', rfl⟩ := hiff.2 ⟨slot, rfl⟩
  replace hread : parseConditional stop budget _ = .ok (.var slot', ⟨t :: (vs ++ rest), names'⟩) :=
    hread
  have hvalue : parseAssignment stop budget _ = _ := h budget names' vs rest (by omega) hvs hn
  show parseAssignment stop (budget + 1) _ = _
  rw [parseAssignment, hread]
  show (if t.lexeme = .sign .assign then _ else _) = _
  rw [if_pos ht]
  show (parseAssignment stop budget _ >>= _) = _
  rw [hvalue]
  rfl

theorem Refuses.condition (h : Refuses stop limit next (.chain 0) depth ls o) :
    Refuses stop limit next .conditional depth ls o := by
  intro budget names used rest hb hu hn
  have hchain : parseChain stop 0 budget _ = _ := h budget names used rest hb hu hn
  show parseConditional stop budget _ = _
  rw [parseConditional, hchain]
  rfl

/-- What is left to do when a condition and `?` have been read. -/
theorem Derives.reads_condition {budget : Nat} {t : Token} {us rest : List Token}
    (hd : Derives limit noSlot (.chain 0) depth ls c) (stop : Stop) (names : List String)
    (hb : budget + depth = limit) (hus : lexemes us = ls) (ht : t.lexeme = .sign .question) :
    ∃ c' names', parseConditional stop budget ⟨us ++ t :: rest, names⟩ =
      (do
        let (whenTrue, s) ← parseAssignment stop budget ⟨rest, names'⟩
        let s ← s.expect stop .colon
        let (whenFalse, s) ← parseAssignment stop budget s
        return (.cond c' whenTrue whenFalse, s)) := by
  have hend : Ends (.chain 0) c (t :: rest) := by
    refine .cons ?_ rest
    rw [ht]
    rintro ⟨op, -, h⟩
    cases h
  obtain ⟨c', names', -, hread, -⟩ := hd.reads_noSlot stop names hb hus hend
  replace hread : parseChain stop 0 budget _ = .ok (c', ⟨t :: rest, names'⟩) := hread
  refine ⟨c', names', ?_⟩
  rw [parseConditional, hread]
  exact if_pos ht

theorem Refuses.whenTrue (hd : Derives limit noSlot (.chain 0) depth ls c)
    (h : Refuses stop limit next .assignment depth ms o) :
    Refuses stop limit next .conditional depth (ls ++ .sign .question :: ms) o := by
  intro budget names used rest hb hu hn
  obtain ⟨us, t, vs, rfl, hus, ht, hvs⟩ := lexemes_eq_append_cons hu
  rw [List.append_assoc, List.cons_append]
  obtain ⟨c', names', hcond⟩ := hd.reads_condition stop names hb hus ht
  have hl : parseAssignment stop budget _ = _ := h budget names' vs rest hb hvs hn
  refine Eq.trans hcond ?_
  rw [hl]
  rfl

/-- An assignment that something else than the mark comes after is read, and the mark missed. -/
theorem Derives.reads_misses {budget : Nat} {us rest : List Token}
    (hd : Derives limit noSlot .assignment depth ls e) (stop : Stop) (names : List String)
    (hb : budget + depth = limit) (hus : lexemes us = ls)
    (hm : Misses m e (lexemes rest).head?) :
    ∃ e' s, parseAssignment stop budget ⟨us ++ rest, names⟩ = .ok (e', s) ∧
      s.expect stop m = .error ((Obstacle.wanted (.mark m)).error (stop.ahead rest)) := by
  have hend : Ends .assignment e rest := .of_head? fun l hl => (hm l hl).1
  obtain ⟨e', names', -, hread, -⟩ := hd.reads_noSlot stop names hb hus hend
  refine ⟨e', ⟨rest, names'⟩, hread, ?_⟩
  rw [← ParseState.unexpected_eq stop ⟨rest, names'⟩]
  cases rest with
  | nil => rfl
  | cons t ts => exact if_neg (hm t.lexeme rfl).2

theorem refuses_colon (hd : Derives limit noSlot (.chain 0) depth ls c)
    (ht : Derives limit noSlot .assignment depth ms t) (hm : Misses .colon t next) :
    Refuses stop limit next .conditional depth (ls ++ .sign .question :: ms)
      (.wanted (.mark .colon)) := by
  intro budget names used rest hb hu hn
  obtain ⟨us, u, vs, rfl, hus, hu', hvs⟩ := lexemes_eq_append_cons hu
  rw [List.append_assoc, List.cons_append]
  obtain ⟨c', names', hcond⟩ := hd.reads_condition stop names hb hus hu'
  obtain ⟨t', s, hread, hexpect⟩ := ht.reads_misses stop names' hb hvs (hn ▸ hm)
  refine Eq.trans hcond ?_
  rw [hread]
  show (s.expect stop .colon >>= _) = _
  rw [hexpect]
  rfl

theorem Refuses.whenFalse (hd : Derives limit noSlot (.chain 0) depth ls c)
    (ht : Derives limit noSlot .assignment depth ms t)
    (h : Refuses stop limit next .assignment depth ns o) :
    Refuses stop limit next .conditional depth
      (ls ++ .sign .question :: (ms ++ .mark .colon :: ns)) o := by
  intro budget names used rest hb hu hn
  obtain ⟨us, u, ts, rfl, hus, hu', hts⟩ := lexemes_eq_append_cons hu
  obtain ⟨vs, v, ws, rfl, hvs, hv, hws⟩ := lexemes_eq_append_cons hts
  simp only [List.append_assoc, List.cons_append]
  obtain ⟨c', names', hcond⟩ := hd.reads_condition stop names hb hus hu'
  have hend : Ends .assignment t (v :: (ws ++ rest)) := by
    refine .cons ?_ _
    rw [hv]
    rintro (⟨op, h⟩ | h | h) <;> nomatch h
  obtain ⟨t', names₂, -, hread, -⟩ := ht.reads_noSlot stop names' hb hvs hend
  replace hread : parseAssignment stop budget _ = .ok (t', ⟨v :: (ws ++ rest), names₂⟩) := hread
  have hf : parseAssignment stop budget _ = _ := h budget names₂ ws rest hb hws hn
  refine Eq.trans hcond ?_
  rw [hread]
  show (ParseState.expect stop ⟨v :: (ws ++ rest), names₂⟩ .colon >>= _) = _
  rw [ParseState.expect_mark hv]
  show (parseAssignment stop budget ⟨ws ++ rest, names₂⟩ >>= _) = _
  rw [hf]
  rfl

theorem Refuses.first (hlevel : level < 6)
    (h : Refuses stop limit next (.chain (level + 1)) depth ls o) :
    Refuses stop limit next (.chain level) depth ls o := by
  intro budget names used rest hb hu hn
  have hchain : parseChain stop (level + 1) budget _ = _ := h budget names used rest hb hu hn
  show parseChain stop level budget _ = _
  rw [parseChain, if_pos hlevel, hchain]
  rfl

theorem Refuses.tightest (hlevel : 6 ≤ level) (h : Refuses stop limit next .operand depth ls o) :
    Refuses stop limit next (.chain level) depth ls o := by
  intro budget names used rest hb hu hn
  exact (parseChain_tightest hlevel).trans (h budget names used rest hb hu hn)

/-- A run that an operator of its level comes after is read, and the operator is the next token. -/
theorem Derives.reads_run {budget : Nat} {op : BinaryOperator} {t : Token} {us rest : List Token}
    (hd : Derives limit noSlot (.run op.level count) depth ls l) (stop : Stop) (names : List String)
    (hb : budget + depth = limit) (hus : lexemes us = ls) (ht : t.lexeme = .sign (.operator op)) :
    ∃ l' names', parseChain stop op.level budget ⟨us ++ t :: rest, names⟩ =
      parseChainRest stop op.level (budget - count) l' ⟨t :: rest, names'⟩ := by
  have hend : Ends (.run op.level count) l (t :: rest) := by
    refine .cons ?_ rest
    rw [ht]
    rintro ⟨op', hlt, h⟩
    cases h
    exact Nat.lt_irrefl _ hlt
  obtain ⟨l', names', -, hread, -⟩ := hd.reads_noSlot stop names hb hus hend
  exact ⟨l', names', hread⟩

theorem refuses_operatorTooDeep {op : BinaryOperator} (hop : op.level = level)
    (hd : Derives limit noSlot (.run level count) depth ls l) (hle : limit ≤ depth + count) :
    Refuses stop limit next (.chain level) depth (ls ++ [.sign (.operator op)]) .tooDeep := by
  subst hop
  intro budget names used rest hb hu hn
  obtain ⟨us, t, vs, rfl, hus, ht, hvs⟩ := lexemes_eq_append_cons hu
  obtain rfl := List.map_eq_nil_iff.1 hvs
  rw [List.append_assoc, List.cons_append, List.nil_append]
  obtain ⟨l', names', hread⟩ := hd.reads_run stop names hb hus ht
  rw [show budget - count = 0 by omega, parseChainRest_zero ht] at hread
  exact hread.trans (congrArg _ (ParseState.tooDeep_eq stop ⟨rest, names'⟩))

theorem Refuses.right {op : BinaryOperator} (hop : op.level = level)
    (hd : Derives limit noSlot (.run level count) depth ls l) (hle : depth + (count + 1) ≤ limit)
    (h : Refuses stop limit next (.chain (level + 1)) (depth + (count + 1)) ms o) :
    Refuses stop limit next (.chain level) depth (ls ++ .sign (.operator op) :: ms) o := by
  subst hop
  intro budget names used rest hb hu hn
  obtain ⟨us, t, vs, rfl, hus, ht, hvs⟩ := lexemes_eq_append_cons hu
  rw [List.append_assoc, List.cons_append]
  obtain ⟨l', names', hread⟩ := hd.reads_run stop names hb hus ht
  obtain ⟨more, hmore⟩ : ∃ more, budget - count = more + 1 := ⟨budget - count - 1, by omega⟩
  have hr : parseChain stop (op.level + 1) more _ = _ :=
    h more names' vs rest (by omega) hvs hn
  refine Eq.trans hread ?_
  rw [hmore, parseChainRest]
  simp only [ht, if_true]
  rw [hr]
  rfl

theorem refuses_unaryTooDeep {sign : Sign} {op : UnaryOperator} (hop : sign.unary? = some op)
    (hle : limit ≤ depth) : Refuses stop limit next .operand depth [.sign sign] .tooDeep := by
  intro budget names used rest hb hu hn
  obtain ⟨t, us, rfl, ht, hus⟩ := lexemes_eq_cons hu
  obtain rfl := List.map_eq_nil_iff.1 hus
  obtain rfl : budget = 0 := by omega
  exact (parsePrefix_zero ht hop).trans (congrArg _ (ParseState.tooDeep_eq stop ⟨rest, names⟩))

theorem Refuses.unary {sign : Sign} {op : UnaryOperator} (hop : sign.unary? = some op)
    (hlt : depth < limit) (h : Refuses stop limit next .operand (depth + 1) ls o) :
    Refuses stop limit next .operand depth (.sign sign :: ls) o := by
  intro budget names used rest hb hu hn
  obtain ⟨t, us, rfl, ht, hus⟩ := lexemes_eq_cons hu
  obtain ⟨budget, rfl⟩ : ∃ k, budget = k + 1 := ⟨budget - 1, by omega⟩
  have hoperand : parsePrefix stop budget _ = _ := h budget names us rest (by omega) hus hn
  show parsePrefix stop (budget + 1) ⟨t :: (us ++ rest), names⟩ = _
  rw [parsePrefix]
  simp only [ht, hop]
  rw [hoperand]
  rfl

/-- A primary expression begins with no sign that an operand may begin with. -/
theorem Stuck.primary_head (h : Stuck limit next .primary depth ls o) {ts : List Token}
    (hts : lexemes ts = ls) {rest : List Token} (hn : (lexemes rest).head? = next) (t : Token)
    (us : List Token) (sign : Sign) (ht : ts ++ rest = t :: us) (hsign : t.lexeme = .sign sign) :
    sign.unary? = none := by
  cases h with
  | expression hnext =>
    obtain rfl := List.map_eq_nil_iff.1 hts
    obtain rfl : rest = t :: us := ht
    have hstart := hnext _ hn.symm
    rw [hsign] at hstart
    exact Option.not_isSome_iff_eq_none.1 (Bool.eq_false_iff.1 hstart)
  | inner | closeParen =>
    obtain ⟨u, vs, rfl, hu, -⟩ := lexemes_eq_cons hts
    cases ht
    cases hu.symm.trans hsign

theorem Refuses.primary (hs : Stuck limit next .primary depth ls o)
    (h : Refuses stop limit next .primary depth ls o) :
    Refuses stop limit next .operand depth ls o := by
  intro budget names used rest hb hu hn
  have hprimary : parsePrimary stop budget ⟨used ++ rest, names⟩ = _ :=
    h budget names used rest hb hu hn
  have hhead := hs.primary_head hu hn
  show parsePrefix stop budget ⟨used ++ rest, names⟩ = _
  generalize used ++ rest = ts at hprimary hhead ⊢
  rw [parsePrefix]
  cases ts with
  | nil => exact hprimary
  | cons t us =>
    dsimp only
    split
    · next sign ht =>
      rw [hhead t us sign rfl ht]
      exact hprimary
    · exact hprimary

theorem refuses_expression (hnext : ∀ l, next = some l → l.startsOperand = false) :
    Refuses stop limit next .primary depth [] (.wanted .expression) := by
  intro budget names used rest hb hu hn
  obtain rfl := List.map_eq_nil_iff.1 hu
  show parsePrimary stop budget ⟨rest, names⟩ = _
  rw [← ParseState.unexpected_eq stop ⟨rest, names⟩, parsePrimary]
  cases rest with
  | nil => rfl
  | cons t ts =>
    have hstart : t.lexeme.startsOperand = false := hnext t.lexeme hn.symm
    dsimp only
    split
    · next ht => rw [ht] at hstart; cases hstart
    · next value ht => rw [ht] at hstart; cases hstart
    · next x ht => rw [ht] at hstart; cases hstart
    · rfl

theorem Refuses.inner (h : Refuses stop limit next .assignment depth ls o) :
    Refuses stop limit next .primary depth (.mark .openParen :: ls) o := by
  intro budget names used rest hb hu hn
  obtain ⟨t, us, rfl, ht, hus⟩ := lexemes_eq_cons hu
  have hinner : parseAssignment stop budget _ = _ := h budget names us rest hb hus hn
  show parsePrimary stop budget ⟨t :: (us ++ rest), names⟩ = _
  rw [parsePrimary]
  simp only [ht]
  rw [hinner]
  rfl

theorem refuses_closeParen (hd : Derives limit noSlot .assignment depth ls e)
    (hm : Misses .closeParen e next) :
    Refuses stop limit next .primary depth (.mark .openParen :: ls)
      (.wanted (.mark .closeParen)) := by
  intro budget names used rest hb hu hn
  obtain ⟨t, us, rfl, ht, hus⟩ := lexemes_eq_cons hu
  obtain ⟨e', s, hread, hexpect⟩ := hd.reads_misses stop names hb hus (hn ▸ hm)
  show parsePrimary stop budget ⟨t :: (us ++ rest), names⟩ = _
  rw [parsePrimary]
  simp only [ht]
  rw [hread]
  show (s.expect stop .closeParen >>= _) = _
  rw [hexpect]
  rfl

end

/-- What is stuck is refused. -/
theorem Stuck.refuses {limit depth : Nat} {next : Option Lexeme} {phrase : Phrase}
    {ls : List Lexeme} {o : Obstacle} (h : Stuck limit next phrase depth ls o) (stop : Stop) :
    Refuses stop limit next phrase depth ls o := by
  induction h with
  | tooDeep hle => exact refuses_tooDeep hle
  | value hlt _ ih => exact .value hlt ih
  | invalidTarget hlt hd hvar hnext => exact hnext ▸ refuses_invalidTarget hlt hd hvar
  | assign hlt hd _ ih => exact .assign hlt hd ih
  | condition _ ih => exact .condition ih
  | whenTrue hd _ ih => exact .whenTrue hd ih
  | colon hc ht hm => exact refuses_colon hc ht hm
  | whenFalse hc ht _ ih => exact .whenFalse hc ht ih
  | first hlevel _ ih => exact .first hlevel ih
  | tightest hlevel _ ih => exact .tightest hlevel ih
  | operatorTooDeep hd hop hle => exact refuses_operatorTooDeep (mem_operatorsAt.1 hop) hd hle
  | right hd hop hle _ ih => exact .right (mem_operatorsAt.1 hop) hd hle ih
  | unaryTooDeep hop hle => exact refuses_unaryTooDeep hop hle
  | unary hop hlt _ ih => exact .unary hop hlt ih
  | primary hs ih => exact .primary hs ih
  | expression hnext => exact refuses_expression hnext
  | inner _ ih => exact .inner ih
  | closeParen hd hm => exact refuses_closeParen hd hm

end Phrasebook.Plural
