import Phrasebook.Proofs.Plural.Acceptance
import Phrasebook.Proofs.Plural.Spelling
import Phrasebook.Proofs.Text.Places

/-!
# Where errors are found

A reader that fails blames one of the tokens it was given, or what ended its clause (`BlamedIn`,
`parseTokens_blames`): the error stands at the token's place and quotes nothing but the token's
text.  Every token stands in the source where its place says (`standsAt_of_mem_scan`), so the
position of an error is a boundary between two characters (`Program.standsAt_of_parse_error`).
-/

namespace Phrasebook.Plural

/-! ### Blame -/

/-- What an error at a token may be. -/
inductive Token.Blamed (t : Token) : ParseError → Prop
  | lexical {f : LexicalFault} : t.lexeme = .fault f → t.Blamed ⟨.lexical f, t.start⟩
  | unexpected (wanted : Wanted) : t.Blamed ⟨.unexpected wanted t.written, t.start⟩
  | invalidTarget : t.Blamed ⟨.invalidTarget, t.start⟩
  | tooDeep : t.Blamed ⟨.tooDeep, t.start⟩

/-- What an error at the end of a clause may be. -/
inductive Stop.Blamed : Stop → ParseError → Prop
  | token {t : Token} {e : ParseError} : t.Blamed e → (Stop.token t).Blamed e
  | unexpectedEnd (wanted : Wanted) (length : Nat) :
      (Stop.endOfText length).Blamed ⟨.unexpectedEnd wanted, length⟩
  | tooDeep (length : Nat) : (Stop.endOfText length).Blamed ⟨.tooDeep, length⟩

/-- The error is at one of the tokens or at what follows them. -/
def BlamedIn (stop : Stop) (ts : List Token) (e : ParseError) : Prop :=
  (∃ t ∈ ts, t.Blamed e) ∨ stop.Blamed e

section
variable {α β : Type} {stop : Stop} {ts us : List Token} {t : Token} {s s₁ : ParseState}
  {e : ParseError}

theorem BlamedIn.mono (h : BlamedIn stop ts e) (hsub : ts ⊆ us) : BlamedIn stop us e := by
  rcases h with ⟨t, ht, hblamed⟩ | hstop
  · exact .inl ⟨t, hsub ht, hblamed⟩
  · exact .inr hstop

theorem blamedIn_cons (h : t.Blamed e) (ts : List Token) : BlamedIn stop (t :: ts) e :=
  .inl ⟨t, List.mem_cons_self, h⟩

theorem Token.blamed_unexpected (t : Token) (wanted : Wanted) :
    t.Blamed (match t.lexeme with
      | .fault f => ⟨.lexical f, t.start⟩
      | _ => ⟨.unexpected wanted t.written, t.start⟩) := by
  split
  · next h => exact .lexical h
  · exact .unexpected wanted

theorem ParseState.blamed_unexpected (s : ParseState) (wanted : Wanted) :
    BlamedIn stop s.rest (s.unexpected stop wanted) := by
  obtain ⟨rest, names⟩ := s
  cases rest with
  | cons t rest => exact blamedIn_cons (t.blamed_unexpected wanted) rest
  | nil =>
    cases stop with
    | token t => exact .inr (.token (t.blamed_unexpected wanted))
    | endOfText length => exact .inr (.unexpectedEnd wanted length)

theorem ParseState.blamed_tooDeep (s : ParseState) :
    BlamedIn stop s.rest ⟨.tooDeep, s.offset stop⟩ := by
  obtain ⟨rest, names⟩ := s
  cases rest with
  | cons t rest => exact blamedIn_cons .tooDeep rest
  | nil =>
    cases stop with
    | token t => exact .inr (.token .tooDeep)
    | endOfText length => exact .inr (.tooDeep length)

theorem ParseState.blamed_expect {m : Mark} (h : s.expect stop m = .error e) :
    BlamedIn stop s.rest e := by
  unfold ParseState.expect at h
  split at h
  · split at h
    · cases h
    · cases h
      exact s.blamed_unexpected _
  · cases h
    exact s.blamed_unexpected _

theorem bind_eq_error {x : Except ParseError α} {f : α → Except ParseError β} :
    x >>= f = .error e ↔ x = .error e ∨ ∃ a, x = .ok a ∧ f a = .error e := by
  cases x with
  | error e' =>
    constructor
    · intro h
      cases h
      exact .inl rfl
    · rintro (h | ⟨a, ha, -⟩)
      · cases h
        rfl
      · cases ha
  | ok a =>
    constructor
    · intro h
      exact .inr ⟨a, rfl, h⟩
    · rintro (h | ⟨b, hb, hf⟩)
      · cases h
      · cases hb
        exact hf

theorem Reads.rest_subset {limit depth : Nat} {phrase : Phrase} {value : Expr}
    (h : Reads limit phrase depth s value s₁) : s₁.rest ⊆ s.rest := by
  obtain ⟨used, hrest, -⟩ := h
  rw [hrest]
  exact List.subset_append_right used s₁.rest

end

/-! ### The readers -/

variable {stop : Stop}

mutual

theorem parseAssignment_blames {budget : Nat} {s : ParseState} {e : ParseError}
    (h : parseAssignment stop budget s = .error e) : BlamedIn stop s.rest e := by
  match budget with
  | 0 =>
    rw [parseAssignment] at h
    cases h
    exact s.blamed_tooDeep
  | budget + 1 =>
    rw [parseAssignment] at h
    rcases bind_eq_error.1 h with hl | ⟨⟨left, s₁⟩, hl, h⟩
    · exact parseConditional_blames hl
    · have hleft := (parseConditional_reads (Nat.add_zero budget) hl).rest_subset
      dsimp only at h
      split at h
      · cases h
      · next t rest hs =>
        rw [hs] at hleft
        have hrest : rest ⊆ s.rest := fun u hu => hleft (List.mem_cons_of_mem t hu)
        split at h
        · split at h
          · rcases bind_eq_error.1 h with hv | ⟨⟨value, s₂⟩, -, h⟩
            · exact (parseAssignment_blames hv).mono hrest
            · cases h
          · cases h
            exact (blamedIn_cons .invalidTarget rest).mono hleft
        · cases h
termination_by (budget, 0)

theorem parseConditional_blames {budget : Nat} {s : ParseState} {e : ParseError}
    (h : parseConditional stop budget s = .error e) : BlamedIn stop s.rest e := by
  rw [parseConditional] at h
  rcases bind_eq_error.1 h with hc | ⟨⟨condition, s₁⟩, hc, h⟩
  · exact parseChain_blames hc
  · have hcond := (parseChain_reads (Nat.add_zero budget) hc).rest_subset
    dsimp only at h
    split at h
    · cases h
    · next t rest hs =>
      rw [hs] at hcond
      have hrest : rest ⊆ s.rest := fun u hu => hcond (List.mem_cons_of_mem t hu)
      split at h
      · rcases bind_eq_error.1 h with hl | ⟨⟨whenTrue, s₂⟩, hl, h⟩
        · exact (parseAssignment_blames hl).mono hrest
        have htrue := (parseAssignment_reads (Nat.add_zero budget) hl).rest_subset
        have hrest₂ : s₂.rest ⊆ s.rest := List.Subset.trans htrue hrest
        rcases bind_eq_error.1 h with hx | ⟨s₃, hx, h⟩
        · exact (ParseState.blamed_expect hx).mono hrest₂
        obtain ⟨u, us, hs₂, -, rfl⟩ := ParseState.expect_eq_ok hx
        rw [hs₂] at hrest₂
        have hrest₃ : us ⊆ s.rest := fun v hv => hrest₂ (List.mem_cons_of_mem u hv)
        rcases bind_eq_error.1 h with hr | ⟨⟨whenFalse, s₄⟩, -, h⟩
        · exact (parseAssignment_blames hr).mono hrest₃
        · cases h
      · cases h
termination_by (budget, 10)

theorem parseChain_blames {level budget : Nat} {s : ParseState} {e : ParseError}
    (h : parseChain stop level budget s = .error e) : BlamedIn stop s.rest e := by
  rw [parseChain] at h
  split at h
  · rcases bind_eq_error.1 h with hf | ⟨⟨first, s₁⟩, hf, h⟩
    · exact parseChain_blames hf
    · have hfirst := (parseChain_reads (Nat.add_zero budget) hf).rest_subset
      exact (parseChainRest_blames h).mono hfirst
  · exact parsePrefix_blames h
termination_by (budget, 3 + (6 - level))

theorem parseChainRest_blames {level budget : Nat} {left : Expr} {s : ParseState} {e : ParseError}
    (h : parseChainRest stop level budget left s = .error e) : BlamedIn stop s.rest e := by
  rw [parseChainRest] at h
  split at h
  · cases h
  · next t rest hs =>
    have hrest : rest ⊆ s.rest := hs ▸ List.subset_cons_self t rest
    split at h
    · split at h
      · cases budget with
        | zero =>
          cases h
          exact (ParseState.blamed_tooDeep { s with rest }).mono hrest
        | succ budget =>
          rcases bind_eq_error.1 h with hr | ⟨⟨right, s₁⟩, hr, h⟩
          · exact (parseChain_blames hr).mono hrest
          · have hright := (parseChain_reads (Nat.add_zero budget) hr).rest_subset
            exact (parseChainRest_blames h).mono (List.Subset.trans hright hrest)
      · cases h
    · cases h
termination_by (budget, 0)

theorem parsePrefix_blames {budget : Nat} {s : ParseState} {e : ParseError}
    (h : parsePrefix stop budget s = .error e) : BlamedIn stop s.rest e := by
  rw [parsePrefix] at h
  split at h
  · exact parsePrimary_blames h
  · next t rest hs =>
    have hrest : rest ⊆ s.rest := hs ▸ List.subset_cons_self t rest
    split at h
    · split at h
      · cases budget with
        | zero =>
          cases h
          exact (ParseState.blamed_tooDeep { s with rest }).mono hrest
        | succ budget =>
          rcases bind_eq_error.1 h with he | ⟨⟨operand, s₁⟩, -, h⟩
          · exact (parsePrefix_blames he).mono hrest
          · cases h
      · exact parsePrimary_blames h
    · exact parsePrimary_blames h
termination_by (budget, 2)

theorem parsePrimary_blames {budget : Nat} {s : ParseState} {e : ParseError}
    (h : parsePrimary stop budget s = .error e) : BlamedIn stop s.rest e := by
  rw [parsePrimary] at h
  split at h
  · cases h
    exact s.blamed_unexpected _
  · next t rest hs =>
    have hrest : rest ⊆ s.rest := hs ▸ List.subset_cons_self t rest
    split at h
    · rcases bind_eq_error.1 h with he | ⟨⟨inner, s₁⟩, he, h⟩
      · exact (parseAssignment_blames he).mono hrest
      · have hinner := (parseAssignment_reads (Nat.add_zero budget) he).rest_subset
        rcases bind_eq_error.1 h with hx | ⟨s₂, -, h⟩
        · exact (ParseState.blamed_expect hx).mono (List.Subset.trans hinner hrest)
        · cases h
    · cases h
    · cases h
    · cases h
      exact s.blamed_unexpected _
termination_by (budget, 1)

end

/-! ### Clauses -/

section
variable {ts : List Token} {c : Clause} {cs : List Clause} {names : List String} {e : ParseError}

/-- A clause has tokens of the list that was cut, and a token of it ends the clause or the list's
own end does. -/
theorem mem_clauses {separator : Mark} {last : Stop} (h : c ∈ clauses separator last ts) :
    c.tokens ⊆ ts ∧ (c.stop = last ∨ ∃ t ∈ ts, c.stop = .token t) := by
  induction ts using cut_induction separator with
  | free ts hfree =>
    rw [clauses_of_free hfree] at h
    obtain rfl := List.mem_singleton.1 h
    exact ⟨List.Subset.refl ts, .inl rfl⟩
  | cut ts t us hts ht ih =>
    rw [clauses_append_cons hts ht] at h
    rcases List.mem_cons.1 h with rfl | h
    · exact ⟨List.subset_append_left _ _,
        .inr ⟨t, List.mem_append_right _ List.mem_cons_self, rfl⟩⟩
    · have hsub : us ⊆ ts ++ t :: us :=
        fun u hu => List.mem_append_right _ (List.mem_cons_of_mem _ hu)
      obtain ⟨htokens, hstop⟩ := ih h
      refine ⟨List.Subset.trans htokens hsub, ?_⟩
      rcases hstop with hstop | ⟨u, hu, hstop⟩
      · exact .inl hstop
      · exact .inr ⟨u, hsub hu, hstop⟩

theorem BlamedIn.of_clause {separator : Mark} {last : Stop} (h : BlamedIn c.stop c.tokens e)
    (hc : c ∈ clauses separator last ts) : BlamedIn last ts e := by
  obtain ⟨htokens, hstop⟩ := mem_clauses hc
  rcases h with ⟨t, ht, hblamed⟩ | hblamed
  · exact .inl ⟨t, htokens ht, hblamed⟩
  · rcases hstop with hstop | ⟨t, ht, hstop⟩
    · exact .inr (hstop ▸ hblamed)
    · rw [hstop] at hblamed
      cases hblamed with
      | token hblamed => exact .inl ⟨t, ht, hblamed⟩

theorem finishClause_blames {stop : Stop} {s : ParseState}
    (h : finishClause stop s = .error e) : BlamedIn stop s.rest e := by
  unfold finishClause at h
  split at h
  · cases h
  · cases h
    exact s.blamed_unexpected _

theorem parseAll_eq_error
    {parse : List String → Clause → Except ParseError (List Expr × List String)}
    (h : parseAll parse names cs = .error e) :
    ∃ c ∈ cs, ∃ names', parse names' c = .error e := by
  induction cs generalizing names with
  | nil => cases h
  | cons c cs ih =>
    rw [parseAll] at h
    rcases bind_eq_error.1 h with hc | ⟨⟨es, names₁⟩, -, h⟩
    · exact ⟨c, List.mem_cons_self, names, hc⟩
    · rcases bind_eq_error.1 h with hcs | ⟨⟨fs, names₂⟩, -, h⟩
      · obtain ⟨d, hd, names', hparse⟩ := ih hcs
        exact ⟨d, List.mem_cons_of_mem c hd, names', hparse⟩
      · cases h

/-- An assignment that must fill the rest of a clause. -/
theorem whole_blames {α : Type} {stop : Stop} {s : ParseState}
    {f : Expr × ParseState → List String → α}
    (h : (parseAssignment stop maxNesting s >>= fun r =>
      finishClause stop r.2 >>= fun names => pure (f r names)) = .error e) :
    BlamedIn stop s.rest e := by
  rcases bind_eq_error.1 h with hv | ⟨⟨value, s₁⟩, hv, h⟩
  · exact parseAssignment_blames hv
  · have hrest := (parseAssignment_reads (Nat.add_zero maxNesting) hv).rest_subset
    rcases bind_eq_error.1 h with hf | ⟨names, -, h⟩
    · exact (finishClause_blames hf).mono hrest
    · cases h

theorem parseDeclarator_blames (h : parseDeclarator names c = .error e) :
    BlamedIn c.stop c.tokens e := by
  obtain ⟨tokens, stop⟩ := c
  unfold parseDeclarator at h
  dsimp only at h ⊢
  split at h
  · cases h
    exact ParseState.blamed_unexpected ⟨[], names⟩ _
  · next t rest =>
    split at h
    · rw [ParseState.slot_eq] at h
      dsimp only at h
      split at h
      · cases h
      · next u rest =>
        split at h
        · refine (whole_blames h).mono ?_
          intro v hv
          exact List.mem_cons_of_mem _ (List.mem_cons_of_mem _ hv)
        · cases h
          refine (ParseState.blamed_unexpected ⟨u :: rest, _⟩ _).mono ?_
          exact List.subset_cons_self t (u :: rest)
    · cases h
      exact ParseState.blamed_unexpected ⟨t :: rest, names⟩ _

theorem parseClause_blames (h : parseClause names c = .error e) :
    BlamedIn c.stop c.tokens e := by
  obtain ⟨tokens, stop⟩ := c
  unfold parseClause at h
  dsimp only at h ⊢
  split at h
  · cases h
  · next t rest =>
    split at h
    · obtain ⟨d, hd, names', hparse⟩ := parseAll_eq_error h
      have hblamed := (parseDeclarator_blames hparse).of_clause hd
      exact hblamed.mono (List.subset_cons_self t rest)
    · exact whole_blames h

/-- What the parser refuses is at a token of the text or at its end. -/
theorem parseTokens_blames {length : Nat} {tokens : List Token}
    (h : parseTokens length tokens = .error e) : BlamedIn (.endOfText length) tokens e := by
  rw [parseTokens] at h
  rcases bind_eq_error.1 h with hp | ⟨⟨es, names⟩, -, h⟩
  · obtain ⟨c, hc, names', hparse⟩ := parseAll_eq_error hp
    exact (parseClause_blames hparse).of_clause hc
  · cases h

end

/-! ### Places in the source -/

/-- The part of the source that the message of a fault quotes. -/
def LexicalFault.quoted : LexicalFault → String
  | unexpected c => String.singleton c
  | invalidNumber => ""
  | numberOutOfRange digits => digits

/-- The part of the source that the message quotes. -/
def ParseCause.quoted : ParseCause → String
  | lexical fault => fault.quoted
  | unexpected _ written => written
  | unexpectedEnd _ | invalidTarget | tooDeep => ""

section
variable {source text : String} {offset : Nat}

/-- Every token stands at its place in the source. -/
theorem standsAt_of_mem_scan {t : Token} (h : t ∈ scan source) :
    StandsAt source t.start t.written := by
  obtain ⟨before, c, more, rest, hsource, -, rfl⟩ := exists_split_of_mem_scan h
  exact ⟨before, rest, by rw [hsource, String.toList_ofList], rfl⟩

/-- The message of a fault quotes the beginning of the text that the fault was written as. -/
theorem quoted_isPrefix {c : Char} {more : List Char} {next : Option Char} {f : LexicalFault}
    (h : Lexeme.ofText c more next = .fault f) : f.quoted.toList <+: c :: more := by
  unfold Lexeme.ofText at h
  dsimp only at h
  split at h
  · split at h <;> nomatch h
  split at h
  · split at h
    · cases h
      exact List.nil_prefix
    split at h
    · cases h
    · cases h
      exact ⟨[], (List.append_nil _).trans String.toList_ofList⟩
  split at h
  · cases h
  split at h
  · cases h
  · cases h
    rw [LexicalFault.quoted, String.toList_singleton]
    exact ⟨more, rfl⟩

theorem standsAt_of_blamed {t : Token} {e : ParseError} (ht : t ∈ scan source)
    (h : t.Blamed e) : StandsAt source e.offset e.cause.quoted := by
  have hstands := standsAt_of_mem_scan ht
  cases h with
  | @lexical f hf =>
    obtain ⟨before, c, rest, -, rfl⟩ := mem_scanFrom ht
    have hpre : f.quoted.toList <+: (String.ofList (c :: continuation c rest)).toList := by
      rw [String.toList_ofList]
      exact quoted_isPrefix hf
    have htake := hstands.take hpre
    rwa [String.ofList_toList] at htake
  | unexpected wanted => exact hstands
  | invalidTarget | tooDeep => exact hstands.nil

/-- An error of the parser is between two characters of the source, and what its message quotes
follows there. -/
theorem Program.standsAt_of_parse_error {e : ParseError} (h : parse source = .error e) :
    StandsAt source e.offset e.cause.quoted := by
  rcases parseTokens_blames h with ⟨t, ht, hblamed⟩ | hstop
  · exact standsAt_of_blamed ht hblamed
  · cases hstop with
    | unexpectedEnd | tooDeep => exact standsAt_end source

end

end Phrasebook.Plural
