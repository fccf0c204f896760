import Phrasebook.Proofs.Plural.Grammar

/-!
# What a reader takes is a phrase

When a reader of the parser succeeds, the tokens it took derive the tree it gives (`Reads`,
`parseAssignment_reads`).  The budget it was called with and the nesting count of the derivation add
up to the limit.
-/

namespace Phrasebook.Plural

theorem bind_eq_ok {ε α β : Type} {x : Except ε α} {f : α → Except ε β} {b : β} :
    x >>= f = .ok b ↔ ∃ a, x = .ok a ∧ f a = .ok b := by
  constructor
  · intro h
    cases x with
    | error e => nomatch h
    | ok a => exact ⟨a, rfl, h⟩
  · rintro ⟨a, rfl, hf⟩
    exact hf

/-! ### One production at a time -/

/-- From state `s` to state `s'`, tokens were taken that are a `phrase` with the tree `e`.  The
slots of `e` are places in the names of `s'`, and so in any longer list of names. -/
def Reads (limit : Nat) (phrase : Phrase) (depth : Nat) (s : ParseState) (e : Expr)
    (s' : ParseState) : Prop :=
  ∃ used, s.rest = used ++ s'.rest ∧ s'.names = addNames s.names (namesOf (lexemes used)) ∧
    ∀ all, s'.names <+: all → Derives limit all.idxOf phrase depth (lexemes used) e

section
variable {limit depth level count : Nat} {phrase : Phrase} {s s₁ s₂ s₃ : ParseState}
  {c e l r v : Expr} {t : Token} {rest : List Token}

theorem Reads.names_isPrefix (h : Reads limit phrase depth s e s₁) : s.names <+: s₁.names := by
  obtain ⟨used, _, hn, _⟩ := h
  exact hn ▸ prefix_addNames s.names _

/-- A phrase that is another one, with the same tokens. -/
theorem Reads.map {phrase' : Phrase} {depth' : Nat} (h : Reads limit phrase depth s e s₁)
    (f : ∀ {slotOf ls}, Derives limit slotOf phrase depth ls e →
      Derives limit slotOf phrase' depth' ls e) : Reads limit phrase' depth' s e s₁ := by
  obtain ⟨used, hr, hn, hd⟩ := h
  exact ⟨used, hr, hn, fun all ha => f (hd all ha)⟩

theorem Reads.assign {slot : Nat} (hlt : depth < limit)
    (hl : Reads limit .conditional (depth + 1) s (.var slot) s₁) (hs : s₁.rest = t :: rest)
    (ht : t.lexeme = .sign .assign)
    (hv : Reads limit .assignment (depth + 1) { s₁ with rest } v s₂) :
    Reads limit .assignment depth s (.assign slot v) s₂ := by
  have hpre : s₁.names <+: s₂.names := hv.names_isPrefix
  obtain ⟨used, hr, hn, hd⟩ := hl
  obtain ⟨more, hr', hn', hd'⟩ := hv
  refine ⟨used ++ t :: more, ?_, ?_, ?_⟩
  · rw [hr, hs, show rest = more ++ s₂.rest from hr', List.append_assoc, List.cons_append]
  · rw [hn', hn, lexemes_append, lexemes_cons, namesOf_append, addNames_append, ht]
    rfl
  · intro all ha
    rw [lexemes_append, lexemes_cons, ht]
    exact .assign hlt (hd all (hpre.trans ha)) (hd' all ha)

theorem Reads.ternary {u : Token} {us : List Token} (hc : Reads limit (.chain 0) depth s c s₁)
    (hs : s₁.rest = t :: rest) (ht : t.lexeme = .sign .question)
    (hl : Reads limit .assignment depth { s₁ with rest } l s₂) (hs' : s₂.rest = u :: us)
    (hu : u.lexeme = .mark .colon) (hr : Reads limit .assignment depth { s₂ with rest := us } r s₃) :
    Reads limit .conditional depth s (.cond c l r) s₃ := by
  have hpre : s₂.names <+: s₃.names := hr.names_isPrefix
  have hpre' : s₁.names <+: s₂.names := hl.names_isPrefix
  obtain ⟨used, hr₁, hn₁, hd₁⟩ := hc
  obtain ⟨more, hr₂, hn₂, hd₂⟩ := hl
  obtain ⟨last, hr₃, hn₃, hd₃⟩ := hr
  refine ⟨used ++ t :: (more ++ u :: last), ?_, ?_, ?_⟩
  · rw [hr₁, hs, show rest = more ++ s₂.rest from hr₂, hs', show us = last ++ s₃.rest from hr₃]
    simp only [List.append_assoc, List.cons_append]
  · rw [hn₃, hn₂, hn₁, lexemes_append, lexemes_cons, lexemes_append, lexemes_cons, ht, hu,
      namesOf_append, namesOf_cons_of_none rfl, namesOf_append, namesOf_cons_of_none rfl,
      addNames_append, addNames_append]
  · intro all ha
    rw [lexemes_append, lexemes_cons, lexemes_append, lexemes_cons, ht, hu]
    exact .ternary (hd₁ all (hpre'.trans (hpre.trans ha))) (hd₂ all (hpre.trans ha)) (hd₃ all ha)

theorem Reads.next {op : BinaryOperator} (hl : Reads limit (.run op.level count) depth s l s₁)
    (hs : s₁.rest = t :: rest) (ht : t.lexeme = .sign (.operator op))
    (hle : depth + (count + 1) ≤ limit)
    (hr : Reads limit (.chain (op.level + 1)) (depth + (count + 1)) { s₁ with rest } r s₂) :
    Reads limit (.run op.level (count + 1)) depth s (.binary op l r) s₂ := by
  have hpre : s₁.names <+: s₂.names := hr.names_isPrefix
  obtain ⟨used, hr₁, hn₁, hd₁⟩ := hl
  obtain ⟨more, hr₂, hn₂, hd₂⟩ := hr
  refine ⟨used ++ t :: more, ?_, ?_, ?_⟩
  · rw [hr₁, hs, show rest = more ++ s₂.rest from hr₂, List.append_assoc, List.cons_append]
  · rw [hn₂, hn₁, lexemes_append, lexemes_cons, namesOf_append, addNames_append, ht]
    rfl
  · intro all ha
    rw [lexemes_append, lexemes_cons, ht]
    exact .next (hd₁ all (hpre.trans ha)) (mem_operatorsAt.2 rfl) hle (hd₂ all ha)

theorem Reads.unary {sign : Sign} {op : UnaryOperator} (hs : s.rest = t :: rest)
    (ht : t.lexeme = .sign sign) (hop : sign.unary? = some op) (hlt : depth < limit)
    (he : Reads limit .operand (depth + 1) { s with rest } e s₁) :
    Reads limit .operand depth s (.unary op e) s₁ := by
  obtain ⟨used, hr, hn, hd⟩ := he
  refine ⟨t :: used, ?_, ?_, ?_⟩
  · rw [hs, show rest = used ++ s₁.rest from hr, List.cons_append]
  · rw [hn, lexemes_cons, ht, namesOf_cons_of_none rfl]
  · intro all ha
    rw [lexemes_cons, ht]
    exact .unary hop hlt (hd all ha)

theorem Reads.number {value : Int64} (hs : s.rest = t :: rest) (ht : t.lexeme = .number value) :
    Reads limit .primary depth s (.lit value) { s with rest } := by
  refine ⟨[t], hs, ?_, ?_⟩
  · rw [lexemes_cons, ht]
    rfl
  · intro all _
    rw [lexemes_cons, ht]
    exact .number value

theorem Reads.name {x : String} (hs : s.rest = t :: rest) (ht : t.lexeme = .name x) :
    Reads limit .primary depth s (.var ((addName s.names x).idxOf x))
      ⟨rest, addName s.names x⟩ := by
  refine ⟨[t], hs, ?_, ?_⟩
  · rw [lexemes_cons, ht]
    rfl
  · intro all ha
    rw [lexemes_cons, ht, ha.idxOf_eq_of_mem (mem_addName s.names x)]
    exact .name x

theorem Reads.group {u : Token} {us : List Token} (hs : s.rest = t :: rest)
    (ht : t.lexeme = .mark .openParen) (he : Reads limit .assignment depth { s with rest } e s₁)
    (hs' : s₁.rest = u :: us) (hu : u.lexeme = .mark .closeParen) :
    Reads limit .primary depth s e { s₁ with rest := us } := by
  obtain ⟨used, hr, hn, hd⟩ := he
  refine ⟨t :: (used ++ [u]), ?_, ?_, ?_⟩
  · rw [hs, show rest = used ++ s₁.rest from hr, hs']
    simp only [List.cons_append, List.append_assoc, List.nil_append]
  · show s₁.names = _
    rw [hn, lexemes_cons, lexemes_append, lexemes_cons, ht, hu, namesOf_cons_of_none rfl,
      namesOf_append, addNames_append]
    rfl
  · intro all ha
    rw [lexemes_cons, lexemes_append, lexemes_cons, ht, hu]
    exact .group (hd all ha)

end

/-! ### The readers -/

theorem ParseState.expect_eq_ok {stop : Stop} {s s' : ParseState} {m : Mark}
    (h : s.expect stop m = .ok s') :
    ∃ t rest, s.rest = t :: rest ∧ t.lexeme = .mark m ∧ s' = { s with rest } := by
  unfold ParseState.expect at h
  split at h
  · next t rest hs =>
    split at h
    · next ht =>
      cases h
      exact ⟨t, rest, hs, ht, rfl⟩
    · cases h
  · cases h

variable {limit : Nat} {stop : Stop}

mutual

theorem parseAssignment_reads {budget depth : Nat} {s s' : ParseState} {e : Expr}
    (hb : budget + depth = limit) (h : parseAssignment stop budget s = .ok (e, s')) :
    Reads limit .assignment depth s e s' := by
  match budget with
  | 0 =>
    rw [parseAssignment] at h
    cases h
  | budget + 1 =>
    have hlt : depth < limit := by omega
    rw [parseAssignment] at h
    obtain ⟨⟨left, s₁⟩, hl, h⟩ := bind_eq_ok.1 h
    have hleft : Reads limit .conditional (depth + 1) s left s₁ :=
      parseConditional_reads (by omega) hl
    dsimp only at h
    split at h
    · cases h
      exact hleft.map (.value hlt)
    · next t rest hs =>
      split at h
      · next ht =>
        split at h
        · next slot =>
          obtain ⟨⟨value, s₂⟩, hv, h⟩ := bind_eq_ok.1 h
          cases h
          exact .assign hlt hleft hs ht (parseAssignment_reads (by omega) hv)
        · cases h
      · cases h
        exact hleft.map (.value hlt)
termination_by (budget, 0)

theorem parseConditional_reads {budget depth : Nat} {s s' : ParseState} {e : Expr}
    (hb : budget + depth = limit) (h : parseConditional stop budget s = .ok (e, s')) :
    Reads limit .conditional depth s e s' := by
  rw [parseConditional] at h
  obtain ⟨⟨condition, s₁⟩, hc, h⟩ := bind_eq_ok.1 h
  have hcond := parseChain_reads hb hc
  dsimp only at h
  split at h
  · cases h
    exact hcond.map .condition
  · next t rest hs =>
    split at h
    · next ht =>
      obtain ⟨⟨whenTrue, s₂⟩, hl, h⟩ := bind_eq_ok.1 h
      obtain ⟨s₃, hx, h⟩ := bind_eq_ok.1 h
      obtain ⟨⟨whenFalse, s₄⟩, hr, h⟩ := bind_eq_ok.1 h
      cases h
      obtain ⟨u, us, hs', hu, rfl⟩ := ParseState.expect_eq_ok hx
      exact .ternary hcond hs ht (parseAssignment_reads hb hl) hs' hu (parseAssignment_reads hb hr)
    · cases h
      exact hcond.map .condition
termination_by (budget, 10)

theorem parseChain_reads {level budget depth : Nat} {s s' : ParseState} {e : Expr}
    (hb : budget + depth = limit) (h : parseChain stop level budget s = .ok (e, s')) :
    Reads limit (.chain level) depth s e s' := by
  rw [parseChain] at h
  split at h
  · next hlevel =>
    obtain ⟨⟨first, s₁⟩, hf, h⟩ := bind_eq_ok.1 h
    have hfirst := (parseChain_reads hb hf).map (.first hlevel)
    obtain ⟨count, hrun⟩ := parseChainRest_reads hfirst hb h
    exact hrun.map .chain
  · next hlevel => exact (parsePrefix_reads hb h).map (.tightest (by omega))
termination_by (budget, 3 + (6 - level))

/-- What was read of a chain so far, and the rest of it, are one run. -/
theorem parseChainRest_reads {level count budget depth : Nat} {left e : Expr}
    {s₀ s s' : ParseState} (hl : Reads limit (.run level count) depth s₀ left s)
    (hb : budget + (depth + count) = limit)
    (h : parseChainRest stop level budget left s = .ok (e, s')) :
    ∃ count', Reads limit (.run level count') depth s₀ e s' := by
  rw [parseChainRest] at h
  split at h
  · cases h
    exact ⟨count, hl⟩
  · next t rest hs =>
    split at h
    · next op ht =>
      split at h
      · next hlevel =>
        subst hlevel
        match budget with
        | 0 => cases h
        | budget + 1 =>
          obtain ⟨⟨right, s₁⟩, hr, h⟩ := bind_eq_ok.1 h
          have hright : Reads limit (.chain (op.level + 1)) (depth + (count + 1))
              { s with rest } right s₁ := parseChain_reads (by omega) hr
          have hnext := hl.next hs ht (by omega) hright
          exact parseChainRest_reads hnext (by omega) h
      · cases h
        exact ⟨count, hl⟩
    · cases h
      exact ⟨count, hl⟩
termination_by (budget, 0)

theorem parsePrefix_reads {budget depth : Nat} {s s' : ParseState} {e : Expr}
    (hb : budget + depth = limit) (h : parsePrefix stop budget s = .ok (e, s')) :
    Reads limit .operand depth s e s' := by
  rw [parsePrefix] at h
  split at h
  · exact (parsePrimary_reads hb h).map .primary
  · next t rest hs =>
    split at h
    · next sign ht =>
      split at h
      · next op hop =>
        match budget with
        | 0 => cases h
        | budget + 1 =>
          obtain ⟨⟨operand, s₁⟩, he, h⟩ := bind_eq_ok.1 h
          cases h
          exact .unary hs ht hop (by omega) (parsePrefix_reads (by omega) he)
      · exact (parsePrimary_reads hb h).map .primary
    · exact (parsePrimary_reads hb h).map .primary
termination_by (budget, 2)

theorem parsePrimary_reads {budget depth : Nat} {s s' : ParseState} {e : Expr}
    (hb : budget + depth = limit) (h : parsePrimary stop budget s = .ok (e, s')) :
    Reads limit .primary depth s e s' := by
  rw [parsePrimary] at h
  split at h
  · cases h
  · next t rest hs =>
    split at h
    · next ht =>
      obtain ⟨⟨inner, s₁⟩, he, h⟩ := bind_eq_ok.1 h
      obtain ⟨s₂, hx, h⟩ := bind_eq_ok.1 h
      cases h
      obtain ⟨u, us, hs', hu, rfl⟩ := ParseState.expect_eq_ok hx
      exact .group hs ht (parseAssignment_reads hb he) hs' hu
    · next value ht =>
      cases h
      exact .number hs ht
    · next x ht =>
      rw [ParseState.slot_eq] at h
      cases h
      exact .name hs ht
    · cases h
termination_by (budget, 1)

end

end Phrasebook.Plural
