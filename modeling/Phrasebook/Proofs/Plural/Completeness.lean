import Phrasebook.Proofs.Plural.Soundness

/-!
# What is a phrase is read

A reader that meets the tokens of a phrase takes exactly these and gives the tree of the phrase
(`Accepts`, `Derives.accepts`), provided the token after them does not belong to a longer phrase
(`Ends`).  With less budget than the derivation needs it may refuse the phrase, but then for its
nesting and for no other cause (`TooDeep`, `Yields`).
-/

namespace Phrasebook.Plural

/-! ### Results up to the nesting limit -/

/-- The levels `used` do not reach the limit, and the result is that there were not enough. -/
def TooDeep {α : Type} (limit used : Nat) (r : Except ParseError α) : Prop :=
  used < limit ∧ ∃ offset, r = .error ⟨.tooDeep, offset⟩

def Yields {α : Type} (limit used : Nat) (r r' : Except ParseError α) : Prop :=
  r = r' ∨ TooDeep limit used r

section
variable {α β : Type} {limit used used' : Nat}

theorem TooDeep.bind {r : Except ParseError α} (h : TooDeep limit used r) (hu : used' ≤ used)
    (f : α → Except ParseError β) : TooDeep limit used' (r >>= f) := by
  obtain ⟨hlt, offset, rfl⟩ := h
  exact ⟨by omega, offset, rfl⟩

theorem Yields.bind {r : Except ParseError α} {a : α} {f : α → Except ParseError β}
    {r' : Except ParseError β} (h : Yields limit used r (.ok a)) (hu : used' ≤ used)
    (hf : Yields limit used' (f a) r') : Yields limit used' (r >>= f) r' := by
  rcases h with rfl | hdeep
  · exact hf
  · exact .inr (hdeep.bind hu f)

/-- Where the levels reach the limit, nothing is too deep. -/
theorem Yields.eq {r r' : Except ParseError α} (h : Yields limit limit r r') : r = r' := by
  rcases h with h | ⟨hlt, -⟩
  · exact h
  · exact absurd hlt (Nat.lt_irrefl _)

end

/-! ### One step of each reader -/

section
variable {stop : Stop} {limit used budget level : Nat} {s : ParseState} {names : List String}
  {e left : Expr} {t : Token} {rest : List Token} {result : Except ParseError (Expr × ParseState)}

theorem parseAssignment_zero :
    parseAssignment stop 0 s = .error ⟨.tooDeep, s.offset stop⟩ := by
  rw [parseAssignment]

theorem parseAssignment_value
    (h : Yields limit used (parseConditional stop budget s) (.ok (e, ⟨rest, names⟩)))
    (hr : ∀ t ts, rest = t :: ts → t.lexeme ≠ .sign .assign) :
    Yields limit used (parseAssignment stop (budget + 1) s) (.ok (e, ⟨rest, names⟩)) := by
  rw [parseAssignment]
  refine h.bind (Nat.le_refl used) (.inl ?_)
  cases rest with
  | nil => rfl
  | cons t ts => exact if_neg (hr t ts rfl)

theorem parseAssignment_assign {slot : Nat} {s' : ParseState}
    (h : Yields limit used (parseConditional stop budget s) (.ok (.var slot, ⟨t :: rest, names⟩)))
    (ht : t.lexeme = .sign .assign)
    (hv : Yields limit used (parseAssignment stop budget ⟨rest, names⟩) (.ok (e, s'))) :
    Yields limit used (parseAssignment stop (budget + 1) s) (.ok (.assign slot e, s')) := by
  rw [parseAssignment]
  refine h.bind (Nat.le_refl used) ?_
  dsimp only
  rw [if_pos ht]
  exact hv.bind (Nat.le_refl used) (.inl rfl)

theorem parseConditional_condition
    (h : Yields limit used (parseChain stop 0 budget s) (.ok (e, ⟨rest, names⟩)))
    (hr : ∀ t ts, rest = t :: ts → t.lexeme ≠ .sign .question) :
    Yields limit used (parseConditional stop budget s) (.ok (e, ⟨rest, names⟩)) := by
  rw [parseConditional]
  refine h.bind (Nat.le_refl used) (.inl ?_)
  cases rest with
  | nil => rfl
  | cons t ts => exact if_neg (hr t ts rfl)

theorem ParseState.expect_mark {m : Mark} (ht : t.lexeme = .mark m) :
    ParseState.expect stop ⟨t :: rest, names⟩ m = .ok ⟨rest, names⟩ := by
  unfold ParseState.expect
  exact if_pos ht

theorem parseConditional_ternary {u : Token} {us : List Token} {names' : List String} {l r : Expr}
    {s' : ParseState}
    (h : Yields limit used (parseChain stop 0 budget s) (.ok (e, ⟨t :: rest, names⟩)))
    (ht : t.lexeme = .sign .question)
    (hl : Yields limit used (parseAssignment stop budget ⟨rest, names⟩)
      (.ok (l, ⟨u :: us, names'⟩)))
    (hu : u.lexeme = .mark .colon)
    (hr : Yields limit used (parseAssignment stop budget ⟨us, names'⟩) (.ok (r, s'))) :
    Yields limit used (parseConditional stop budget s) (.ok (.cond e l r, s')) := by
  rw [parseConditional]
  refine h.bind (Nat.le_refl used) ?_
  dsimp only
  rw [if_pos ht]
  refine hl.bind (Nat.le_refl used) ?_
  dsimp only
  rw [ParseState.expect_mark hu]
  exact hr.bind (Nat.le_refl used) (.inl rfl)

theorem parseChain_first (hlevel : level < 6)
    (h : Yields limit used (parseChain stop (level + 1) budget s) (.ok (e, ⟨rest, names⟩))) :
    Yields limit used (parseChain stop level budget s)
      (parseChainRest stop level budget e ⟨rest, names⟩) := by
  rw [parseChain, if_pos hlevel]
  exact h.bind (Nat.le_refl used) (.inl rfl)

theorem parseChain_tightest (h : 6 ≤ level) :
    parseChain stop level budget s = parsePrefix stop budget s := by
  rw [parseChain, if_neg (by omega)]

theorem parseChainRest_end
    (hr : ∀ t ts, rest = t :: ts → ∀ op, t.lexeme = .sign (.operator op) → op.level ≠ level) :
    parseChainRest stop level budget left ⟨rest, names⟩ = .ok (left, ⟨rest, names⟩) := by
  rw [parseChainRest]
  cases rest with
  | nil => rfl
  | cons t ts =>
    dsimp only
    split
    · next op ht => exact if_neg (hr t ts rfl op ht)
    · rfl

theorem parseChainRest_zero {op : BinaryOperator} (ht : t.lexeme = .sign (.operator op)) :
    parseChainRest stop op.level 0 left ⟨t :: rest, names⟩ =
      .error ⟨.tooDeep, ParseState.offset stop ⟨rest, names⟩⟩ := by
  rw [parseChainRest]
  simp only [ht, if_true]

theorem parseChainRest_next {op : BinaryOperator} {r : Expr} {s' : ParseState}
    (ht : t.lexeme = .sign (.operator op))
    (h : Yields limit used (parseChain stop (op.level + 1) budget ⟨rest, names⟩) (.ok (r, s'))) :
    Yields limit used (parseChainRest stop op.level (budget + 1) left ⟨t :: rest, names⟩)
      (parseChainRest stop op.level budget (.binary op left r) s') := by
  rw [parseChainRest]
  simp only [ht, if_true]
  exact h.bind (Nat.le_refl used) (.inl rfl)

theorem parsePrefix_zero {sign : Sign} {op : UnaryOperator} (ht : t.lexeme = .sign sign)
    (hop : sign.unary? = some op) :
    parsePrefix stop 0 ⟨t :: rest, names⟩ =
      .error ⟨.tooDeep, ParseState.offset stop ⟨rest, names⟩⟩ := by
  rw [parsePrefix]
  simp only [ht, hop]

theorem parsePrefix_unary {sign : Sign} {op : UnaryOperator} {s' : ParseState}
    (ht : t.lexeme = .sign sign) (hop : sign.unary? = some op)
    (h : Yields limit used (parsePrefix stop budget ⟨rest, names⟩) (.ok (e, s'))) :
    Yields limit used (parsePrefix stop (budget + 1) ⟨t :: rest, names⟩)
      (.ok (.unary op e, s')) := by
  rw [parsePrefix]
  simp only [ht, hop]
  exact h.bind (Nat.le_refl used) (.inl rfl)

theorem parsePrefix_primary (ht : ∀ sign, t.lexeme ≠ .sign sign) :
    parsePrefix stop budget ⟨t :: rest, names⟩ = parsePrimary stop budget ⟨t :: rest, names⟩ := by
  rw [parsePrefix]
  dsimp only
  split
  · next sign h => exact absurd h (ht sign)
  · rfl

theorem parsePrimary_number {v : Int64} (ht : t.lexeme = .number v) :
    parsePrimary stop budget ⟨t :: rest, names⟩ = .ok (.lit v, ⟨rest, names⟩) := by
  rw [parsePrimary]
  simp only [ht]
  rfl

theorem parsePrimary_name {x : String} (ht : t.lexeme = .name x) :
    parsePrimary stop budget ⟨t :: rest, names⟩ =
      .ok (.var ((addName names x).idxOf x), ⟨rest, addName names x⟩) := by
  rw [parsePrimary]
  simp only [ht, ParseState.slot_eq]
  rfl

theorem parsePrimary_group {u : Token} {us : List Token} {names' : List String}
    (ht : t.lexeme = .mark .openParen)
    (h : Yields limit used (parseAssignment stop budget ⟨rest, names⟩)
      (.ok (e, ⟨u :: us, names'⟩)))
    (hu : u.lexeme = .mark .closeParen) :
    Yields limit used (parsePrimary stop budget ⟨t :: rest, names⟩) (.ok (e, ⟨us, names'⟩)) := by
  rw [parsePrimary]
  simp only [ht]
  refine h.bind (Nat.le_refl used) (.inl ?_)
  dsimp only
  rw [ParseState.expect_mark hu]
  rfl

end

/-! ### What follows a phrase -/

/-- The lexeme `l`, coming after a phrase with the tree `e`, makes a longer phrase of it. -/
def Extends : Phrase → Expr → Lexeme → Prop
  | .assignment, _, l =>
      (∃ op, l = .sign (.operator op)) ∨ l = .sign .question ∨ l = .sign .assign
  | .conditional, e, l =>
      (∃ op, l = .sign (.operator op)) ∨ l = .sign .question ∨
        (l = .sign .assign ∧ ∀ slot, e ≠ .var slot)
  | .chain level, _, l => ∃ op : BinaryOperator, level ≤ op.level ∧ l = .sign (.operator op)
  | .run level _, _, l => ∃ op : BinaryOperator, level < op.level ∧ l = .sign (.operator op)
  | .operand, _, _ | .primary, _, _ => False

/-- The tokens `rest` leave a phrase with the tree `e` as long as it is. -/
def Ends (phrase : Phrase) (e : Expr) (rest : List Token) : Prop :=
  ∀ t ts, rest = t :: ts → ¬ Extends phrase e t.lexeme

theorem Ends.nil (phrase : Phrase) (e : Expr) : Ends phrase e [] :=
  fun _ _ h => nomatch h

theorem Ends.cons {phrase : Phrase} {e : Expr} {t : Token} (h : ¬ Extends phrase e t.lexeme)
    (ts : List Token) : Ends phrase e (t :: ts) := by
  intro u us hu
  cases hu
  exact h

theorem Ends.map {phrase phrase' : Phrase} {e e' : Expr} {rest : List Token}
    (h : Ends phrase e rest) (f : ∀ l, Extends phrase' e' l → Extends phrase e l) :
    Ends phrase' e' rest :=
  fun t ts ht hl => h t ts ht (f t.lexeme hl)

theorem Ends.operand (e : Expr) (rest : List Token) : Ends .operand e rest :=
  fun _ _ _ h => h

theorem Ends.primary (e : Expr) (rest : List Token) : Ends .primary e rest :=
  fun _ _ _ h => h

/-! ### One production at a time -/

namespace Phrase

/-- The reader that a phrase is read by.  A run is the beginning of its chain. -/
def read (stop : Stop) : Phrase → Nat → ParseState → Except ParseError (Expr × ParseState)
  | assignment => parseAssignment stop
  | conditional => parseConditional stop
  | chain level | run level _ => parseChain stop level
  | operand => parsePrefix stop
  | primary => parsePrimary stop

/-- What the reader does when it has taken the tokens of the phrase: a chain may go on. -/
def resume (stop : Stop) : Phrase → Nat → Expr → ParseState → Except ParseError (Expr × ParseState)
  | run level count, budget, e, s => parseChainRest stop level (budget - count) e s
  | _, _, e, s => .ok (e, s)

/-- The levels that a phrase has used up at its end. -/
def spent : Phrase → Nat
  | run _ count => count
  | _ => 0

end Phrase

/-- Its reader takes the tokens `ls` of a phrase at `depth`, or it lacks budget. -/
def Accepts (stop : Stop) (limit : Nat) (all : List String) (phrase : Phrase) (depth : Nat)
    (ls : List Lexeme) (e : Expr) : Prop :=
  ∀ budget names used rest, lexemes used = ls → addNames names (namesOf ls) <+: all →
    Ends phrase e rest →
    phrase.spent ≤ budget ∧ phrase.read stop budget ⟨used ++ rest, names⟩ =
        phrase.resume stop budget e ⟨rest, addNames names (namesOf ls)⟩ ∨
      TooDeep limit (budget + depth) (phrase.read stop budget ⟨used ++ rest, names⟩)

theorem lexemes_eq_cons {used : List Token} {l : Lexeme} {ls : List Lexeme}
    (h : lexemes used = l :: ls) : ∃ t us, used = t :: us ∧ t.lexeme = l ∧ lexemes us = ls := by
  obtain ⟨t, us, rfl, ht, hus⟩ := List.map_eq_cons_iff.1 h
  exact ⟨t, us, rfl, ht, hus⟩

theorem lexemes_eq_append_cons {used : List Token} {ls ms : List Lexeme} {l : Lexeme}
    (h : lexemes used = ls ++ l :: ms) :
    ∃ us t vs, used = us ++ t :: vs ∧ lexemes us = ls ∧ t.lexeme = l ∧ lexemes vs = ms := by
  obtain ⟨us, ts, rfl, hus, hts⟩ := List.map_eq_append_iff.1 h
  obtain ⟨t, vs, rfl, ht, hvs⟩ := lexemes_eq_cons hts
  exact ⟨us, t, vs, rfl, hus, ht, hvs⟩

theorem addNames_split {l : Lexeme} (h : l.name? = none) (names : List String)
    (ls ms : List Lexeme) :
    addNames names (namesOf (ls ++ l :: ms)) =
      addNames (addNames names (namesOf ls)) (namesOf ms) := by
  rw [namesOf_append, namesOf_cons_of_none h, addNames_append]

/-- For a phrase that is not a run, acceptance says what the reader yields. -/
theorem Accepts.yields {stop : Stop} {limit depth : Nat} {all : List String} {phrase : Phrase}
    {ls : List Lexeme} {e : Expr} (h : Accepts stop limit all phrase depth ls e) {used : List Token}
    (hu : lexemes used = ls) {names : List String} (ha : addNames names (namesOf ls) <+: all)
    {rest : List Token} (hr : Ends phrase e rest) (budget : Nat) :
    Yields limit (budget + depth) (phrase.read stop budget ⟨used ++ rest, names⟩)
      (phrase.resume stop budget e ⟨rest, addNames names (namesOf ls)⟩) :=
  (h budget names used rest hu ha hr).imp_left And.right

section
variable {stop : Stop} {limit depth level count : Nat} {all : List String}
  {ls ms ns : List Lexeme} {c e l r : Expr}

theorem Accepts.value (hlt : depth < limit)
    (h : Accepts stop limit all .conditional (depth + 1) ls e) :
    Accepts stop limit all .assignment depth ls e := by
  intro budget names used rest hu ha hr
  match budget with
  | 0 => exact .inr ⟨by omega, _, parseAssignment_zero⟩
  | budget + 1 =>
    have hr' : Ends .conditional e rest := by
      refine hr.map ?_
      intro l hl
      rcases hl with hop | hq | ⟨heq, -⟩
      · exact .inl hop
      · exact .inr (.inl hq)
      · exact .inr (.inr heq)
    have hcond := h.yields hu ha hr' budget
    rw [show budget + (depth + 1) = budget + 1 + depth by omega] at hcond
    refine (parseAssignment_value hcond ?_).imp_left fun hok => ⟨Nat.zero_le _, hok⟩
    intro t ts ht hs
    exact hr t ts ht (.inr (.inr hs))

theorem Accepts.assign {slot : Nat} (hlt : depth < limit)
    (hl : Accepts stop limit all .conditional (depth + 1) ls (.var slot))
    (he : Accepts stop limit all .assignment (depth + 1) ms e) :
    Accepts stop limit all .assignment depth (ls ++ .sign .assign :: ms) (.assign slot e) := by
  intro budget names used rest hu ha hr
  obtain ⟨us, t, vs, rfl, hus, ht, hvs⟩ := lexemes_eq_append_cons hu
  rw [addNames_split rfl] at ha ⊢
  rw [List.append_assoc, List.cons_append]
  match budget with
  | 0 => exact .inr ⟨by omega, _, parseAssignment_zero⟩
  | budget + 1 =>
    have hend : Ends .conditional (.var slot) (t :: (vs ++ rest)) := by
      refine .cons ?_ _
      rw [ht]
      rintro (⟨op, h⟩ | h | ⟨-, h⟩)
      · cases h
      · cases h
      · exact h slot rfl
    have hleft := hl.yields hus ((prefix_addNames _ _).trans ha) hend budget
    have hvalue := he.yields hvs ha (hr.map fun _ => id) budget
    rw [show budget + (depth + 1) = budget + 1 + depth by omega] at hleft hvalue
    exact (parseAssignment_assign hleft ht hvalue).imp_left fun hok => ⟨Nat.zero_le _, hok⟩

theorem Accepts.condition (h : Accepts stop limit all (.chain 0) depth ls e) :
    Accepts stop limit all .conditional depth ls e := by
  intro budget names used rest hu ha hr
  have hend : Ends (.chain 0) e rest := by
    refine hr.map ?_
    intro l hl
    obtain ⟨op, -, heq⟩ := hl
    exact .inl ⟨op, heq⟩
  have hchain := h.yields hu ha hend budget
  refine (parseConditional_condition hchain ?_).imp_left fun hok => ⟨Nat.zero_le _, hok⟩
  intro t ts ht hs
  exact hr t ts ht (.inr (.inl hs))

theorem Accepts.ternary (hc : Accepts stop limit all (.chain 0) depth ls c)
    (hl : Accepts stop limit all .assignment depth ms l)
    (hr : Accepts stop limit all .assignment depth ns r) :
    Accepts stop limit all .conditional depth
      (ls ++ .sign .question :: (ms ++ .mark .colon :: ns)) (.cond c l r) := by
  intro budget names used rest hu ha hend
  obtain ⟨us, t, ts, rfl, hus, ht, hts⟩ := lexemes_eq_append_cons hu
  obtain ⟨vs, u, ws, rfl, hvs, hu', hws⟩ := lexemes_eq_append_cons hts
  rw [addNames_split rfl, addNames_split rfl] at ha ⊢
  simp only [List.append_assoc, List.cons_append]
  have hquestion : Ends (.chain 0) c (t :: (vs ++ u :: (ws ++ rest))) := by
    refine .cons ?_ _
    rw [ht]
    rintro ⟨op, -, h⟩
    cases h
  have hcolon : Ends .assignment l (u :: (ws ++ rest)) := by
    refine .cons ?_ _
    rw [hu']
    rintro (⟨op, h⟩ | h | h) <;> nomatch h
  have hlast : Ends .assignment r rest := by
    refine hend.map ?_
    intro x hx
    rcases hx with hop | hq | heq
    · exact .inl hop
    · exact .inr (.inl hq)
    · exact .inr (.inr ⟨heq, fun slot h => nomatch h⟩)
  have ha₂ := (prefix_addNames _ _).trans ha
  have hcond := hc.yields hus ((prefix_addNames _ _).trans ha₂) hquestion budget
  have hleft := hl.yields hvs ha₂ hcolon budget
  have hright := hr.yields hws ha hlast budget
  exact (parseConditional_ternary hcond ht hleft hu' hright).imp_left fun hok =>
    ⟨Nat.zero_le _, hok⟩

theorem Accepts.first (hlevel : level < 6)
    (h : Accepts stop limit all (.chain (level + 1)) depth ls e) :
    Accepts stop limit all (.run level 0) depth ls e := by
  intro budget names used rest hu ha hr
  have hchain := h.yields hu ha (hr.map fun l hl => hl) budget
  exact (parseChain_first hlevel hchain).imp_left fun hok => ⟨Nat.zero_le _, hok⟩

theorem Accepts.next {op : BinaryOperator} (hop : op.level = level)
    (hle : depth + (count + 1) ≤ limit)
    (hl : Accepts stop limit all (.run level count) depth ls l)
    (hr : Accepts stop limit all (.chain (level + 1)) (depth + (count + 1)) ms r) :
    Accepts stop limit all (.run level (count + 1)) depth
      (ls ++ .sign (.operator op) :: ms) (.binary op l r) := by
  subst hop
  intro budget names used rest hu ha hend
  obtain ⟨us, t, vs, rfl, hus, ht, hvs⟩ := lexemes_eq_append_cons hu
  rw [addNames_split rfl] at ha ⊢
  rw [List.append_assoc, List.cons_append]
  have hoperator : Ends (.run op.level count) l (t :: (vs ++ rest)) := by
    refine .cons ?_ _
    rw [ht]
    rintro ⟨op', hlt, h⟩
    cases h
    exact Nat.lt_irrefl _ hlt
  rcases hl budget names us _ hus ((prefix_addNames _ _).trans ha) hoperator with
    ⟨hcount, hrun⟩ | hdeep
  · replace hrun : parseChain stop op.level budget ⟨us ++ t :: (vs ++ rest), names⟩ =
        parseChainRest stop op.level (budget - count) l
          ⟨t :: (vs ++ rest), addNames names (namesOf ls)⟩ := hrun
    replace hcount : count ≤ budget := hcount
    obtain ⟨more, rfl⟩ : ∃ more, budget = more + count := ⟨budget - count, by omega⟩
    rw [Nat.add_sub_cancel] at hrun
    match more with
    | 0 => exact .inr ⟨by omega, _, hrun.trans (parseChainRest_zero ht)⟩
    | more + 1 =>
      have hright := hr.yields hvs ha (hend.map fun x hx => hx) more
      rw [show more + (depth + (count + 1)) = more + 1 + count + depth by omega] at hright
      have hnext : Yields limit (more + 1 + count + depth)
          (parseChainRest stop op.level (more + 1) l _) _ := parseChainRest_next ht hright
      rw [← hrun] at hnext
      refine hnext.imp_left fun hok => ⟨show count + 1 ≤ _ by omega, hok.trans ?_⟩
      show _ = parseChainRest stop op.level (more + 1 + count - (count + 1)) _ _
      rw [show more + 1 + count - (count + 1) = more by omega]
  · exact .inr hdeep

theorem Accepts.chain (h : Accepts stop limit all (.run level count) depth ls e) :
    Accepts stop limit all (.chain level) depth ls e := by
  intro budget names used rest hu ha hr
  have hend : Ends (.run level count) e rest := by
    refine hr.map ?_
    intro l hl
    obtain ⟨op, hlt, heq⟩ := hl
    exact ⟨op, Nat.le_of_lt hlt, heq⟩
  refine (h budget names used rest hu ha hend).imp_left fun ⟨_, hrun⟩ => ⟨Nat.zero_le _, ?_⟩
  refine Eq.trans hrun (parseChainRest_end ?_)
  intro t ts ht op hop heq
  exact hr t ts ht ⟨op, Nat.le_of_eq heq.symm, hop⟩

theorem Accepts.tightest (hlevel : 6 ≤ level) (h : Accepts stop limit all .operand depth ls e) :
    Accepts stop limit all (.chain level) depth ls e := by
  intro budget names used rest hu ha _
  have hoperand := h.yields hu ha (.operand e rest) budget
  replace hoperand : Yields limit (budget + depth) (parsePrefix stop budget _) _ := hoperand
  rw [← parseChain_tightest hlevel] at hoperand
  exact hoperand.imp_left fun hok => ⟨Nat.zero_le _, hok⟩

theorem Accepts.unary {sign : Sign} {op : UnaryOperator} (hop : sign.unary? = some op)
    (hlt : depth < limit) (h : Accepts stop limit all .operand (depth + 1) ls e) :
    Accepts stop limit all .operand depth (.sign sign :: ls) (.unary op e) := by
  intro budget names used rest hu ha _
  obtain ⟨t, us, rfl, ht, hus⟩ := lexemes_eq_cons hu
  rw [namesOf_cons_of_none rfl] at ha ⊢
  match budget with
  | 0 => exact .inr ⟨by omega, _, parsePrefix_zero ht hop⟩
  | budget + 1 =>
    have hoperand := h.yields hus ha (.operand e rest) budget
    rw [show budget + (depth + 1) = budget + 1 + depth by omega] at hoperand
    exact (parsePrefix_unary ht hop hoperand).imp_left fun hok => ⟨Nat.zero_le _, hok⟩

theorem Accepts.primary {x : Lexeme} (hx : ∀ sign, x ≠ .sign sign)
    (h : Accepts stop limit all .primary depth (x :: ls) e) :
    Accepts stop limit all .operand depth (x :: ls) e := by
  intro budget names used rest hu ha _
  have hprimary := h.yields hu ha (.primary e rest) budget
  obtain ⟨t, us, rfl, ht, -⟩ := lexemes_eq_cons hu
  replace hprimary : Yields limit (budget + depth)
    (parsePrimary stop budget ⟨t :: (us ++ rest), names⟩) _ := hprimary
  rw [← parsePrefix_primary (ht ▸ hx)] at hprimary
  exact hprimary.imp_left fun hok => ⟨Nat.zero_le _, hok⟩

theorem Accepts.number (v : Int64) :
    Accepts stop limit all .primary depth [.number v] (.lit v) := by
  intro budget names used rest hu _ _
  obtain ⟨t, us, rfl, ht, hus⟩ := lexemes_eq_cons hu
  rw [List.map_eq_nil_iff.1 hus]
  exact .inl ⟨Nat.zero_le _, parsePrimary_number ht⟩

theorem Accepts.name (x : String) :
    Accepts stop limit all .primary depth [.name x] (.var (all.idxOf x)) := by
  intro budget names used rest hu ha _
  obtain ⟨t, us, rfl, ht, hus⟩ := lexemes_eq_cons hu
  rw [List.map_eq_nil_iff.1 hus]
  replace ha : addName names x <+: all := ha
  refine .inl ⟨Nat.zero_le _, (parsePrimary_name ht).trans ?_⟩
  rw [ha.idxOf_eq_of_mem (mem_addName names x)]
  rfl

theorem Accepts.group (h : Accepts stop limit all .assignment depth ls e) :
    Accepts stop limit all .primary depth (.mark .openParen :: (ls ++ [.mark .closeParen])) e := by
  intro budget names used rest hu ha _
  obtain ⟨t, us, rfl, ht, hus⟩ := lexemes_eq_cons hu
  obtain ⟨vs, u, ws, rfl, hvs, hu', hws⟩ := lexemes_eq_append_cons hus
  rw [namesOf_cons_of_none rfl, addNames_split rfl] at ha ⊢
  rw [List.map_eq_nil_iff.1 hws]
  simp only [List.append_assoc, List.cons_append, List.nil_append]
  have hclose : Ends .assignment e (u :: rest) := by
    refine .cons ?_ _
    rw [hu']
    rintro (⟨op, h⟩ | h | h) <;> nomatch h
  have hinner := h.yields hvs ha hclose budget
  exact (parsePrimary_group ht hinner hu').imp_left fun hok => ⟨Nat.zero_le _, hok⟩

end

/-! ### Every phrase -/

theorem Derives.primary_head {limit depth : Nat} {slotOf : String → Nat} {ls : List Lexeme}
    {e : Expr} (h : Derives limit slotOf .primary depth ls e) :
    ∃ l more, ls = l :: more ∧ ∀ sign, l ≠ .sign sign := by
  cases h with
  | number v => exact ⟨_, _, rfl, fun _ h => nomatch h⟩
  | name x => exact ⟨_, _, rfl, fun _ h => nomatch h⟩
  | group h => exact ⟨_, _, rfl, fun _ h => nomatch h⟩

theorem Derives.accepts {stop : Stop} {limit depth : Nat} {all : List String} {phrase : Phrase}
    {ls : List Lexeme} {e : Expr} (h : Derives limit all.idxOf phrase depth ls e) :
    Accepts stop limit all phrase depth ls e := by
  induction h with
  | value hlt _ ih => exact .value hlt ih
  | assign hlt _ _ ihl ihe => exact .assign hlt ihl ihe
  | condition _ ih => exact .condition ih
  | ternary _ _ _ ihc ihl ihr => exact .ternary ihc ihl ihr
  | chain _ ih => exact .chain ih
  | tightest hlevel _ ih => exact .tightest hlevel ih
  | first hlevel _ ih => exact .first hlevel ih
  | next _ hop hle _ ihl ihr => exact .next (mem_operatorsAt.1 hop) hle ihl ihr
  | unary hop hlt _ ih => exact .unary hop hlt ih
  | primary hp ih =>
    obtain ⟨l, more, rfl, hl⟩ := hp.primary_head
    exact .primary hl ih
  | number v => exact .number v
  | name x => exact .name x
  | group _ ih => exact .group ih

end Phrasebook.Plural
