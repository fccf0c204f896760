import Phrasebook.Proofs.Plural.Completeness

/-!
# What a phrase is stuck at

A reader that fails has taken the beginning of a phrase and met something that no phrase goes on
with, or too little budget.  `Stuck` says so without the reader: which lexemes are such a beginning,
what comes next, and what the obstacle is (`Obstacle`).  Nothing in it depends on what comes after
the next lexeme, nor on the slots of the names (`Derives.reslot`).
-/

namespace Phrasebook.Plural

/-! ### Obstacles -/

/-- Why a phrase goes no further. -/
inductive Obstacle where
  | tooDeep
  | invalidTarget
  | wanted (w : Wanted)
deriving DecidableEq, Repr

/-- What comes next when these tokens are left of a clause. -/
def Stop.ahead (stop : Stop) : List Token → Stop
  | [] => stop
  | t :: _ => .token t

/-- The error of a reader that meets the obstacle at `next`. -/
def Obstacle.error (next : Stop) : Obstacle → ParseError
  | tooDeep => ⟨.tooDeep, next.offset⟩
  | invalidTarget => ⟨.invalidTarget, next.offset⟩
  | wanted w => ParseState.unexpected next ⟨[], []⟩ w

section
variable (stop : Stop) (s : ParseState)

theorem ParseState.unexpected_eq (w : Wanted) :
    s.unexpected stop w = (Obstacle.wanted w).error (stop.ahead s.rest) := by
  obtain ⟨rest, names⟩ := s
  cases rest with
  | nil => cases stop <;> rfl
  | cons t rest => rfl

theorem ParseState.tooDeep_eq :
    (⟨.tooDeep, s.offset stop⟩ : ParseError) = Obstacle.tooDeep.error (stop.ahead s.rest) := by
  obtain ⟨rest, names⟩ := s
  cases rest <;> rfl

theorem Obstacle.offset_error (o : Obstacle) : (o.error stop).offset = stop.offset := by
  cases o with
  | tooDeep | invalidTarget => rfl
  | wanted w =>
    cases stop with
    | endOfText length => rfl
    | token t =>
      unfold error ParseState.unexpected
      dsimp only
      split <;> rfl

end

/-! ### Phrases without slots -/

def Expr.IsVar (e : Expr) : Prop :=
  ∃ slot, e = .var slot

/-- One slot for every name. -/
def noSlot (_ : String) : Nat :=
  0

/-- Which lexemes are a phrase does not depend on the slots of the names, and neither does it
whether the phrase is a variable. -/
theorem Derives.reslot {limit depth : Nat} {slotOf : String → Nat} {phrase : Phrase}
    {ls : List Lexeme} {e : Expr} (h : Derives limit slotOf phrase depth ls e)
    (slotOf' : String → Nat) :
    ∃ e', Derives limit slotOf' phrase depth ls e' ∧ (e'.IsVar ↔ e.IsVar) := by
  have iff_of_not {e e' : Expr} (h : ¬ e.IsVar) (h' : ¬ e'.IsVar) : e'.IsVar ↔ e.IsVar :=
    ⟨fun hv => absurd hv h', fun hv => absurd hv h⟩
  induction h with
  | value hlt _ ih =>
    obtain ⟨e', hd, hvar⟩ := ih
    exact ⟨e', .value hlt hd, hvar⟩
  | assign hlt _ _ ihl ihe =>
    obtain ⟨l', hl, hvar⟩ := ihl
    obtain ⟨slot', rfl⟩ := hvar.2 ⟨_, rfl⟩
    obtain ⟨e', he, -⟩ := ihe
    exact ⟨_, .assign hlt hl he, iff_of_not (fun ⟨_, h⟩ => nomatch h) fun ⟨_, h⟩ => nomatch h⟩
  | condition _ ih =>
    obtain ⟨e', hd, hvar⟩ := ih
    exact ⟨e', .condition hd, hvar⟩
  | ternary _ _ _ ihc iht ihf =>
    obtain ⟨c', hc, -⟩ := ihc
    obtain ⟨t', ht, -⟩ := iht
    obtain ⟨f', hf, -⟩ := ihf
    exact ⟨_, .ternary hc ht hf, iff_of_not (fun ⟨_, h⟩ => nomatch h) fun ⟨_, h⟩ => nomatch h⟩
  | chain _ ih =>
    obtain ⟨e', hd, hvar⟩ := ih
    exact ⟨e', .chain hd, hvar⟩
  | tightest hlevel _ ih =>
    obtain ⟨e', hd, hvar⟩ := ih
    exact ⟨e', .tightest hlevel hd, hvar⟩
  | first hlevel _ ih =>
    obtain ⟨e', hd, hvar⟩ := ih
    exact ⟨e', .first hlevel hd, hvar⟩
  | next _ hop hle _ ihl ihr =>
    obtain ⟨l', hl, -⟩ := ihl
    obtain ⟨r', hr, -⟩ := ihr
    exact ⟨_, .next hl hop hle hr, iff_of_not (fun ⟨_, h⟩ => nomatch h) fun ⟨_, h⟩ => nomatch h⟩
  | unary hop hlt _ ih =>
    obtain ⟨e', he, -⟩ := ih
    exact ⟨_, .unary hop hlt he, iff_of_not (fun ⟨_, h⟩ => nomatch h) fun ⟨_, h⟩ => nomatch h⟩
  | primary _ ih =>
    obtain ⟨e', hd, hvar⟩ := ih
    exact ⟨e', .primary hd, hvar⟩
  | number v => exact ⟨_, .number v, Iff.rfl⟩
  | name x => exact ⟨_, .name x, fun _ => ⟨_, rfl⟩, fun _ => ⟨_, rfl⟩⟩
  | group _ ih =>
    obtain ⟨e', hd, hvar⟩ := ih
    exact ⟨e', .group hd, hvar⟩

/-! ### Phrases that are stuck -/

/-- An operand may begin with the lexeme. -/
def Lexeme.startsOperand : Lexeme → Bool
  | number _ | name _ | mark .openParen => true
  | sign s => s.unary?.isSome
  | mark _ | keyword _ | fault _ => false

/-- What comes next neither makes the phrase with the tree `e` longer nor is it the mark `m`. -/
def Misses (m : Mark) (e : Expr) (next : Option Lexeme) : Prop :=
  ∀ l, next = some l → ¬ Extends .assignment e l ∧ l ≠ .mark m

/-- `Stuck limit next phrase depth ls o`: at nesting count `depth` a `phrase` may begin with the
lexemes `ls`, but it does not go on with `next`, because of the obstacle `o`. -/
inductive Stuck (limit : Nat) (next : Option Lexeme) :
    Phrase → Nat → List Lexeme → Obstacle → Prop
  | tooDeep {depth : Nat} : limit ≤ depth → Stuck limit next .assignment depth [] .tooDeep
  | value {depth : Nat} {ls : List Lexeme} {o : Obstacle} : depth < limit →
      Stuck limit next .conditional (depth + 1) ls o →
      Stuck limit next .assignment depth ls o
  | invalidTarget {depth : Nat} {ls : List Lexeme} {e : Expr} : depth < limit →
      Derives limit noSlot (.chain 0) (depth + 1) ls e → ¬ e.IsVar →
      next = some (.sign .assign) →
      Stuck limit next .assignment depth ls .invalidTarget
  | assign {depth slot : Nat} {ls ms : List Lexeme} {o : Obstacle} : depth < limit →
      Derives limit noSlot .conditional (depth + 1) ls (.var slot) →
      Stuck limit next .assignment (depth + 1) ms o →
      Stuck limit next .assignment depth (ls ++ .sign .assign :: ms) o
  | condition {depth : Nat} {ls : List Lexeme} {o : Obstacle} :
      Stuck limit next (.chain 0) depth ls o →
      Stuck limit next .conditional depth ls o
  | whenTrue {depth : Nat} {ls ms : List Lexeme} {c : Expr} {o : Obstacle} :
      Derives limit noSlot (.chain 0) depth ls c →
      Stuck limit next .assignment depth ms o →
      Stuck limit next .conditional depth (ls ++ .sign .question :: ms) o
  | colon {depth : Nat} {ls ms : List Lexeme} {c t : Expr} :
      Derives limit noSlot (.chain 0) depth ls c →
      Derives limit noSlot .assignment depth ms t → Misses .colon t next →
      Stuck limit next .conditional depth (ls ++ .sign .question :: ms) (.wanted (.mark .colon))
  | whenFalse {depth : Nat} {ls ms ns : List Lexeme} {c t : Expr} {o : Obstacle} :
      Derives limit noSlot (.chain 0) depth ls c →
      Derives limit noSlot .assignment depth ms t →
      Stuck limit next .assignment depth ns o →
      Stuck limit next .conditional depth
        (ls ++ .sign .question :: (ms ++ .mark .colon :: ns)) o
  | first {depth level : Nat} {ls : List Lexeme} {o : Obstacle} : level < 6 →
      Stuck limit next (.chain (level + 1)) depth ls o →
      Stuck limit next (.chain level) depth ls o
  | tightest {depth level : Nat} {ls : List Lexeme} {o : Obstacle} : 6 ≤ level →
      Stuck limit next .operand depth ls o →
      Stuck limit next (.chain level) depth ls o
  | operatorTooDeep {depth level count : Nat} {ls : List Lexeme} {op : BinaryOperator} {l : Expr} :
      Derives limit noSlot (.run level count) depth ls l → op ∈ operatorsAt level →
      limit ≤ depth + count →
      Stuck limit next (.chain level) depth (ls ++ [.sign (.operator op)]) .tooDeep
  | right {depth level count : Nat} {ls ms : List Lexeme} {op : BinaryOperator} {l : Expr}
      {o : Obstacle} :
      Derives limit noSlot (.run level count) depth ls l → op ∈ operatorsAt level →
      depth + (count + 1) ≤ limit →
      Stuck limit next (.chain (level + 1)) (depth + (count + 1)) ms o →
      Stuck limit next (.chain level) depth (ls ++ .sign (.operator op) :: ms) o
  | unaryTooDeep {depth : Nat} {sign : Sign} {op : UnaryOperator} : sign.unary? = some op →
      limit ≤ depth →
      Stuck limit next .operand depth [.sign sign] .tooDeep
  | unary {depth : Nat} {sign : Sign} {ls : List Lexeme} {op : UnaryOperator} {o : Obstacle} :
      sign.unary? = some op → depth < limit →
      Stuck limit next .operand (depth + 1) ls o →
      Stuck limit next .operand depth (.sign sign :: ls) o
  | primary {depth : Nat} {ls : List Lexeme} {o : Obstacle} :
      Stuck limit next .primary depth ls o →
      Stuck limit next .operand depth ls o
  | expression {depth : Nat} : (∀ l, next = some l → l.startsOperand = false) →
      Stuck limit next .primary depth [] (.wanted .expression)
  | inner {depth : Nat} {ls : List Lexeme} {o : Obstacle} :
      Stuck limit next .assignment depth ls o →
      Stuck limit next .primary depth (.mark .openParen :: ls) o
  | closeParen {depth : Nat} {ls : List Lexeme} {e : Expr} :
      Derives limit noSlot .assignment depth ls e → Misses .closeParen e next →
      Stuck limit next .primary depth (.mark .openParen :: ls) (.wanted (.mark .closeParen))

/-! ### Lexemes of expressions -/

/-- Expressions are made of these lexemes. -/
def Lexeme.inExpression : Lexeme → Bool
  | sign _ | number _ | name _ | mark .openParen | mark .closeParen | mark .colon => true
  | mark .semicolon | mark .comma | keyword _ | fault _ => false

theorem Derives.inExpression {limit depth : Nat} {slotOf : String → Nat} {phrase : Phrase}
    {ls : List Lexeme} {e : Expr} (h : Derives limit slotOf phrase depth ls e) :
    ∀ l ∈ ls, l.inExpression = true := by
  induction h with
  | value _ _ ih | condition _ ih | chain _ ih | tightest _ _ ih | first _ _ ih
  | primary _ ih => exact ih
  | assign _ _ _ ihl ihr | next _ _ _ _ ihl ihr =>
    rw [List.forall_mem_append, List.forall_mem_cons]
    exact ⟨ihl, rfl, ihr⟩
  | ternary _ _ _ ihc iht ihf =>
    rw [List.forall_mem_append, List.forall_mem_cons, List.forall_mem_append,
      List.forall_mem_cons]
    exact ⟨ihc, rfl, iht, rfl, ihf⟩
  | unary _ _ _ ih => exact List.forall_mem_cons.2 ⟨rfl, ih⟩
  | number | name => exact List.forall_mem_singleton.2 rfl
  | group _ ih =>
    rw [List.forall_mem_cons, List.forall_mem_append, List.forall_mem_singleton]
    exact ⟨rfl, ih, rfl⟩

section
variable {limit depth : Nat} {next : Option Lexeme} {phrase : Phrase} {ls : List Lexeme}
  {o : Obstacle}

theorem Stuck.inExpression (h : Stuck limit next phrase depth ls o) :
    ∀ l ∈ ls, l.inExpression = true := by
  induction h with
  | tooDeep | expression => exact fun _ h => nomatch h
  | value _ _ ih | condition _ ih | first _ _ ih | tightest _ _ ih | primary _ ih => exact ih
  | invalidTarget _ hd => exact hd.inExpression
  | assign _ hd _ ih | whenTrue hd _ ih | right hd _ _ _ ih =>
    rw [List.forall_mem_append, List.forall_mem_cons]
    exact ⟨hd.inExpression, rfl, ih⟩
  | colon hc ht =>
    rw [List.forall_mem_append, List.forall_mem_cons]
    exact ⟨hc.inExpression, rfl, ht.inExpression⟩
  | whenFalse hc ht _ ih =>
    rw [List.forall_mem_append, List.forall_mem_cons, List.forall_mem_append,
      List.forall_mem_cons]
    exact ⟨hc.inExpression, rfl, ht.inExpression, rfl, ih⟩
  | operatorTooDeep hd =>
    rw [List.forall_mem_append, List.forall_mem_singleton]
    exact ⟨hd.inExpression, rfl⟩
  | unaryTooDeep => exact List.forall_mem_singleton.2 rfl
  | unary _ _ _ ih | inner _ ih => exact List.forall_mem_cons.2 ⟨rfl, ih⟩
  | closeParen hd => exact List.forall_mem_cons.2 ⟨rfl, hd.inExpression⟩

/-- Only `=` comes where nothing can be assigned to. -/
theorem Stuck.next_eq_assign (h : Stuck limit next phrase depth ls o) (ho : o = .invalidTarget) :
    next = some (.sign .assign) := by
  induction h with
  | invalidTarget _ _ _ hnext => exact hnext
  | value _ _ ih | condition _ ih | first _ _ ih | tightest _ _ ih | primary _ ih | assign _ _ _ ih
  | whenTrue _ _ ih | whenFalse _ _ _ ih | right _ _ _ _ ih | unary _ _ _ ih | inner _ ih =>
    exact ih ho
  | tooDeep | colon | operatorTooDeep | unaryTooDeep | expression | closeParen => cases ho

end

/-! ### Where readers stop -/

variable {stop : Stop}

theorem Ends.chain_of_le {level : Nat} (hlevel : 6 ≤ level) (e : Expr) (rest : List Token) :
    Ends (.chain level) e rest := by
  rintro t ts - ⟨op, hle, -⟩
  exact absurd (Nat.le_trans hlevel hle) (Nat.not_le_of_lt op.level_lt)

mutual

/-- A chain is read as far as it goes. -/
theorem parseChain_ends {level budget : Nat} {s s' : ParseState} {e : Expr}
    (h : parseChain stop level budget s = .ok (e, s')) : Ends (.chain level) e s'.rest := by
  by_cases hlevel : level < 6
  · rw [parseChain, if_pos hlevel] at h
    obtain ⟨⟨first, s₁⟩, hf, h⟩ := bind_eq_ok.1 h
    exact parseChainRest_ends (parseChain_ends hf) h
  · exact .chain_of_le (Nat.le_of_not_lt hlevel) e s'.rest
termination_by (budget, 3 + (6 - level))

theorem parseChainRest_ends {level budget : Nat} {left e : Expr} {s s' : ParseState}
    (hl : Ends (.chain (level + 1)) left s.rest)
    (h : parseChainRest stop level budget left s = .ok (e, s')) :
    Ends (.chain level) e s'.rest := by
  -- an operator that goes on with the chain is one of this level or of a tighter one
  have ends (hop : ∀ t ts op, s.rest = t :: ts → t.lexeme = .sign (.operator op) →
      op.level ≠ level) : Ends (.chain level) left s.rest := by
    rintro t ts ht ⟨op, hle, heq⟩
    refine hl t ts ht ⟨op, ?_, heq⟩
    have hne := hop t ts op ht heq
    omega
  rw [parseChainRest] at h
  split at h
  · next hs =>
    cases h
    exact ends fun t ts op ht => nomatch hs.symm.trans ht
  · next u us hs =>
    split at h
    · next op hu =>
      split at h
      · next hlevel =>
        subst hlevel
        cases budget with
        | zero => cases h
        | succ budget =>
          obtain ⟨⟨right, s₁⟩, hr, h⟩ := bind_eq_ok.1 h
          have hright : Ends (.chain (op.level + 1)) (.binary op left right) s₁.rest :=
            (parseChain_ends hr).map fun _ => id
          exact parseChainRest_ends hright h
      · next hlevel =>
        cases h
        refine ends fun t ts op' ht heq => ?_
        cases hs.symm.trans ht
        cases hu.symm.trans heq
        exact hlevel
    · next hu =>
      cases h
      refine ends fun t ts op ht heq => ?_
      cases hs.symm.trans ht
      exact absurd heq (hu op)
termination_by (budget, 0)

end

mutual

/-- An assignment is read as far as it goes. -/
theorem parseAssignment_ends {budget : Nat} {s s' : ParseState} {e : Expr}
    (h : parseAssignment stop budget s = .ok (e, s')) : Ends .assignment e s'.rest := by
  match budget with
  | 0 =>
    rw [parseAssignment] at h
    cases h
  | budget + 1 =>
    rw [parseAssignment] at h
    obtain ⟨⟨left, s₁⟩, hl, h⟩ := bind_eq_ok.1 h
    have ends (hassign : ∀ t ts, s₁.rest = t :: ts → t.lexeme ≠ .sign .assign) :
        Ends .assignment left s₁.rest := by
      rcases parseConditional_ends hl with ⟨hchain, hquestion⟩ | hends
      · rintro t ts ht (⟨op, hop⟩ | hq | ha)
        · exact parseChain_ends hchain t ts ht ⟨op, Nat.zero_le _, hop⟩
        · exact hquestion t ts ht hq
        · exact hassign t ts ht ha
      · exact hends
    dsimp only at h
    split at h
    · next hs =>
      cases h
      exact ends fun t ts ht => nomatch hs.symm.trans ht
    · next u us hs =>
      split at h
      · split at h
        · obtain ⟨⟨value, s₂⟩, hv, h⟩ := bind_eq_ok.1 h
          cases h
          exact (parseAssignment_ends hv).map fun _ => id
        · cases h
      · next hu =>
        cases h
        refine ends fun t ts ht => ?_
        cases hs.symm.trans ht
        exact hu
termination_by (budget, 0)

/-- A conditional is a chain that no `?` follows, or it ends with an assignment. -/
theorem parseConditional_ends {budget : Nat} {s s' : ParseState} {e : Expr}
    (h : parseConditional stop budget s = .ok (e, s')) :
    (parseChain stop 0 budget s = .ok (e, s') ∧
      ∀ t ts, s'.rest = t :: ts → t.lexeme ≠ .sign .question) ∨ Ends .assignment e s'.rest := by
  rw [parseConditional] at h
  obtain ⟨⟨condition, s₁⟩, hc, h⟩ := bind_eq_ok.1 h
  dsimp only at h
  split at h
  · next hs =>
    cases h
    exact .inl ⟨hc, fun t ts ht => nomatch hs.symm.trans ht⟩
  · next u us hs =>
    split at h
    · obtain ⟨⟨whenTrue, s₂⟩, -, h⟩ := bind_eq_ok.1 h
      obtain ⟨s₃, -, h⟩ := bind_eq_ok.1 h
      obtain ⟨⟨whenFalse, s₄⟩, hr, h⟩ := bind_eq_ok.1 h
      cases h
      exact .inr ((parseAssignment_ends hr).map fun _ => id)
    · next hu =>
      cases h
      refine .inl ⟨hc, fun t ts ht => ?_⟩
      cases hs.symm.trans ht
      exact hu
termination_by (budget, 10)

end

end Phrasebook.Plural
