import Phrasebook.Proofs.Plural.Frames

/-!
# Evaluation without skipping

A strict evaluation (`evalStrict`) takes every operand and both branches, and leaves it to the
operators what comes of them.  It differs from evaluation only in what the skipped parts write
(`skippable`): where none of these parts assigns anything, the value and the environment are the
same (`eval_binary_of_quiet`, `eval_cond_of_quiet`).
-/

namespace Phrasebook.Plural

/-- A connective may be decided by its left operand. -/
def BinaryOperator.isConnective : BinaryOperator → Bool
  | or | and => true
  | _ => false

/-- Where the left operand decides, the operator makes nothing of the right one. -/
theorem BinaryOperator.apply_of_shortcut {op : BinaryOperator} {v u : Int64}
    (h : op.shortcut v = some u) : op.isConnective = true ∧ ∀ w, op.apply v w = u := by
  cases op with
  | or =>
    obtain ⟨hv, hu⟩ := Option.ite_none_right_eq_some.1 h
    cases hu
    refine ⟨rfl, fun w => ?_⟩
    rw [apply, decide_eq_true hv, Bool.true_or]
    rfl
  | and =>
    obtain ⟨rfl, hu⟩ := Option.ite_none_right_eq_some.1 h
    cases hu
    exact ⟨rfl, fun w => rfl⟩
  | equals | notEquals | lower | greater | lowerEquals | greaterEquals | add | subtract
  | multiply | divide | modulo => cases h

namespace Expr

/-! ### Strict evaluation -/

/-- Evaluates everything that is written down, from left to right. -/
def evalStrict : Expr → Env → Option (Int64 × Env)
  | lit v, env => some (v, env)
  | var slot, env => env[slot]?.map fun v => (v, env)
  | unary op e, env => do
      let (v, env) ← e.evalStrict env
      return (op.apply v, env)
  | binary op l r, env => do
      let (v, env) ← l.evalStrict env
      let (w, env) ← r.evalStrict env
      return (op.apply v w, env)
  | cond c t f, env => do
      let (v, env) ← c.evalStrict env
      let (w, env) ← t.evalStrict env
      let (x, env) ← f.evalStrict env
      return (if v ≠ 0 then w else x, env)
  | assign slot e, env => do
      let (v, env) ← e.evalStrict env
      if slot < env.length then some (v, env.set slot v) else none

/-- The parts that an evaluation may skip, at whatever depth: the right operands of connectives and
the branches. -/
def skippable : Expr → List Expr
  | lit _ | var _ => []
  | unary _ e => e.skippable
  | binary op l r => (if op.isConnective then [r] else []) ++ (l.skippable ++ r.skippable)
  | cond c t f => [t, f] ++ (c.skippable ++ (t.skippable ++ f.skippable))
  | assign _ e => e.skippable

section
variable {env env₁ env₂ env₃ : Env} {v w x : Int64} {slot : Nat} {c e f l r t : Expr}

theorem evalStrict_unary {op : UnaryOperator} (he : e.evalStrict env = some (v, env₁)) :
    (unary op e).evalStrict env = some (op.apply v, env₁) := by
  rw [evalStrict, he]
  rfl

theorem evalStrict_binary {op : BinaryOperator} (hl : l.evalStrict env = some (v, env₁))
    (hr : r.evalStrict env₁ = some (w, env₂)) :
    (binary op l r).evalStrict env = some (op.apply v w, env₂) := by
  rw [evalStrict, hl]
  show (r.evalStrict env₁).bind _ = _
  rw [hr]
  rfl

theorem evalStrict_cond (hc : c.evalStrict env = some (v, env₁))
    (ht : t.evalStrict env₁ = some (w, env₂)) (hf : f.evalStrict env₂ = some (x, env₃)) :
    (cond c t f).evalStrict env = some (if v ≠ 0 then w else x, env₃) := by
  rw [evalStrict, hc]
  show (t.evalStrict env₁).bind _ = _
  rw [ht]
  show (f.evalStrict env₂).bind _ = _
  rw [hf]
  rfl

theorem evalStrict_assign (he : e.evalStrict env = some (v, env₁)) (hslot : slot < env₁.length) :
    (assign slot e).evalStrict env = some (v, env₁.set slot v) := by
  rw [evalStrict, he]
  exact if_pos hslot

/-! ### Parts that write nothing -/

/-- An evaluation leaves the environment as it is if nothing is assigned. -/
theorem env_eq_of_eval (hquiet : ∀ slot, e.assigns slot = false)
    (h : e.eval env = some (v, env₁)) : env₁ = env :=
  List.ext_getElem? fun slot => (writesOnly_of_eval h).kept slot (hquiet slot)

/-- A right operand that is skipped changes neither the value nor, if it is quiet, the environment. -/
theorem eval_binary_of_quiet {op : BinaryOperator} (hl : l.eval env = some (v, env₁))
    (hr : r.eval env₁ = some (w, env₂)) (hquiet : op.isConnective = true → env₂ = env₁) :
    (binary op l r).eval env = some (op.apply v w, env₂) := by
  cases hu : op.shortcut v with
  | none => exact eval_binary hl hu hr
  | some u =>
    obtain ⟨hconnective, happly⟩ := BinaryOperator.apply_of_shortcut hu
    rw [happly, hquiet hconnective]
    exact eval_binary_shortcut hl hu

/-- Quiet branches may both be evaluated, if only one of them gives the value. -/
theorem eval_cond_of_quiet (hc : c.eval env = some (v, env₁)) (ht : t.eval env₁ = some (w, env₁))
    (hf : f.eval env₁ = some (x, env₁)) :
    (cond c t f).eval env = some (if v ≠ 0 then w else x, env₁) := by
  rw [eval_cond hc]
  split
  · exact ht
  · exact hf

/-- If no part that may be skipped assigns anything, both evaluations have the same result.  All slots
must be there, since a strict evaluation also reads those of the parts that evaluation skips. -/
theorem eval_eq_evalStrict {e : Expr} {env : Env}
    (hquiet : ∀ part ∈ e.skippable, ∀ slot, part.assigns slot = false)
    (hslots : ∀ slot ∈ e.slots, slot < env.length) :
    ∃ v env₁, e.eval env = some (v, env₁) ∧ e.evalStrict env = some (v, env₁) := by
  induction e generalizing env with
  | lit v => exact ⟨v, env, rfl, rfl⟩
  | var slot =>
    obtain ⟨v, env₁, h, -⟩ := exists_eval hslots
    exact ⟨v, env₁, h, h⟩
  | unary op e ih =>
    obtain ⟨v, env₁, h, hstrict⟩ := ih hquiet hslots
    exact ⟨_, _, eval_unary h, evalStrict_unary hstrict⟩
  | binary op l r ihl ihr =>
    obtain ⟨hright, hparts⟩ := List.forall_mem_append.1 hquiet
    obtain ⟨hl, hr⟩ := List.forall_mem_append.1 hparts
    obtain ⟨hslotsl, hslotsr⟩ := List.forall_mem_append.1 hslots
    obtain ⟨v, env₁, hv, hv'⟩ := ihl hl hslotsl
    rw [← (writesOnly_of_eval hv).length] at hslotsr
    obtain ⟨w, env₂, hw, hw'⟩ := ihr hr hslotsr
    have hskipped (hconnective : op.isConnective = true) : env₂ = env₁ := by
      rw [if_pos hconnective, List.forall_mem_singleton] at hright
      exact env_eq_of_eval hright hw
    exact ⟨_, _, eval_binary_of_quiet hv hw hskipped, evalStrict_binary hv' hw'⟩
  | cond c t f ihc iht ihf =>
    obtain ⟨hbranches, hparts⟩ := List.forall_mem_append.1 hquiet
    obtain ⟨hbrancht, hbranchf⟩ := List.forall_mem_cons.1 hbranches
    rw [List.forall_mem_singleton] at hbranchf
    obtain ⟨hc, hparts⟩ := List.forall_mem_append.1 hparts
    obtain ⟨ht, hf⟩ := List.forall_mem_append.1 hparts
    obtain ⟨hslotsc, hslots⟩ := List.forall_mem_append.1 hslots
    obtain ⟨hslotst, hslotsf⟩ := List.forall_mem_append.1 hslots
    obtain ⟨v, env₁, hv, hv'⟩ := ihc hc hslotsc
    rw [← (writesOnly_of_eval hv).length] at hslotst hslotsf
    obtain ⟨w, env₂, hw, hw'⟩ := iht ht hslotst
    obtain rfl := env_eq_of_eval hbrancht hw
    obtain ⟨x, env₃, hx, hx'⟩ := ihf hf hslotsf
    obtain rfl := env_eq_of_eval hbranchf hx
    exact ⟨_, _, eval_cond_of_quiet hv hw hx, evalStrict_cond hv' hw' hx'⟩
  | assign slot e ih =>
    obtain ⟨hslot, hslots⟩ := List.forall_mem_cons.1 hslots
    obtain ⟨v, env₁, h, hstrict⟩ := ih hquiet hslots
    rw [← (writesOnly_of_eval h).length] at hslot
    exact ⟨_, _, eval_assign h hslot, evalStrict_assign hstrict hslot⟩

end

/-- A write that is skipped makes the difference. -/
example : (binary .and (lit 0) (assign 0 (lit 1))).eval [5] = some (0, [5]) ∧
    (binary .and (lit 0) (assign 0 (lit 1))).evalStrict [5] = some (0, [1]) := by
  decide

/-- The left operand of the condition writes what the operands after it and the branches read. -/
def earlyWrite : Expr :=
  .cond (.binary .and (.assign 3 (.binary .subtract (.var 0) (.lit 7)))
      (.binary .divide (.lit 10) (.var 3)))
    (.var 3) (.binary .or (.var 0) (.binary .modulo (.var 0) (.var 3)))

/-- Both connectives skip a division by zero. -/
theorem eval_eq_evalStrict_of_earlyWrite :
    (∀ part ∈ earlyWrite.skippable, ∀ slot, part.assigns slot = false) ∧
      (∀ slot ∈ earlyWrite.slots, slot < ([7, 0, 0, 5] : Env).length) ∧
      earlyWrite.eval [7, 0, 0, 5] = some (1, [7, 0, 0, 0]) ∧
      earlyWrite.evalStrict [7, 0, 0, 5] = some (1, [7, 0, 0, 0]) := by
  have hquiet : ∀ part ∈ earlyWrite.skippable, ∀ slot, part.assigns slot = false := by
    simp [earlyWrite, skippable, BinaryOperator.isConnective, assigns]
  have hslots : ∀ slot ∈ earlyWrite.slots, slot < ([7, 0, 0, 5] : Env).length := by decide
  obtain ⟨v, env₁, heval, hstrict⟩ := eval_eq_evalStrict hquiet hslots
  have hvalue : earlyWrite.eval [7, 0, 0, 5] = some (1, [7, 0, 0, 0]) := by decide
  refine ⟨hquiet, hslots, hvalue, ?_⟩
  rw [hstrict, ← heval, hvalue]

end Expr

end Phrasebook.Plural
