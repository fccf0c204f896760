import Phrasebook.Plural.Operator

/-!
# Plural expressions

A variable is a slot of an environment, so evaluation never looks a name up.  Evaluation is
partial: it gives `none` exactly when a slot outside the environment is read or written.

* `Expr.eval` reads and writes the environment; `&&`, `||` and `? :` skip the operand that does
  not matter, and skipped assignments do not happen.
* `Expr.assigns` says which slots an evaluation may write.
-/

namespace Phrasebook.Plural

inductive Expr where
  | lit (value : Int64)
  | var (slot : Nat)
  | unary (op : UnaryOperator) (operand : Expr)
  | binary (op : BinaryOperator) (left right : Expr)
  | cond (condition whenTrue whenFalse : Expr)
  | assign (slot : Nat) (value : Expr)
deriving DecidableEq, Repr

/-- The values of the slots, slot `0` first. -/
abbrev Env := List Int64

namespace Expr

def eval : Expr → Env → Option (Int64 × Env)
  | lit v, env => some (v, env)
  | var slot, env => env[slot]?.map fun v => (v, env)
  | unary op e, env => do
      let (v, env) ← e.eval env
      return (op.apply v, env)
  | binary .or l r, env => do
      let (v, env) ← l.eval env
      if v ≠ 0 then
        return (1, env)
      else
        let (w, env) ← r.eval env
        return (truth (w ≠ 0), env)
  | binary .and l r, env => do
      let (v, env) ← l.eval env
      if v = 0 then
        return (0, env)
      else
        let (w, env) ← r.eval env
        return (truth (w ≠ 0), env)
  | binary op l r, env => do
      let (v, env) ← l.eval env
      let (w, env) ← r.eval env
      return (op.apply v w, env)
  | cond c t f, env => do
      let (v, env) ← c.eval env
      if v ≠ 0 then t.eval env else f.eval env
  | assign slot e, env => do
      let (v, env) ← e.eval env
      if slot < env.length then some (v, env.set slot v) else none

/-- Whether an evaluation may write `slot`. -/
def assigns (slot : Nat) : Expr → Bool
  | lit _ | var _ => false
  | unary _ e => e.assigns slot
  | binary _ l r => l.assigns slot || r.assigns slot
  | cond c t f => c.assigns slot || t.assigns slot || f.assigns slot
  | assign target e => target = slot || e.assigns slot

end Expr

end Phrasebook.Plural
