import Phrasebook.Plural.Operator
import Phrasebook.Word64

/-!
# Arithmetic of plural rules

Every operator has a value for all operands: the value over the integers (`UnaryOperator.exact`,
`BinaryOperator.exact`), cut to 64 bits (`UnaryOperator.toInt_apply`, `BinaryOperator.toInt_apply`).
There, division truncates toward zero and gives zero when the divisor is zero.
-/

namespace Phrasebook.Plural

theorem toInt_truth (b : Bool) : (truth b).toInt = if b then 1 else 0 := by
  cases b <;> decide

theorem bmod_ite (c : Prop) [Decidable c] :
    (if c then 1 else 0 : Int).bmod (maxUInt64 + 1) = if c then 1 else 0 := by
  split <;> decide

/-- The value of an operator over the integers. -/
def UnaryOperator.exact : UnaryOperator → Int → Int
  | not, v => if v = 0 then 1 else 0
  | minus, v => -v
  | plus, v => v

/-- The value of an operator over the integers. -/
def BinaryOperator.exact : BinaryOperator → Int → Int → Int
  | or, l, r => if l ≠ 0 ∨ r ≠ 0 then 1 else 0
  | and, l, r => if l ≠ 0 ∧ r ≠ 0 then 1 else 0
  | equals, l, r => if l = r then 1 else 0
  | notEquals, l, r => if l ≠ r then 1 else 0
  | lower, l, r => if l < r then 1 else 0
  | greater, l, r => if l > r then 1 else 0
  | lowerEquals, l, r => if l ≤ r then 1 else 0
  | greaterEquals, l, r => if l ≥ r then 1 else 0
  | add, l, r => l + r
  | subtract, l, r => l - r
  | multiply, l, r => l * r
  | divide, l, r => if r = 0 then 0 else l.tdiv r
  | modulo, l, r => if r = 0 then 0 else l.tmod r

theorem toInt_eq_zero {v : Int64} : v.toInt = 0 ↔ v = 0 :=
  Int64.toInt_inj (y := 0)

theorem UnaryOperator.toInt_apply (op : UnaryOperator) (v : Int64) :
    (op.apply v).toInt = (op.exact v.toInt).bmod (maxUInt64 + 1) := by
  cases op with
  | not => simp only [apply, exact, toInt_truth, bmod_ite, toInt_eq_zero, decide_eq_true_eq]
  | minus => exact Int64.toInt_neg v
  | plus => exact (Int64.toInt_bmod v).symm

theorem BinaryOperator.toInt_apply (op : BinaryOperator) (l r : Int64) :
    (op.apply l r).toInt = (op.exact l.toInt r.toInt).bmod (maxUInt64 + 1) := by
  cases op with
  | or | and | equals | notEquals | lower | greater | lowerEquals | greaterEquals =>
    simp only [apply, exact, toInt_truth, bmod_ite, toInt_eq_zero, Int64.toInt_inj,
      Int64.lt_iff_toInt_lt, Int64.le_iff_toInt_le, gt_iff_lt, ge_iff_le, ne_eq, Bool.or_eq_true,
      Bool.and_eq_true, decide_eq_true_eq]
  | add => exact Int64.toInt_add l r
  | subtract => exact Int64.toInt_sub l r
  | multiply => exact Int64.toInt_mul l r
  | divide =>
    rw [apply, exact]
    by_cases hr : r = 0
    · rw [if_pos hr, if_pos (toInt_eq_zero.2 hr)]
      rfl
    · rw [if_neg hr, if_neg fun h => hr (toInt_eq_zero.1 h)]
      exact Int64.toInt_div l r
  | modulo =>
    rw [apply, exact]
    by_cases hr : r = 0
    · rw [if_pos hr, if_pos (toInt_eq_zero.2 hr)]
      rfl
    · rw [if_neg hr, if_neg fun h => hr (toInt_eq_zero.1 h), ← Int64.toInt_mod]
      exact (Int64.toInt_bmod _).symm

end Phrasebook.Plural
