import Phrasebook.Proofs.Plural.Arithmetic

/-!
# Division with remainder in plural rules

No integer is divided by zero, and one quotient does not fit into 64 bits: that of the least integer
by `-1`.  The operators never reach the former and wrap the latter (`guarded_eq_some`).  Quotient
and remainder belong together all the same: multiplying back and adding the remainder gives the
dividend (`divide_mul_add_modulo`), since all of this is arithmetic over the integers, cut to 64
bits.
-/

namespace Phrasebook.Plural

/-- A quotient or a remainder over the integers, cut to 64 bits.  Nothing is divided by zero. -/
def divided? (f : Int → Int → Int) (l r : Int64) : Option Int64 :=
  if r = 0 then none else some (.ofInt (f l.toInt r.toInt))

namespace BinaryOperator

/-- The operator on top of a division that has no result at zero. -/
def guarded : BinaryOperator → Int64 → Int64 → Option Int64
  | divide, l, r => if r = 0 then some 0 else divided? Int.tdiv l r
  | modulo, l, r => if r = 0 then some 0 else divided? Int.tmod l r
  | op, l, r => some (.ofInt (op.exact l.toInt r.toInt))

/-- What `q` and `m` owe to `l` and `r` if they are the quotient and the remainder. -/
structure IsDivision (l r q m : Int64) : Prop where
  restores : add.apply (multiply.apply q r) m = l
  smaller : m.toInt.natAbs < r.toInt.natAbs
  sign : m = 0 ∨ m.toInt.sign = l.toInt.sign
  truncates : ¬(l = Int64.minValue ∧ r = -1) → q.toInt = l.toInt.tdiv r.toInt
  wraps : l = Int64.minValue ∧ r = -1 → q = Int64.minValue ∧ m = 0

/-! ### All operands -/

theorem apply_eq_ofInt (op : BinaryOperator) (l r : Int64) :
    op.apply l r = .ofInt (op.exact l.toInt r.toInt) := by
  rw [← Int64.toInt_inj, Int64.toInt_ofInt]
  exact toInt_apply op l r

theorem guard_divided? (f : Int → Int → Int) (l r : Int64) :
    (if r = 0 then some 0 else divided? f l r) =
      some (.ofInt (if r.toInt = 0 then 0 else f l.toInt r.toInt)) := by
  by_cases hr : r = 0
  · rw [if_pos hr, if_pos (toInt_eq_zero.2 hr)]
    rfl
  · rw [if_neg hr, divided?, if_neg hr, if_neg (mt toInt_eq_zero.1 hr)]

/-- The guards let no operands through that have no result. -/
theorem guarded_eq_some (op : BinaryOperator) (l r : Int64) :
    op.guarded l r = some (op.apply l r) := by
  rw [apply_eq_ofInt]
  cases op with
  | divide => exact guard_divided? Int.tdiv l r
  | modulo => exact guard_divided? Int.tmod l r
  | or | and | equals | notEquals | lower | greater | lowerEquals | greaterEquals | add | subtract
  | multiply => rfl

/-! ### Divisors other than zero -/

section
variable {l r : Int64}

/-- Cutting to 64 bits commutes with products and sums, so it does not matter here whether the
quotient fits. -/
theorem divide_mul_add_modulo (hr : r ≠ 0) :
    add.apply (multiply.apply (divide.apply l r) r) (modulo.apply l r) = l := by
  have hne : r.toInt ≠ 0 := mt toInt_eq_zero.1 hr
  calc divide.apply l r * r + modulo.apply l r
    _ = .ofInt (l.toInt.tdiv r.toInt) * .ofInt r.toInt + .ofInt (l.toInt.tmod r.toInt) := by
      rw [apply_eq_ofInt divide, apply_eq_ofInt modulo, exact, exact, if_neg hne, if_neg hne,
        Int64.ofInt_toInt]
    _ = .ofInt (l.toInt.tdiv r.toInt * r.toInt + l.toInt.tmod r.toInt) := by
      rw [Int64.ofInt_add, Int64.ofInt_mul]
    _ = l := by rw [Int.tdiv_mul_add_tmod, Int64.ofInt_toInt]

/-- A remainder always fits. -/
theorem toInt_modulo (hr : r ≠ 0) : (modulo.apply l r).toInt = l.toInt.tmod r.toInt := by
  rw [apply, if_neg hr, Int64.toInt_mod]

theorem natAbs_modulo_lt (hr : r ≠ 0) : (modulo.apply l r).toInt.natAbs < r.toInt.natAbs := by
  have hpos : 0 < r.toInt.natAbs := Int.natAbs_pos.2 (mt toInt_eq_zero.1 hr)
  rw [toInt_modulo hr, Int.natAbs_tmod]
  exact Nat.mod_lt _ hpos

theorem sign_modulo (hr : r ≠ 0) :
    modulo.apply l r = 0 ∨ (modulo.apply l r).toInt.sign = l.toInt.sign := by
  rw [← toInt_eq_zero, toInt_modulo hr]
  by_cases hdvd : r.toInt ∣ l.toInt
  · exact .inl (Int.tmod_eq_zero_of_dvd hdvd)
  · right
    rw [Int.sign_tmod, if_neg hdvd]

/-- All quotients fit but one. -/
theorem toInt_divide (hr : r ≠ 0) (hfits : ¬(l = Int64.minValue ∧ r = -1)) :
    (divide.apply l r).toInt = l.toInt.tdiv r.toInt := by
  rw [apply, if_neg hr]
  by_cases hl : l = Int64.minValue
  · exact Int64.toInt_div_of_ne_right l r fun hone => hfits ⟨hl, hone⟩
  · exact Int64.toInt_div_of_ne_left l r hl

theorem isDivision_apply (hr : r ≠ 0) : IsDivision l r (divide.apply l r) (modulo.apply l r) where
  restores := divide_mul_add_modulo hr
  smaller := natAbs_modulo_lt hr
  sign := sign_modulo hr
  truncates := toInt_divide hr
  wraps := by
    rintro ⟨rfl, rfl⟩
    decide

end

/-- Every operator has a value for all operands.  Dividing by zero gives zero, and any other divisor
gives a quotient and a remainder that belong together; sums, differences and products are those of
the integers, cut to 64 bits. -/
theorem divide_modulo_consistent (l r : Int64) :
    (∀ op : BinaryOperator, op.guarded l r = some (op.apply l r)) ∧
    (r = 0 → divide.apply l r = 0 ∧ modulo.apply l r = 0) ∧
    (r ≠ 0 → IsDivision l r (divide.apply l r) (modulo.apply l r)) ∧
    (add.apply l r).toInt = (l.toInt + r.toInt).bmod (maxUInt64 + 1) ∧
    (subtract.apply l r).toInt = (l.toInt - r.toInt).bmod (maxUInt64 + 1) ∧
    (multiply.apply l r).toInt = (l.toInt * r.toInt).bmod (maxUInt64 + 1) := by
  refine ⟨fun op => guarded_eq_some op l r, ?_, isDivision_apply, toInt_apply add l r,
    toInt_apply subtract l r, toInt_apply multiply l r⟩
  intro hr
  exact ⟨if_pos hr, if_pos hr⟩

/-- The exact quotient is `2 ^ 63`.  It wraps to the dividend, and so does the product. -/
example : divide.apply Int64.minValue (-1) = Int64.minValue ∧
    multiply.apply Int64.minValue (-1) = Int64.minValue := by
  decide

end BinaryOperator

end Phrasebook.Plural
