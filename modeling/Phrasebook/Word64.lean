/-!
# Bounds of 64-bit integers

A number that is written down may be larger than what 64 bits hold, so its value is compared with
these bounds before it becomes a word.
-/

namespace Phrasebook

/-- The greatest signed 64-bit integer. -/
def maxInt64 : Nat := 9223372036854775807

/-- The greatest unsigned 64-bit integer. -/
def maxUInt64 : Nat := 18446744073709551615

theorem toInt_ofNat_le {n : Nat} (h : n ≤ maxInt64) : (Int64.ofNat n).toInt = n := by
  simp only [maxInt64] at h
  exact Int64.toInt_ofNat_of_lt (by omega)

end Phrasebook
