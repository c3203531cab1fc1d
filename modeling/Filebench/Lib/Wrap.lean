import Mathlib.Tactic

/-! # Signed words

A signed word that an unsigned one is added to or taken from, as an integer that may wrap. -/
namespace Filebench.Wrap

variable {w : ℕ}

theorem toInt_add_toNat (x y : BitVec w) :
    (x + y).toInt = (x.toInt + (y.toNat : ℤ)).bmod (2 ^ w) := by
  rw [BitVec.toInt_add, BitVec.toInt_eq_toNat_bmod y, Int.add_bmod_bmod]

/-- The difference of two unsigned words as a signed one. -/
theorem toInt_sub_toNat (y z : BitVec w) :
    (y - z).toInt = ((y.toNat : ℤ) - z.toNat).bmod (2 ^ w) := by
  rw [BitVec.toInt_sub, BitVec.toInt_eq_toNat_bmod y, BitVec.toInt_eq_toNat_bmod z,
    Int.bmod_sub_bmod, Int.sub_bmod_bmod]

/-- The difference of two unsigned words taken from a signed one. -/
theorem toInt_sub_sub (x y z : BitVec w) :
    (x - (y - z)).toInt = (x.toInt - ((y.toNat : ℤ) - z.toNat)).bmod (2 ^ w) := by
  rw [BitVec.toInt_sub, toInt_sub_toNat, Int.sub_bmod_bmod]

/-- Below the least number it comes out from above. -/
theorem bmod_below {x : ℤ} {m : ℕ} (hle : -(3 * m) ≤ x * 2) (hlt : x * 2 < -m) :
    x.bmod m = x + m := by
  rw [← Int.add_bmod_right]
  exact Int.bmod_eq_of_le_mul_two (by omega) (by omega)

theorem bmod_above {x : ℤ} {m : ℕ} (hle : m ≤ x * 2) (hlt : x * 2 < 3 * m) :
    x.bmod m = x - m := by
  rw [← Int.sub_bmod_right]
  exact Int.bmod_eq_of_le_mul_two (by omega) (by omega)

/-- Within the range it stays. -/
theorem bmod_within {x : ℤ} {m : ℕ} (hle : -m ≤ x * 2) (hlt : x * 2 < m) : x.bmod m = x :=
  Int.bmod_eq_of_le_mul_two hle hlt

end Filebench.Wrap
