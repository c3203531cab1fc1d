import Mathlib.Tactic
import Mathlib.Data.Rat.Floor
import Mathlib.Data.Int.Log

/-! # Rounding to a double

Binary floating point with a 53-bit significand on the rationals: the nearest representable
number, ties to even. Overflow and subnormal numbers are left out. -/
namespace Filebench.Double

/-- The nearest integer, ties to even. -/
def roundHalfEven (x : ℚ) : ℤ :=
  if x - ⌊x⌋ < 1 / 2 then ⌊x⌋
  else if 1 / 2 < x - ⌊x⌋ then ⌊x⌋ + 1
  else if ⌊x⌋ % 2 = 0 then ⌊x⌋ else ⌊x⌋ + 1

/-- The distance between neighbouring doubles around `x`. -/
def ulp (x : ℚ) : ℚ := 2 ^ (Int.log 2 |x| - 52)

def roundDouble (x : ℚ) : ℚ := if x = 0 then 0 else roundHalfEven (x / ulp x) * ulp x

/-- `x + y` in double arithmetic. -/
def addDouble (x y : ℚ) : ℚ := roundDouble (x + y)

theorem floor_le_roundHalfEven (x : ℚ) : ⌊x⌋ ≤ roundHalfEven x := by
  unfold roundHalfEven
  split_ifs <;> omega

/-- Rounding does not cross a power of two from above. -/
theorem zpow_log_le_roundDouble {x : ℚ} (hx : 0 < x) : (2 : ℚ) ^ Int.log 2 x ≤ roundDouble x := by
  have hulp : 0 < ulp x := by unfold ulp; positivity
  have hlog : (2 : ℚ) ^ Int.log 2 x ≤ x := Int.zpow_log_le_self (by norm_num) hx
  have hsplit : (2 : ℚ) ^ Int.log 2 x = 2 ^ 52 * ulp x := by
    rw [ulp, abs_of_pos hx, ← zpow_natCast, ← zpow_add₀ (by norm_num)]
    congr 1
    push_cast
    ring
  have hfloor : (2 ^ 52 : ℤ) ≤ ⌊x / ulp x⌋ := by
    rw [Int.le_floor, le_div_iff₀ hulp]
    rw [hsplit] at hlog
    exact_mod_cast hlog
  rw [roundDouble, if_neg hx.ne', hsplit]
  gcongr
  exact_mod_cast hfloor.trans (floor_le_roundHalfEven _)

theorem ulp_pos (x : ℚ) : 0 < ulp x := by
  unfold ulp
  positivity

/-- The halves below the next whole number are rounded to it, where that one is even. -/
theorem roundHalfEven_lt_iff {y : ℚ} {m : ℤ} (hm : m % 2 = 0) (hy : y < m) :
    roundHalfEven y < m ↔ y < m - 1 / 2 := by
  have hfloor : ⌊y⌋ ≤ m - 1 := by
    rw [Int.le_sub_one_iff, Int.floor_lt]
    exact hy
  have hle := Int.floor_le y
  have hlt := Int.lt_floor_add_one y
  rcases hfloor.lt_or_eq with hbelow | hlast
  · have hcast : (⌊y⌋ : ℚ) + 1 ≤ m - 1 := by exact_mod_cast (show ⌊y⌋ + 1 ≤ m - 1 by omega)
    refine iff_of_true ?_ (by linarith)
    unfold roundHalfEven
    split_ifs <;> omega
  · have hcast : (⌊y⌋ : ℚ) = m - 1 := by exact_mod_cast hlast
    unfold roundHalfEven
    rw [hcast]
    split_ifs with h₁ h₂ h₃
    · exact iff_of_true (by omega) (by linarith)
    · exact iff_of_false (by omega) (by linarith)
    · omega
    · exact iff_of_false (by omega) (by linarith)

theorem roundHalfEven_le {y : ℚ} {m : ℤ} (hy : y < m) : roundHalfEven y ≤ m := by
  have hfloor : ⌊y⌋ < m := Int.floor_lt.mpr hy
  unfold roundHalfEven
  split_ifs <;> omega

theorem zpow_log_succ {x : ℚ} (hx : 0 < x) :
    (2 : ℚ) ^ (Int.log 2 x + 1) = (2 ^ 53 : ℤ) * ulp x := by
  have hcast : ((2 ^ 53 : ℤ) : ℚ) = 2 ^ (53 : ℤ) := by norm_num
  rw [ulp, abs_of_pos hx, hcast, ← zpow_add₀ (by norm_num)]
  congr 1
  ring

theorem div_ulp_lt {x : ℚ} (hx : 0 < x) : x / ulp x < (2 ^ 53 : ℤ) := by
  rw [div_lt_iff₀ (ulp_pos x), ← zpow_log_succ hx]
  exact Int.lt_zpow_succ_log_self (by norm_num) x

/-- Rounding gets to the next power of two from the last half unit on. -/
theorem roundDouble_lt_iff {x : ℚ} (hx : 0 < x) :
    roundDouble x < 2 ^ (Int.log 2 x + 1) ↔ x < 2 ^ (Int.log 2 x + 1) - ulp x / 2 := by
  have hulp := ulp_pos x
  rw [roundDouble, if_neg hx.ne', zpow_log_succ hx, mul_lt_mul_iff_left₀ hulp, Int.cast_lt,
    roundHalfEven_lt_iff (by norm_num) (div_ulp_lt hx), div_lt_iff₀ hulp]
  ring_nf

theorem roundDouble_le {x : ℚ} (hx : 0 < x) : roundDouble x ≤ 2 ^ (Int.log 2 x + 1) := by
  rw [roundDouble, if_neg hx.ne', zpow_log_succ hx]
  have hle := roundHalfEven_le (div_ulp_lt hx)
  gcongr
  exact (ulp_pos x).le

/-- Adding one to more than half a unit in the last place gives more than one. -/
theorem one_lt_addDouble_one {w : ℚ} (hw : 1 / 2 ^ 53 < w) : 1 < addDouble w 1 := by
  have hpos : 0 < w := lt_trans (by norm_num) hw
  have hx : 0 < w + 1 := by linarith
  have hlog0 : 0 ≤ Int.log 2 (w + 1) := by
    rw [← Int.zpow_le_iff_le_log (by norm_num) hx]
    simpa using hpos.le
  rcases hlog0.lt_or_eq with hlog | hlog
  · refine lt_of_lt_of_le ?_ (zpow_log_le_roundDouble hx)
    exact one_lt_zpow₀ (by norm_num) hlog
  · have hulp : ulp (w + 1) = 1 / 2 ^ 52 := by
      rw [ulp, abs_of_pos hx, ← hlog]
      norm_num
    rw [addDouble, roundDouble, if_neg hx.ne', hulp]
    set y : ℚ := (w + 1) / (1 / 2 ^ 52) with hy
    have hyv : y = 2 ^ 52 * w + 2 ^ 52 := by rw [hy]; ring
    have hyl : (2 : ℚ) ^ 52 + 1 / 2 < y := by
      rw [hyv]
      have : (1 : ℚ) / 2 < 2 ^ 52 * w := by
        calc (1 : ℚ) / 2 = 2 ^ 52 * (1 / 2 ^ 53) := by norm_num
          _ < 2 ^ 52 * w := by gcongr
      linarith
    have hround : (2 ^ 52 : ℤ) + 1 ≤ roundHalfEven y := by
      have hfl : (2 ^ 52 : ℤ) ≤ ⌊y⌋ := by
        rw [Int.le_floor]
        push_cast
        linarith
      rcases hfl.lt_or_eq with hlt | heq
      · exact (Int.add_one_le_iff.mpr hlt).trans (floor_le_roundHalfEven y)
      · have hr : 1 / 2 < y - ⌊y⌋ := by
          rw [← heq]
          push_cast
          linarith
        rw [roundHalfEven, if_neg (by linarith), if_pos hr, ← heq]
    have hround' : (2 : ℚ) ^ 52 + 1 ≤ roundHalfEven y := by exact_mod_cast hround
    calc (1 : ℚ) < (2 ^ 52 + 1) * (1 / 2 ^ 52) := by norm_num
      _ ≤ roundHalfEven y * (1 / 2 ^ 52) := by gcongr

/-- Half a unit in the last place or less is lost: the tie goes to the even neighbour, one. -/
theorem addDouble_one_of_le {w : ℚ} (hpos : 0 < w) (hw : w ≤ 1 / 2 ^ 53) : addDouble w 1 = 1 := by
  have hx : 0 < w + 1 := by linarith
  have hlog : Int.log 2 (w + 1) = 0 := by
    refine le_antisymm (Int.lt_add_one_iff.mp ?_) ?_
    · rw [← Int.lt_zpow_iff_log_lt (by norm_num) hx]
      norm_num
      linarith
    · rw [← Int.zpow_le_iff_le_log (by norm_num) hx]
      simpa using hpos.le
  have hulp : ulp (w + 1) = 1 / 2 ^ 52 := by
    rw [ulp, abs_of_pos hx, hlog]
    norm_num
  have hy : (w + 1) / (1 / 2 ^ 52) = 2 ^ 52 * w + 2 ^ 52 := by ring
  have hhalf : 2 ^ 52 * w ≤ 1 / 2 := by
    calc 2 ^ 52 * w ≤ 2 ^ 52 * (1 / 2 ^ 53) := by gcongr
      _ = 1 / 2 := by norm_num
  have hfloor : ⌊2 ^ 52 * w + 2 ^ 52⌋ = 2 ^ 52 := by
    rw [Int.floor_eq_iff]
    push_cast
    constructor <;> linarith
  have hround : roundHalfEven (2 ^ 52 * w + 2 ^ 52) = 2 ^ 52 := by
    rw [roundHalfEven, hfloor]
    push_cast
    split_ifs
    · rfl
    · linarith
    · rfl
  rw [addDouble, roundDouble, if_neg hx.ne', hulp, hy, hround]
  norm_num

end Filebench.Double
