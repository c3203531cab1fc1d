import Mathlib.Tactic

/-! # Fields of a packed word

The fields of a word are read through masks. An update clears some bits and sets others, and
what a mask reads after it depends on whether its bits were cleared. -/
namespace Filebench.Masks

variable {w : ℕ}

/-- Clears the bits of `c`, then sets those of `s`. -/
def put (x c s : BitVec w) : BitVec w := x &&& ~~~c ||| s

theorem put_and (x c s m : BitVec w) : put x c s &&& m = x &&& (~~~c &&& m) ||| s &&& m := by
  rw [put, BitVec.and_or_distrib_right, BitVec.and_assoc]

/-- A field that was cleared reads what was set. -/
theorem put_and_of_cleared (x : BitVec w) {c s m : BitVec w} (h : ~~~c &&& m = 0) :
    put x c s &&& m = s &&& m := by
  rw [put_and, h]
  simp

/-- A field beside the cleared bits and those set reads as before. -/
theorem put_and_of_kept (x : BitVec w) {c s m : BitVec w} (hc : ~~~c &&& m = m)
    (hs : s &&& m = 0) : put x c s &&& m = x &&& m := by
  rw [put_and, hc, hs]
  simp

/-- A field beside the cleared bits gets what was set on top of what it had. -/
theorem put_and_of_added (x : BitVec w) {c s m : BitVec w} (hc : ~~~c &&& m = m) :
    put x c s &&& m = x &&& m ||| s &&& m := by
  rw [put_and, hc]

/-- What was set can be read back whole. -/
theorem put_or_and_self (x c s r : BitVec w) : put x c (s ||| r) &&& s = s := by
  ext i hi
  simp only [put, BitVec.getElem_and, BitVec.getElem_or, BitVec.getElem_not]
  cases s[i] <;> simp

end Filebench.Masks
