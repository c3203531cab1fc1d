import Mathlib.Tactic

/-! # C strings

Strings without their final null character, and the routines on them that the model uses. -/
namespace Filebench

abbrev CString := List Char

def nul : Char := Char.ofNat 0

/-- Room for `dstsize` characters with the terminating one. -/
def fbStrlcpy (src : CString) (dstsize : ℕ) : CString := src.take (dstsize - 1)

def fbStrlcat (dst src : CString) (dstsize : ℕ) : CString := (dst ++ src).take (dstsize - 1)

/-- `"%llu"` -/
def fmtLlu (n : BitVec 64) : CString := Nat.toDigits 10 n.toNat

end Filebench
