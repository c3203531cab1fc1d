import Filebench.Lib.Pieces
import Filebench.Random.Scaled

/-! # The mean of a table

The numbers of a variable with a table are linear pieces over the unit interval, one for each slot.
Their mean is the mean of the variable, whatever its least value is. -/
namespace Filebench.FbRandom

open MeasureTheory

section pieces

variable {rndp rnd : Randdist ℝ}

end pieces

end Filebench.FbRandom
