import Mathlib.Algebra.BigOperators.Intervals
import Mathlib.Algebra.Order.BigOperators.Group.Finset
import Mathlib.Algebra.Order.Archimedean.Basic
import Mathlib.Data.Rat.Floor
import Mathlib.Tactic.Linarith
import Mathlib.Tactic.Ring

/-! # Counts that leak

A count that falls behind another one by whole units never catches up, so it keeps within a bound
only if the losses come to an end. -/
namespace Filebench.Leak

/-- With each step `paid` falls behind `owed` by the loss. -/
structure Leaks (owed paid : ℕ → ℚ) (unit : ℚ) (loss : ℕ → ℕ) : Prop where
  unit_pos : 0 < unit
  start : owed 0 = paid 0
  step : ∀ n, owed (n + 1) - owed n = paid (n + 1) - paid n + unit * loss n

/-- From some step on nothing is lost. -/
def Tight (loss : ℕ → ℕ) : Prop := ∃ N, ∀ n, N ≤ n → loss n = 0

variable {owed paid : ℕ → ℚ} {unit : ℚ} {loss : ℕ → ℕ}

theorem Leaks.total (h : Leaks owed paid unit loss) (n : ℕ) :
    owed n - paid n = unit * (∑ i ∈ Finset.range n, loss i : ℕ) := by
  induction n with
  | zero => rw [h.start, Finset.range_zero, Finset.sum_empty, Nat.cast_zero, mul_zero, sub_self]
  | succ n ih =>
    have hstep := h.step n
    rw [Finset.sum_range_succ, Nat.cast_add, mul_add, ← ih]
    linarith only [hstep]

theorem sum_le_of_tight {N : ℕ} (h : ∀ n, N ≤ n → loss n = 0) (n : ℕ) :
    ∑ i ∈ Finset.range n, loss i ≤ ∑ i ∈ Finset.range N, loss i := by
  rcases le_total n N with hle | hle
  · exact Finset.sum_le_sum_of_subset (Finset.range_mono hle)
  · rw [Finset.eventually_constant_sum h hle]

theorem exists_le_sum (h : ¬ Tight loss) (C : ℕ) : ∃ n, C ≤ ∑ i ∈ Finset.range n, loss i := by
  induction C with
  | zero => exact ⟨0, Nat.zero_le _⟩
  | succ C ih =>
    obtain ⟨n, hn⟩ := ih
    simp only [Tight, not_exists, not_forall] at h
    obtain ⟨m, hm, hloss⟩ := h n
    have hle : ∑ i ∈ Finset.range n, loss i ≤ ∑ i ∈ Finset.range m, loss i :=
      Finset.sum_le_sum_of_subset (Finset.range_mono hm)
    refine ⟨m + 1, ?_⟩
    rw [Finset.sum_range_succ]
    omega

/-- The counts keep together if and only if the losses come to an end. -/
theorem Leaks.bounded_iff (h : Leaks owed paid unit loss) :
    (∃ C, ∀ n, |paid n - owed n| < C) ↔ Tight loss := by
  have habs : ∀ n, |paid n - owed n| = unit * (∑ i ∈ Finset.range n, loss i : ℕ) := fun n => by
    rw [abs_sub_comm, h.total, abs_of_nonneg (mul_nonneg h.unit_pos.le (Nat.cast_nonneg _))]
  simp only [habs]
  constructor
  · rintro ⟨C, hC⟩
    by_contra hleak
    obtain ⟨n, hn⟩ := exists_le_sum hleak ⌈C / unit⌉₊
    have hge : C / unit ≤ (∑ i ∈ Finset.range n, loss i : ℕ) :=
      (Nat.le_ceil _).trans (Nat.cast_le.mpr hn)
    rw [div_le_iff₀' h.unit_pos] at hge
    exact absurd (hC n) hge.not_gt
  · rintro ⟨N, hN⟩
    refine ⟨unit * (∑ i ∈ Finset.range N, loss i : ℕ) + 1, fun n => ?_⟩
    refine lt_of_le_of_lt ?_ (lt_add_one _)
    exact mul_le_mul_of_nonneg_left (Nat.cast_le.mpr (sum_le_of_tight hN n)) h.unit_pos.le

end Filebench.Leak
