import Mathlib.Tactic

/-! # Scans of a memory

A pointer that runs up or down a stretch of memory until a cell of a given kind stops it, or the
stretch is over. -/
namespace Filebench

section
variable {α : Type*} (mem : ℤ → α) (stop : α → Prop)

/-- The first cell from `lo` on that stops a scan, or the end. -/
structure FirstUp (lo hi q : ℤ) : Prop where
  low : lo ≤ q
  high : q ≤ hi + 1
  stopped : q ≤ hi → stop (mem q)
  before : ∀ k, lo ≤ k → k < q → ¬ stop (mem k)

/-- The last cell up to `hi` that stops a scan, or the end below. -/
structure LastDown (lo hi q : ℤ) : Prop where
  low : lo - 1 ≤ q
  high : q ≤ hi
  stopped : lo ≤ q → stop (mem q)
  after : ∀ k, q < k → k ≤ hi → ¬ stop (mem k)

variable [DecidablePred stop]

/-- Up from `p`, for at most as many cells as the first argument says. -/
def scanUp : ℕ → ℤ → ℤ
  | 0, p => p
  | n + 1, p => if stop (mem p) then p else scanUp n (p + 1)

/-- Down from `p`. -/
def scanDown : ℕ → ℤ → ℤ
  | 0, p => p
  | n + 1, p => if stop (mem p) then p else scanDown n (p - 1)

/-- From `lo` to `hi`; past the end where nothing stops it. -/
def findUp (lo hi : ℤ) : ℤ := scanUp mem stop (hi + 1 - lo).toNat lo

/-- From `hi` to `lo`; past the end where nothing stops it. -/
def findDown (lo hi : ℤ) : ℤ := scanDown mem stop (hi + 1 - lo).toNat hi

variable {mem stop}

theorem scanUp_firstUp {n : ℕ} {lo hi : ℤ} (h : hi + 1 = lo + n) :
    FirstUp mem stop lo hi (scanUp mem stop n lo) := by
  induction n generalizing lo with
  | zero =>
    rw [scanUp]
    exact ⟨le_rfl, by omega, fun _ => by omega, fun k hlo hk => by omega⟩
  | succ n ih =>
    rw [scanUp]
    split_ifs with hstop
    · exact ⟨le_rfl, by omega, fun _ => hstop, fun k hlo hk => by omega⟩
    · obtain ⟨hlow, hhigh, hstopped, hbefore⟩ := @ih (lo + 1) (by omega)
      refine ⟨by omega, hhigh, hstopped, fun k hlo hk => ?_⟩
      rcases hlo.eq_or_lt with rfl | hlt
      · exact hstop
      · exact hbefore k (by omega) hk

theorem scanDown_lastDown {n : ℕ} {lo hi : ℤ} (h : hi + 1 = lo + n) :
    LastDown mem stop lo hi (scanDown mem stop n hi) := by
  induction n generalizing hi with
  | zero =>
    rw [scanDown]
    exact ⟨by omega, le_rfl, fun _ => by omega, fun k hk hhi => by omega⟩
  | succ n ih =>
    rw [scanDown]
    split_ifs with hstop
    · exact ⟨by omega, le_rfl, fun _ => hstop, fun k hk hhi => by omega⟩
    · obtain ⟨hlow, hhigh, hstopped, hafter⟩ := @ih (hi - 1) (by omega)
      refine ⟨hlow, by omega, hstopped, fun k hk hhi => ?_⟩
      rcases hhi.eq_or_lt with rfl | hlt
      · exact hstop
      · exact hafter k hk (by omega)

theorem findUp_firstUp {lo hi : ℤ} (h : lo ≤ hi + 1) :
    FirstUp mem stop lo hi (findUp mem stop lo hi) :=
  scanUp_firstUp (by omega)

theorem findDown_lastDown {lo hi : ℤ} (h : lo ≤ hi + 1) :
    LastDown mem stop lo hi (findDown mem stop lo hi) :=
  scanDown_lastDown (by omega)

omit [DecidablePred stop] in
/-- Nothing stopped the scan. -/
theorem FirstUp.none_iff {lo hi q : ℤ} (h : FirstUp mem stop lo hi q) :
    hi < q ↔ ∀ k, lo ≤ k → k ≤ hi → ¬ stop (mem k) := by
  constructor
  · intro hq k hlo hhi
    exact h.before k hlo (by omega)
  · intro hnone
    by_contra hle
    exact hnone q h.low (not_lt.mp hle) (h.stopped (not_lt.mp hle))

end

end Filebench
