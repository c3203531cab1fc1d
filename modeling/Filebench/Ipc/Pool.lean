import Mathlib.Tactic
import Mathlib.Data.Fintype.Card

/-! # Pools of objects

Shared memory has a fixed number of objects of each type. An allocation looks for a free one from
the last one allocated on, around the pool, and does not look at that one itself, so that it can
fail with one free object left: the last one allocated, freed again. -/
namespace Filebench

/-- `shm_bitmap` and `shm_lastbitmapindex` of one type. -/
structure Pool (n : ℕ) where
  bitmap : Fin n → Bool
  lastbitmapindex : Fin n

variable {n : ℕ}

def nextIndex (i : Fin n) : Fin n := if h : i.val + 1 < n then ⟨i + 1, h⟩ else ⟨0, i.pos⟩

def scanBitmap (bitmap : Fin n → Bool) (start : Fin n) : ℕ → Fin n → Fin n
  | 0, i => i
  | k + 1, i =>
    if bitmap (nextIndex i) = false ∨ nextIndex i = start then nextIndex i
    else scanBitmap bitmap start k (nextIndex i)

/-- The loop ends in at most `n` steps. -/
def Pool.ipcMalloc (pool : Pool n) : Option (Fin n) × Pool n :=
  let i := scanBitmap pool.bitmap pool.lastbitmapindex n pool.lastbitmapindex
  if i = pool.lastbitmapindex then (none, pool)
  else (some i, ⟨Function.update pool.bitmap i true, i⟩)

def Pool.ipcFree (pool : Pool n) (i : Fin n) : Pool n :=
  { pool with bitmap := Function.update pool.bitmap i false }

def Pool.free (pool : Pool n) : Finset (Fin n) := {i | pool.bitmap i = false}

/-- How many allocations succeed from now on, if nothing is freed. -/
def Pool.avail (pool : Pool n) : ℕ :=
  if pool.free ⊆ {pool.lastbitmapindex} then 0 else pool.free.card

/-! ## The scan -/

theorem nextIndex_val (i : Fin n) : (nextIndex i).val = (i.val + 1) % n := by
  unfold nextIndex
  split
  next h => exact (Nat.mod_eq_of_lt h).symm
  next h => rw [show i.val + 1 = n by omega, Nat.mod_self]

theorem iterate_nextIndex_val (i : Fin n) (j : ℕ) :
    (nextIndex^[j] i).val = (i.val + j) % n := by
  induction j with
  | zero => exact (Nat.mod_eq_of_lt i.isLt).symm
  | succ j ih =>
    rw [Function.iterate_succ_apply', nextIndex_val, ih, Nat.mod_add_mod, Nat.add_assoc]

/-- The scan gets everywhere before it comes back. -/
theorem exists_iterate_nextIndex {start i : Fin n} (h : i ≠ start) :
    ∃ j, 0 < j ∧ j < n ∧ nextIndex^[j] start = i := by
  have hi := i.isLt
  have hs := start.isLt
  have hne : i.val ≠ start.val := fun h' => h (Fin.ext h')
  rcases Nat.lt_or_gt_of_ne hne with hlt | hlt
  · refine ⟨i.val + n - start.val, by omega, by omega, Fin.ext ?_⟩
    rw [iterate_nextIndex_val, show start.val + (i.val + n - start.val) = i.val + n by omega,
      Nat.add_mod_right, Nat.mod_eq_of_lt hi]
  · refine ⟨i.val - start.val, by omega, by omega, Fin.ext ?_⟩
    rw [iterate_nextIndex_val, Nat.add_sub_cancel' hlt.le, Nat.mod_eq_of_lt hi]

theorem iterate_nextIndex_ne {start : Fin n} {j : ℕ} (hpos : 0 < j) (hj : j < n) :
    nextIndex^[j] start ≠ start := by
  intro h
  have hs := start.isLt
  have hval := congrArg Fin.val h
  rw [iterate_nextIndex_val] at hval
  rcases Nat.lt_or_ge (start.val + j) n with hlt | hge
  · rw [Nat.mod_eq_of_lt hlt] at hval
    omega
  · rw [Nat.mod_eq_sub_mod hge, Nat.mod_eq_of_lt (by omega)] at hval
    omega

/-- From the object `j` after the start on. -/
theorem scanBitmap_from (bitmap : Fin n → Bool) (start : Fin n) {k j : ℕ} (hjk : j + k = n) :
    let i := scanBitmap bitmap start k (nextIndex^[j] start)
    (i ≠ start → bitmap i = false) ∧
      (i = start → ∀ m, j < m → m < n → bitmap (nextIndex^[m] start) = true) := by
  induction k generalizing j with
  | zero =>
    have hn : nextIndex^[j] start = start := Fin.ext (by
      rw [iterate_nextIndex_val, show j = n by omega, Nat.add_mod_right,
        Nat.mod_eq_of_lt start.isLt])
    constructor
    · intro hne
      exact absurd hn hne
    · intro _ m hjm hm
      omega
  | succ k ih =>
    intro i
    have hi : i = if bitmap (nextIndex^[j + 1] start) = false ∨ nextIndex^[j + 1] start = start
        then nextIndex^[j + 1] start
        else scanBitmap bitmap start k (nextIndex^[j + 1] start) := by
      rw [Function.iterate_succ_apply']
      rfl
    split at hi
    next hstop =>
      constructor
      · intro hne
        rw [hi] at hne ⊢
        exact hstop.resolve_right hne
      · intro heq m hjm hm
        exact absurd (hi.symm.trans heq) (iterate_nextIndex_ne (by omega) (by omega))
    next hgo =>
      rw [not_or, Bool.not_eq_false] at hgo
      have hih := ih (j := j + 1) (by omega)
      rw [← hi] at hih
      refine ⟨hih.1, fun heq m hjm hm => ?_⟩
      rcases Nat.lt_or_ge (j + 1) m with hlt | hge
      · exact hih.2 heq m hlt hm
      · obtain rfl : m = j + 1 := by omega
        exact hgo.1

/-- An allocation takes an object that was free. -/
theorem Pool.ipcMalloc_some {pool pool' : Pool n} {i : Fin n}
    (h : pool.ipcMalloc = (some i, pool')) :
    i ≠ pool.lastbitmapindex ∧ pool.bitmap i = false ∧
      pool' = ⟨Function.update pool.bitmap i true, i⟩ := by
  have hscan := scanBitmap_from pool.bitmap pool.lastbitmapindex (k := n) (j := 0) (by omega)
  unfold Pool.ipcMalloc at h
  simp only at h
  split at h
  next => cases (Prod.mk.inj h).1
  next hne =>
    obtain ⟨hi, rfl⟩ := Prod.mk.inj h
    obtain rfl := Option.some.inj hi
    exact ⟨hne, hscan.1 hne, rfl⟩

theorem Pool.ipcMalloc_none {pool pool' : Pool n} (h : pool.ipcMalloc = (none, pool')) :
    pool' = pool ∧ pool.free ⊆ {pool.lastbitmapindex} := by
  have hscan := scanBitmap_from pool.bitmap pool.lastbitmapindex (k := n) (j := 0) (by omega)
  unfold Pool.ipcMalloc at h
  simp only at h
  split at h
  next heq =>
    refine ⟨(Prod.mk.inj h).2.symm, fun i hi => ?_⟩
    by_contra hne
    rw [Finset.mem_singleton] at hne
    obtain ⟨j, hpos, hj, rfl⟩ := exists_iterate_nextIndex hne
    have hset := hscan.2 heq j hpos hj
    rw [Pool.free, Finset.mem_filter, hset] at hi
    exact absurd hi.2 nofun
  next => cases (Prod.mk.inj h).1

/-! ## What is left -/

theorem Pool.mem_free {pool : Pool n} {i : Fin n} : i ∈ pool.free ↔ pool.bitmap i = false := by
  simp [Pool.free]

/-- With objects left, one is taken. -/
theorem Pool.ipcMalloc_of_avail {pool : Pool n} (h : 0 < pool.avail) :
    ∃ i pool', pool.ipcMalloc = (some i, pool') ∧ pool'.avail + 1 = pool.avail := by
  have hnot : ¬ pool.free ⊆ {pool.lastbitmapindex} := by
    intro hsub
    rw [Pool.avail, if_pos hsub] at h
    omega
  cases hm : pool.ipcMalloc with
  | mk o pool' =>
    cases o with
    | none => exact absurd (Pool.ipcMalloc_none hm).2 hnot
    | some i =>
      obtain ⟨-, hfree, hpool'⟩ := Pool.ipcMalloc_some hm
      have herase : pool'.free = pool.free.erase i := by
        ext j
        rw [Pool.mem_free, Finset.mem_erase, Pool.mem_free, hpool']
        by_cases hj : j = i
        · simp [hj]
        · simp [hj]
      have hcard : pool'.free.card + 1 = pool.free.card := by
        rw [herase, Finset.card_erase_add_one (Pool.mem_free.mpr hfree)]
      refine ⟨i, pool', rfl, ?_⟩
      rw [Pool.avail, Pool.avail, if_neg hnot, ← hcard]
      split
      next hsub =>
        have hlast : pool'.lastbitmapindex = i := by rw [hpool']
        have hempty : pool'.free = ∅ := by
          rw [Finset.subset_singleton_iff, hlast] at hsub
          refine hsub.resolve_right fun hone => ?_
          rw [herase] at hone
          exact absurd (hone ▸ Finset.mem_singleton_self i) (Finset.notMem_erase i _)
        rw [hempty, Finset.card_empty]
      next => rfl

theorem Pool.ipcMalloc_of_avail_zero {pool : Pool n} (h : pool.avail = 0) :
    pool.ipcMalloc = (none, pool) := by
  cases hm : pool.ipcMalloc with
  | mk o pool' =>
    cases o with
    | none => rw [(Pool.ipcMalloc_none hm).1]
    | some i =>
      obtain ⟨hne, hfree, -⟩ := Pool.ipcMalloc_some hm
      have hmem := Pool.mem_free.mpr hfree
      rw [Pool.avail] at h
      split at h
      next hsub => exact absurd (Finset.mem_singleton.mp (hsub hmem)) hne
      next => exact absurd (Finset.card_eq_zero.mp h ▸ hmem) (Finset.notMem_empty i)

end Filebench
