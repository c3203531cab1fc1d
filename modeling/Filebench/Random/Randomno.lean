import Filebench.Fileset.Pick
import Filebench.Vars.Types
import Mathlib.Data.BitVec

/-! # Random offsets

A random word is scaled down, rounded to a multiple and clipped, in the arithmetic of machine
words. The functions for the two word sizes are one definition. -/
namespace Filebench.FbRandom

/-- Where a random number comes from: a variable or the device. -/
inductive Source (w : ℕ) where
  | avd (value : FbInt)
  | urandom (value : BitVec w)

def Source.value {w : ℕ} : Source w → BitVec w
  | .avd value => value.setWidth w
  | .urandom value => value

/-- A division by zero has no result. -/
def divide {w : ℕ} (x y : BitVec w) : Option (BitVec w) := if y = 0 then none else some (x / y)

/-- What a call returns, with what is stored. -/
structure RandRet (w : ℕ) where
  ret : ℤ
  randp : BitVec w
  deriving DecidableEq

/-- `filebench_randomno64` and `filebench_randomno32`. -/
def randomno {w : ℕ} (randmax : BitVec w) (max round : BitVec w) (random : Source w) :
    Option (RandRet w) :=
  if max ≤ round then some ⟨if max = round then 0 else -1, 0⟩
  else do
    let max := max - round
    let random ← divide random.value (← divide randmax max)
    let random ← if round ≠ 0 then (divide random round).map (· * round) else some random
    some ⟨0, if max < random then max else random⟩

def filebenchRandmax64 : BitVec 64 := 0xffffffffffffffff

def filebenchRandmax32 : BitVec 32 := 0xffffffff

def filebenchRandomno64 : BitVec 64 → BitVec 64 → Source 64 → Option (RandRet 64) :=
  randomno filebenchRandmax64

def filebenchRandomno32 : BitVec 32 → BitVec 32 → Source 32 → Option (RandRet 32) :=
  randomno filebenchRandmax32

/-! ## The number before it is clipped -/

/-- The random number at the scale of `max`, in steps of `round`. -/
def scaled (randmax max round random : ℕ) : ℕ :=
  let random := random / (randmax / (max - round))
  if round ≠ 0 then random / round * round else random

section scaled

variable {w : ℕ} {randmax max round : BitVec w}

theorem divide_some {x y : BitVec w} (h : 0 < y.toNat) : divide x y = some (x / y) := by
  refine if_neg ?_
  rintro rfl
  simp at h

theorem toNat_round {x : BitVec w} :
    (x / round * round).toNat = x.toNat / round.toNat * round.toNat := by
  rw [BitVec.toNat_mul, BitVec.toNat_udiv]
  exact Nat.mod_eq_of_lt ((Nat.div_mul_le_self ..).trans_lt x.isLt)

theorem toNat_clip (x y : BitVec w) : (if x < y then x else y).toNat = min x.toNat y.toNat := by
  split
  · rename_i h
    exact (min_eq_left (BitVec.lt_def.mp h).le).symm
  · rename_i h
    exact (min_eq_right (not_lt.mp fun hlt => h (BitVec.lt_def.mpr hlt))).symm

/-- No division is by zero, and the number is cut off at `max - round`. -/
theorem randomno_some (hmax : max.toNat ≤ randmax.toNat) (hlt : round < max) (random : Source w) :
    ∃ r, randomno randmax max round random = some ⟨0, r⟩ ∧
      r.toNat = min (max.toNat - round.toNat)
        (scaled randmax.toNat max.toNat round.toNat random.value.toNat) := by
  have hlt' : round.toNat < max.toNat := BitVec.lt_def.mp hlt
  have hsub : (max - round).toNat = max.toNat - round.toNat := BitVec.toNat_sub_of_le hlt'.le
  have hscale : (randmax / (max - round)).toNat = randmax.toNat / (max.toNat - round.toNat) := by
    rw [BitVec.toNat_udiv, hsub]
  have hpos : 0 < (randmax / (max - round)).toNat := by
    rw [hscale]
    exact Nat.div_pos (by omega) (by omega)
  have hsub_pos : 0 < (max - round).toNat := by omega
  rw [randomno, if_neg (BitVec.not_le.mpr hlt), scaled]
  simp only [divide_some hsub_pos, divide_some hpos, Option.bind_eq_bind, Option.bind_some]
  by_cases hround : round = 0
  · subst hround
    refine ⟨_, rfl, ?_⟩
    rw [toNat_clip, hsub, BitVec.toNat_udiv, hscale]
    simp
  · have hround' : round.toNat ≠ 0 := fun h => hround (BitVec.eq_of_toNat_eq (by simpa using h))
    rw [if_pos hround, divide_some (Nat.pos_of_ne_zero hround'), if_pos hround']
    refine ⟨_, rfl, ?_⟩
    rw [toNat_clip, hsub, toNat_round, BitVec.toNat_udiv, hscale]

/-- When there is no room for a choice a call succeeds only if `round` just fits. -/
theorem randomno_of_le {random : Source w} {r : RandRet w} (hle : max ≤ round)
    (h : randomno randmax max round random = some r) (hret : r.ret = 0) :
    max = round ∧ r.randp = 0 := by
  rw [randomno, if_pos hle] at h
  obtain rfl := Option.some.inj h
  refine ⟨?_, rfl⟩
  by_contra hne
  rw [if_neg hne] at hret
  cases hret

/-- A call either fails, or its number leaves room for `round`. -/
theorem randomno_fits (hmax : max.toNat ≤ randmax.toNat) (round : BitVec w) (random : Source w) :
    ∃ r, randomno randmax max round random = some r ∧ (r.ret = 0 ∨ r.ret = -1) ∧
      (r.ret = 0 → r.randp.toNat + round.toNat ≤ max.toNat) := by
  by_cases hle : max ≤ round
  · have h : randomno randmax max round random = some ⟨if max = round then 0 else -1, 0⟩ :=
      if_pos hle
    refine ⟨_, h, ite_eq_or_eq .., fun hret => ?_⟩
    obtain ⟨rfl, -⟩ := randomno_of_le hle h hret
    simp
  · have hlt := BitVec.not_le.mp hle
    obtain ⟨r, hr, hval⟩ := randomno_some hmax hlt random
    refine ⟨_, hr, .inl rfl, fun _ => ?_⟩
    have hlt' := BitVec.lt_def.mp hlt
    dsimp only
    omega

end scaled

theorem le_allOnes {w : ℕ} {randmax : BitVec w} (h : randmax = BitVec.allOnes w) (max : BitVec w) :
    max.toNat ≤ randmax.toNat := by
  rw [h, BitVec.toNat_allOnes]
  have hlt := max.isLt
  omega

theorem le_randmax64 (max : BitVec 64) : max.toNat ≤ filebenchRandmax64.toNat :=
  le_allOnes (by decide) max

theorem le_randmax32 (max : BitVec 32) : max.toNat ≤ filebenchRandmax32.toNat :=
  le_allOnes (by decide) max

/-- A random offset with a length of `round` lies within `max`. -/
theorem filebenchRandomno_fits :
    (∀ max round random, ∃ r, filebenchRandomno64 max round random = some r ∧
      (r.ret = 0 → r.randp.toNat + round.toNat ≤ max.toNat)) ∧
    ∀ max round random, ∃ r, filebenchRandomno32 max round random = some r ∧
      (r.ret = 0 → r.randp.toNat + round.toNat ≤ max.toNat) := by
  constructor
  · intro max round random
    obtain ⟨r, hr, -, hfits⟩ := randomno_fits (le_randmax64 max) round random
    exact ⟨r, hr, hfits⟩
  · intro max round random
    obtain ⟨r, hr, -, hfits⟩ := randomno_fits (le_randmax32 max) round random
    exact ⟨r, hr, hfits⟩

/-- The function over natural numbers that a pick uses computes the same. -/
theorem randomno64_toNat (max round : BitVec 64) (random : Source 64) :
    (filebenchRandomno64 max round random).map
        (fun r => if r.ret = 0 then some r.randp.toNat else none) =
      some (Filebench.filebenchRandomno64 random.value.toNat max.toNat round.toNat) := by
  unfold Filebench.filebenchRandomno64
  by_cases hle : max ≤ round
  · rw [filebenchRandomno64, randomno, if_pos hle, if_pos (BitVec.le_def.mp hle)]
    by_cases heq : max = round
    · simp [heq]
    · have hne : max.toNat ≠ round.toNat := fun h => heq (BitVec.eq_of_toNat_eq h)
      simp [heq, hne]
  · have hlt := BitVec.not_le.mp hle
    obtain ⟨r, hr, hval⟩ := randomno_some (le_randmax64 max) hlt random
    rw [filebenchRandomno64, hr, if_neg (Nat.not_le.mpr (BitVec.lt_def.mp hlt))]
    simp only [Option.map_some, hval, if_true]
    rw [min_def_lt]
    rfl

/-! ## Alignment -/

/-- When `round` divides the result: it divides `max`, or the number is too small for the clip. -/
def StaysAligned (randmax max round random : ℕ) : Prop :=
  round ∣ max ∨ random < max / round * round * (randmax / (max - round))

section aligned

variable {n m r x : ℕ}

theorem div_mul_le_iff (hr : 0 < r) : x / r * r ≤ m ↔ x < (m / r + 1) * r := by
  rw [← Nat.le_div_iff_mul_le hr, ← Nat.div_lt_iff_lt_mul hr, Nat.lt_succ_iff]

/-- The next multiple of `round` after `max - round`. -/
theorem next_multiple (hr : 0 < r) (hlt : r < m) : ((m - r) / r + 1) * r = m / r * r := by
  rw [← Nat.add_div_right (m - r) hr, Nat.sub_add_cancel hlt.le]

theorem dvd_clip_iff (hr : 0 < r) (hlt : r < m) (hscale : 0 < n / (m - r)) :
    r ∣ min (m - r) (scaled n m r x) ↔ StaysAligned n m r x := by
  have hdvd : r ∣ scaled n m r x := by
    rw [scaled, if_pos hr.ne']
    exact dvd_mul_left ..
  have hclip : scaled n m r x ≤ m - r ↔ x < m / r * r * (n / (m - r)) := by
    rw [scaled, if_pos hr.ne', div_mul_le_iff hr, next_multiple hr hlt,
      Nat.div_lt_iff_lt_mul hscale]
  by_cases hle : scaled n m r x ≤ m - r
  · rw [min_eq_right hle]
    exact iff_of_true hdvd (.inr (hclip.mp hle))
  · rw [min_eq_left (not_le.mp hle).le, StaysAligned, ← hclip, or_iff_left hle]
    exact Nat.dvd_sub_iff_left hlt.le dvd_rfl

/-- While the square of `max - round` is a random number the clip never acts. -/
theorem staysAligned_of_sq (hr : 0 < r) (hlt : r < m) (hx : x ≤ n)
    (hsq : (m - r) * (m - r) ≤ n) : StaysAligned n m r x := by
  by_cases hdvd : r ∣ m
  · exact .inl hdvd
  · right
    have hm : 0 < m - r := Nat.sub_pos_of_lt hlt
    have hnext : m - r + 1 ≤ m / r * r := by
      have hmod := Nat.mod_lt m hr
      have hsplit := Nat.div_add_mod' m r
      omega
    have hd : m - r ≤ n / (m - r) := (Nat.le_div_iff_mul_le hm).mpr hsq
    have hn := Nat.lt_mul_div_succ n hm
    calc x ≤ n := hx
      _ < (m - r) * (n / (m - r) + 1) := hn
      _ ≤ (m - r + 1) * (n / (m - r)) := by
        rw [Nat.mul_succ, Nat.succ_mul]
        omega
      _ ≤ m / r * r * (n / (m - r)) := Nat.mul_le_mul_right _ hnext

end aligned

theorem randomno_dvd_iff {w : ℕ} {randmax max round : BitVec w} {random : Source w}
    {r : RandRet w} (hmax : max.toNat ≤ randmax.toNat) (hround : round ≠ 0)
    (h : randomno randmax max round random = some r) (hret : r.ret = 0) :
    round.toNat ∣ r.randp.toNat ↔
      StaysAligned randmax.toNat max.toNat round.toNat random.value.toNat := by
  have hr : 0 < round.toNat :=
    Nat.pos_of_ne_zero fun h => hround (BitVec.eq_of_toNat_eq (by simpa using h))
  by_cases hle : max ≤ round
  · obtain ⟨rfl, hzero⟩ := randomno_of_le hle h hret
    rw [hzero]
    exact iff_of_true (dvd_zero _) (.inl dvd_rfl)
  · have hlt := BitVec.not_le.mp hle
    obtain ⟨v, hv, hval⟩ := randomno_some hmax hlt random
    obtain rfl := Option.some.inj (hv.symm.trans h)
    rw [BitVec.lt_def] at hlt
    rw [hval]
    exact dvd_clip_iff hr hlt (Nat.div_pos (by omega) (by omega))

/-- Offsets within four gigabytes stay aligned. -/
theorem filebenchRandomno64_aligned {max round : BitVec 64} {random : Source 64} {r : RandRet 64}
    (hround : round ≠ 0) (hsmall : max.toNat - round.toNat < 2 ^ 32)
    (h : filebenchRandomno64 max round random = some r) (hret : r.ret = 0) :
    round.toNat ∣ r.randp.toNat := by
  rw [randomno_dvd_iff (le_randmax64 max) hround h hret]
  by_cases hle : max ≤ round
  · obtain ⟨rfl, -⟩ := randomno_of_le hle h hret
    exact .inl dvd_rfl
  · have hr : 0 < round.toNat :=
      Nat.pos_of_ne_zero fun h => hround (BitVec.eq_of_toNat_eq (by simpa using h))
    refine staysAligned_of_sq hr (BitVec.lt_def.mp (BitVec.not_le.mp hle)) (le_randmax64 _) ?_
    have hsq := Nat.mul_le_mul (Nat.le_pred_of_lt hsmall) (Nat.le_pred_of_lt hsmall)
    exact hsq.trans (by decide)

/-- A random offset is a multiple of `round` exactly when `round` divides `max` or the random
number is below a bound, which lies above all of them while `max` is small. -/
theorem filebenchRandomno_aligned_iff (max round : BitVec 64) (random : Source 64)
    (max32 round32 : BitVec 32) (random32 : Source 32) :
    (∀ r, round ≠ 0 → filebenchRandomno64 max round random = some r → r.ret = 0 →
      (round.toNat ∣ r.randp.toNat ↔
        StaysAligned (2 ^ 64 - 1) max.toNat round.toNat random.value.toNat)) ∧
    ∀ r, round32 ≠ 0 → filebenchRandomno32 max32 round32 random32 = some r → r.ret = 0 →
      (round32.toNat ∣ r.randp.toNat ↔
        StaysAligned (2 ^ 32 - 1) max32.toNat round32.toNat random32.value.toNat) :=
  ⟨fun _ hround h hret => randomno_dvd_iff (le_randmax64 max) hround h hret,
    fun _ hround h hret => randomno_dvd_iff (le_randmax32 max32) hround h hret⟩

/-- A device of a little more than a terabyte, with a length of eight kilobytes. -/
theorem filebenchRandomno_aligned_terabyte :
    (8192 ∣ (975781953536 : BitVec 64).toNat ↔
      StaysAligned (2 ^ 64 - 1) 1000000000001 8192 18000000000000000000) ∧
    (2 ∣ (209594 : BitVec 32).toNat ↔ StaysAligned (2 ^ 32 - 1) 1000001 2 900000000) := by
  have h := filebenchRandomno_aligned_iff 1000000000001 8192 (.urandom 18000000000000000000)
    1000001 2 (.urandom 900000000)
  exact ⟨h.1 ⟨0, 975781953536⟩ (by decide) (by decide) rfl,
    h.2 ⟨0, 209594⟩ (by decide) (by decide) rfl⟩

/-- The largest random number is cut off at a size that is not a multiple. -/
theorem filebenchRandomno_unaligned :
    filebenchRandomno64 1000000000001 8192 (.urandom (-1)) = some ⟨0, 999999991809⟩ ∧
      ¬ 8192 ∣ (999999991809 : BitVec 64).toNat ∧
    filebenchRandomno32 1000001 2 (.urandom (-1)) = some ⟨0, 999999⟩ ∧
      ¬ 2 ∣ (999999 : BitVec 32).toNat := by
  decide

end Filebench.FbRandom
