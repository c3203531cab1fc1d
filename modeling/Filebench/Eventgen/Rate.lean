import Filebench.Eventgen.Queue
import Filebench.Lib.Leak

/-! # The rate of the generator

Each turn of `eventgen_thread` posts the events for the time since its last turn. What the division
cuts off, and the time between the two readings of the clock, is never made up for. -/
namespace Filebench

/-- `FB_SEC2NSEC` -/
def fbSec2nsec : BitVec 64 := 1000000000

/-- The conversion to `int` keeps the low half. -/
def eventgenCount (rate : BitVec 32) (delta : BitVec 64) : BitVec 32 :=
  (rate.signExtend 64 * delta / fbSec2nsec).truncate 32

/-- What happens around a turn: how long the generator slept, in nanoseconds, how long it took from
one reading of the clock to the next, and what the limiters have taken meanwhile. -/
structure GenTick where
  slept : ℕ
  gap : ℕ
  taken : BitVec 64

/-- The variables of the generator, with the time that passed and the events that it has posted. -/
structure GenState where
  last : BitVec 64
  shmEventgenQ : BitVec 64
  elapsed : ℕ
  posted : ℤ

/-- A turn at a positive rate. -/
def eventgenTick (rate : BitVec 32) (s : GenState) (t : GenTick) : Option GenState :=
  let now := s.last + BitVec.ofNat 64 t.slept
  let delta := now - s.last
  let count := eventgenCount rate delta
  let q := s.shmEventgenQ - t.taken
  (eventgenRoom rate q).map fun room =>
    { last := now + BitVec.ofNat 64 t.gap
      shmEventgenQ := if room then q + count.signExtend 64 else q
      elapsed := s.elapsed + t.slept + t.gap
      posted := if room then s.posted + count.toInt else s.posted }

/-- Turns without end at a constant rate, each with the queue below its cap. -/
structure RateRun (rate : BitVec 32) (ticks : ℕ → GenTick) (s : ℕ → GenState) : Prop where
  rate_pos : 0 < rate.toInt
  elapsed : (s 0).elapsed = 0
  posted : (s 0).posted = 0
  below : ∀ n, eventgenRoom rate ((s n).shmEventgenQ - (ticks n).taken) = some true
  tick : ∀ n, eventgenTick rate (s n) (ticks n) = some (s (n + 1))

/-- The events that are due after the time that passed. -/
def GenState.due (rate : BitVec 32) (s : GenState) : ℚ := rate.toInt * (s.elapsed / 1000000000)

/-- Nothing is cut off, the number fits, and no time passes between the readings. -/
structure GenTick.Exact (rate : BitVec 32) (t : GenTick) : Prop where
  gap : t.gap = 0
  whole : 1000000000 ∣ rate.toNat * t.slept
  fits : rate.toNat * t.slept < 2 ^ 31 * 1000000000

variable {rate : BitVec 32} {t : GenTick}

/-- What a turn loses, in events by the nanosecond. -/
def GenTick.loss (rate : BitVec 32) (t : GenTick) : ℤ :=
  rate.toInt * (t.slept + t.gap) -
    1000000000 * (eventgenCount rate (BitVec.ofNat 64 t.slept)).toInt

theorem toInt_of_pos (hpos : 0 < rate.toInt) : rate.toInt = rate.toNat ∧ rate.toNat < 2 ^ 31 := by
  have hlt := rate.isLt
  rw [BitVec.toInt_eq_toNat_cond] at hpos ⊢
  split_ifs at hpos ⊢ with h
  · exact ⟨rfl, by omega⟩
  · omega

/-- The quotient as the code has it. -/
def quotient (rate : BitVec 32) (slept : ℕ) : ℕ := rate.toNat * slept % 2 ^ 64 / 1000000000

theorem eventgenCount_eq (hpos : 0 < rate.toInt) (slept : ℕ) :
    eventgenCount rate (BitVec.ofNat 64 slept) = BitVec.ofNat 32 (quotient rate slept) := by
  apply BitVec.eq_of_toNat_eq
  rw [eventgenCount, BitVec.truncate_eq_setWidth, BitVec.toNat_setWidth, BitVec.toNat_udiv,
    BitVec.toNat_mul, signExtend_toNat hpos.le, BitVec.toNat_ofNat, BitVec.toNat_ofNat,
    Nat.mul_mod_mod]
  rfl

theorem toInt_le_toNat (x : BitVec 32) : x.toInt ≤ x.toNat := by
  rw [BitVec.toInt_eq_toNat_cond]
  split <;> omega

/-- A turn never posts more than is due. -/
theorem eventgenCount_le (hpos : 0 < rate.toInt) (slept : ℕ) :
    1000000000 * (eventgenCount rate (BitVec.ofNat 64 slept)).toInt ≤
      (rate.toNat * slept : ℕ) := by
  have hle := toInt_le_toNat (eventgenCount rate (BitVec.ofNat 64 slept))
  rw [eventgenCount_eq hpos, BitVec.toNat_ofNat, quotient] at hle
  rw [eventgenCount_eq hpos, quotient]
  omega

/-- A turn posts what is due if that is a whole number and fits. -/
theorem eventgenCount_exact (hpos : 0 < rate.toInt) (slept : ℕ) :
    1000000000 * (eventgenCount rate (BitVec.ofNat 64 slept)).toInt = (rate.toNat * slept : ℕ) ↔
      1000000000 ∣ rate.toNat * slept ∧ rate.toNat * slept < 2 ^ 31 * 1000000000 := by
  rw [eventgenCount_eq hpos]
  constructor
  · intro heq
    have hlt := BitVec.toInt_lt (x := BitVec.ofNat 32 (quotient rate slept))
    constructor <;> omega
  · rintro ⟨hdvd, hfits⟩
    have hquotient : quotient rate slept = rate.toNat * slept / 1000000000 := by
      rw [quotient, Nat.mod_eq_of_lt (by omega)]
    rw [BitVec.toInt_eq_toNat_of_lt (by rw [BitVec.toNat_ofNat]; omega), BitVec.toNat_ofNat]
    omega

theorem GenTick.loss_eq (hpos : 0 < rate.toInt) : t.loss rate =
    (rate.toNat * t.slept : ℕ) + (rate.toNat * t.gap : ℕ) -
      1000000000 * (eventgenCount rate (BitVec.ofNat 64 t.slept)).toInt := by
  rw [GenTick.loss, (toInt_of_pos hpos).1]
  push_cast
  ring

theorem GenTick.loss_nonneg (hpos : 0 < rate.toInt) : 0 ≤ t.loss rate := by
  have hle := eventgenCount_le hpos t.slept
  rw [GenTick.loss_eq hpos]
  omega

theorem GenTick.loss_eq_zero_iff (hpos : 0 < rate.toInt) : t.loss rate = 0 ↔ t.Exact rate := by
  have hle := eventgenCount_le hpos t.slept
  have hexact := eventgenCount_exact hpos t.slept
  have hrate := toInt_of_pos hpos
  rw [GenTick.loss_eq hpos]
  constructor
  · intro hzero
    have hgap : rate.toNat * t.gap = 0 := by omega
    have hcount := hexact.mp (by omega)
    exact ⟨(Nat.mul_eq_zero.mp hgap).resolve_left (by omega), hcount.1, hcount.2⟩
  · rintro ⟨hgap, hwhole, hfits⟩
    have hcount := hexact.mpr ⟨hwhole, hfits⟩
    rw [hgap, Nat.mul_zero]
    omega

/-! ## Runs -/

/-- What a turn does to the count and the time. -/
theorem eventgenTick_spec {s s' : GenState} (htick : eventgenTick rate s t = some s')
    (hroom : eventgenRoom rate (s.shmEventgenQ - t.taken) = some true) :
    s'.elapsed = s.elapsed + t.slept + t.gap ∧
      s'.posted = s.posted + (eventgenCount rate (BitVec.ofNat 64 t.slept)).toInt := by
  rw [eventgenTick, hroom] at htick
  obtain rfl := Option.some.inj htick
  have hdelta : s.last + BitVec.ofNat 64 t.slept - s.last = BitVec.ofNat 64 t.slept := by
    rw [BitVec.add_comm, BitVec.add_sub_cancel]
  refine ⟨rfl, ?_⟩
  dsimp only
  rw [if_pos rfl, hdelta]

variable {ticks : ℕ → GenTick} {s : ℕ → GenState}

theorem RateRun.leaks (h : RateRun rate ticks s) :
    Leak.Leaks (fun n => (s n).due rate) (fun n => (s n).posted) (1 / 1000000000)
      fun n => ((ticks n).loss rate).toNat where
  unit_pos := by norm_num
  start := by
    rw [GenState.due, h.elapsed, h.posted]
    norm_num
  step n := by
    have hspec := eventgenTick_spec (h.tick n) (h.below n)
    have hloss : (((ticks n).loss rate).toNat : ℚ) = ((ticks n).loss rate : ℤ) := by
      exact_mod_cast Int.toNat_of_nonneg ((ticks n).loss_nonneg h.rate_pos)
    rw [GenState.due, GenState.due, hspec.1, hspec.2, hloss, GenTick.loss]
    push_cast
    ring

/-- The number of events keeps to the rate if and only if from some turn on all are exact. -/
theorem eventgenThread_rate_iff (h : RateRun rate ticks s) :
    (∃ C : ℚ, ∀ n, |(s n).posted - (s n).due rate| < C) ↔
      ∃ N, ∀ n, N ≤ n → (ticks n).Exact rate := by
  rw [h.leaks.bounded_iff, Leak.Tight]
  refine exists_congr fun N => forall₂_congr fun n _ => ?_
  have hnonneg := (ticks n).loss_nonneg h.rate_pos
  rw [← (ticks n).loss_eq_zero_iff h.rate_pos]
  omega

/-- Turns of the same length, after each of which the ten events that it posted are taken. -/
def steadyTicks (slept n : ℕ) : GenTick := ⟨slept, 0, if n = 0 then 0 else 10⟩

def steadyStates (slept n : ℕ) : GenState :=
  ⟨BitVec.ofNat 64 (n * slept), if n = 0 then 0 else 10, n * slept, 10 * n⟩

theorem steady_run {slept : ℕ} (hcount : eventgenCount 1 (BitVec.ofNat 64 slept) = 10) :
    RateRun 1 (steadyTicks slept) (steadyStates slept) := by
  have hempty : ∀ n, (steadyStates slept n).shmEventgenQ - (steadyTicks slept n).taken = 0 :=
    fun n => BitVec.sub_self _
  have hroom : eventgenRoom 1 0 = some true := by decide
  refine ⟨by decide, Nat.zero_mul _, rfl, fun n => ?_, fun n => ?_⟩
  · rw [hempty, hroom]
  · have hdelta : (steadyStates slept n).last + BitVec.ofNat 64 (steadyTicks slept n).slept -
        (steadyStates slept n).last = BitVec.ofNat 64 slept := by
      rw [BitVec.add_comm, BitVec.add_sub_cancel]
      rfl
    rw [eventgenTick, hempty, hroom, hdelta, hcount, Option.map_some]
    simp [steadyStates, steadyTicks, add_mul, BitVec.ofNat_add, mul_add]

/-- Exactly ten seconds each. -/
theorem eventgenThread_rate_ten :
    ∃ C : ℚ, ∀ n, |(steadyStates 10000000000 n).posted - (steadyStates 10000000000 n).due 1| < C :=
  (eventgenThread_rate_iff (steady_run (by decide))).mpr
    ⟨0, fun _ _ => ⟨rfl, show 1000000000 ∣ (1 : BitVec 32).toNat * 10000000000 by decide,
      show (1 : BitVec 32).toNat * 10000000000 < 2 ^ 31 * 1000000000 by decide⟩⟩

/-- With ten and a half seconds each, every turn loses half an event. -/
theorem eventgenThread_drifts : RateRun 1 (steadyTicks 10500000000) (steadyStates 10500000000) ∧
    ¬ ∃ C : ℚ, ∀ n,
      |(steadyStates 10500000000 n).posted - (steadyStates 10500000000 n).due 1| < C := by
  have hrun : RateRun 1 (steadyTicks 10500000000) (steadyStates 10500000000) :=
    steady_run (by decide)
  refine ⟨hrun, fun hbounded => ?_⟩
  obtain ⟨N, hN⟩ := hrun.leaks.bounded_iff.mp hbounded
  have hloss : ((⟨10500000000, 0, 0⟩ : GenTick).loss 1).toNat ≠ 0 := by decide
  exact absurd (hN N le_rfl) hloss

end Filebench
