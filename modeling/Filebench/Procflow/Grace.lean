import Filebench.Procflow.Types

/-! # The grace period of a worker

`procflow_sleep` is to wait for a worker to stop, for some seconds at most. It takes the bits that
its flag and its counter have in common, so that it goes by the lowest bit of the counter. -/
namespace Filebench

/-- `SHUTDOWN_WAIT_SECONDS` -/
def shutdownWaitSeconds : BitVec 32 := 3

/-- `pf_running` as an `int`. -/
def pfRunningInt (b : Bool) : BitVec 32 := if b then 1 else 0

/-- `pfRunning` is the flag after each second. The result are the seconds that were slept. -/
def sleepLoop (pfRunning : ℕ → Bool) : ℕ → ℕ → BitVec 32 → Option ℕ
  | 0, _, _ => none
  | fuel + 1, slept, waitCnt =>
    if pfRunningInt (pfRunning slept) &&& waitCnt ≠ 0 then
      sleepLoop pfRunning fuel (slept + 1) (waitCnt - 1)
    else some slept

def procflowSleep (pfRunning : ℕ → Bool) (fuel : ℕ) (waitCnt : BitVec 32) : Option ℕ :=
  sleepLoop pfRunning fuel 0 waitCnt

/-- The worker had stopped, or the seconds were over, and neither was so before. -/
structure Grace (pfRunning : ℕ → Bool) (waitCnt : BitVec 32) (slept : ℕ) : Prop where
  ended : pfRunning slept = false ∨ (slept : ℤ) = waitCnt.toInt
  first : ∀ k < slept, pfRunning k = true ∧ (k : ℤ) ≠ waitCnt.toInt

variable {pfRunning : ℕ → Bool} {waitCnt : BitVec 32}

/-- Only a running worker and an odd counter let the loop go on. -/
theorem running_and_ne_zero (b : Bool) (w : BitVec 32) :
    pfRunningInt b &&& w ≠ 0 ↔ b = true ∧ w.toNat % 2 = 1 := by
  have hone : ((1 : BitVec 32) &&& w).toNat = w.toNat % 2 := by
    rw [BitVec.toNat_and, Nat.and_comm]
    exact Nat.and_one_is_mod _
  cases b with
  | false => simp [pfRunningInt]
  | true =>
    rw [pfRunningInt, if_pos rfl, ne_eq, ← BitVec.toNat_inj, hone, and_iff_right rfl]
    change ¬ w.toNat % 2 = 0 ↔ _
    omega

/-- No worker is waited for more than a second. -/
theorem procflowSleep_eq (fuel : ℕ) : procflowSleep pfRunning (fuel + 2) waitCnt =
    some (if pfRunning 0 = true ∧ waitCnt.toNat % 2 = 1 then 1 else 0) := by
  have hcond := running_and_ne_zero (pfRunning 0) waitCnt
  rw [procflowSleep, sleepLoop]
  by_cases hodd : pfRunning 0 = true ∧ waitCnt.toNat % 2 = 1
  · have heven : ¬ (pfRunning 1 = true ∧ (waitCnt - 1).toNat % 2 = 1) := by
      have hlt := waitCnt.isLt
      have hsub : (waitCnt - 1).toNat = (2 ^ 32 - 1 + waitCnt.toNat) % 2 ^ 32 :=
        BitVec.toNat_sub ..
      omega
    rw [if_pos (hcond.mpr hodd), if_pos hodd, sleepLoop,
      if_neg ((running_and_ne_zero _ _).not.mpr heven)]
  · rw [if_neg (hcond.not.mpr hodd), if_neg hodd]

theorem procflowSleep_some {fuel slept : ℕ}
    (h : procflowSleep pfRunning fuel waitCnt = some slept) :
    slept = if pfRunning 0 = true ∧ waitCnt.toNat % 2 = 1 then 1 else 0 := by
  rcases fuel with _ | _ | fuel
  · exact absurd h.symm (Option.some_ne_none _)
  · have hcond := running_and_ne_zero (pfRunning 0) waitCnt
    rw [procflowSleep, sleepLoop] at h
    by_cases hodd : pfRunning 0 = true ∧ waitCnt.toNat % 2 = 1
    · rw [if_pos (hcond.mpr hodd)] at h
      exact absurd h.symm (Option.some_ne_none _)
    · rw [if_neg (hcond.not.mpr hodd)] at h
      rw [if_neg hodd, Option.some.inj h]
  · rw [procflowSleep_eq] at h
    exact (Option.some.inj h).symm

theorem exists_procflowSleep {P : ℕ → Prop} :
    (∃ fuel slept, procflowSleep pfRunning fuel waitCnt = some slept ∧ P slept) ↔
      P (if pfRunning 0 = true ∧ waitCnt.toNat % 2 = 1 then 1 else 0) := by
  constructor
  · rintro ⟨fuel, slept, hsome, hP⟩
    rwa [← procflowSleep_some hsome]
  · exact fun hP => ⟨2, _, procflowSleep_eq 0, hP⟩

/-- The worker has its time if and only if it had stopped already, or there is none to wait, or the
counter is odd and a second is all there is or all it takes. -/
theorem procflowSleep_grace (pfRunning : ℕ → Bool) (h : 0 ≤ waitCnt.toInt) :
    (∃ fuel slept, procflowSleep pfRunning fuel waitCnt = some slept ∧
      Grace pfRunning waitCnt slept) ↔
        waitCnt = 0 ∨ pfRunning 0 = false ∨
          waitCnt.toNat % 2 = 1 ∧ (waitCnt = 1 ∨ pfRunning 1 = false) := by
  have hint : waitCnt.toInt = waitCnt.toNat := by
    rw [BitVec.toInt_eq_toNat_cond] at h ⊢
    split_ifs at h ⊢ <;> omega
  have hzero : waitCnt = 0 ↔ waitCnt.toNat = 0 := by rw [← BitVec.toNat_inj]; rfl
  have hone : waitCnt = 1 ↔ waitCnt.toNat = 1 := by rw [← BitVec.toNat_inj]; rfl
  rw [exists_procflowSleep, hzero, hone]
  by_cases hodd : pfRunning 0 = true ∧ waitCnt.toNat % 2 = 1
  · -- One second is slept.
    rw [if_pos hodd]
    constructor
    · rintro ⟨hended | hended, -⟩
      · exact .inr (.inr ⟨hodd.2, .inr hended⟩)
      · exact .inr (.inr ⟨hodd.2, .inl (by omega)⟩)
    · rintro (hnone | hstopped | ⟨-, hended⟩)
      · omega
      · exact Bool.noConfusion (hodd.1.symm.trans hstopped)
      · refine ⟨hended.symm.imp_right (by omega), fun k hk => ?_⟩
        obtain rfl : k = 0 := by omega
        exact ⟨hodd.1, by omega⟩
  · -- The loop is not entered.
    rw [if_neg hodd]
    constructor
    · rintro ⟨hended | hended, -⟩
      · exact .inr (.inl hended)
      · exact .inl (by omega)
    · rintro (hnone | hstopped | ⟨hcnt, -⟩)
      · exact ⟨.inr (by omega), fun k hk => absurd hk (Nat.not_lt_zero k)⟩
      · exact ⟨.inl hstopped, fun k hk => absurd hk (Nat.not_lt_zero k)⟩
      · have hstopped : pfRunning 0 = false := by
          rw [← Bool.not_eq_true]
          exact fun hrunning => hodd ⟨hrunning, hcnt⟩
        exact ⟨.inl hstopped, fun k hk => absurd hk (Nat.not_lt_zero k)⟩

/-- Three seconds to wait, and the worker stops in the first. -/
theorem procflowSleep_grace_stops : ∃ fuel slept,
    procflowSleep (fun k => decide (k = 0)) fuel shutdownWaitSeconds = some slept ∧
      Grace (fun k => decide (k = 0)) shutdownWaitSeconds slept :=
  (procflowSleep_grace _ (by decide)).mpr (.inr (.inr (by decide)))

/-- Three seconds to wait, and the worker goes on: it is left after one. -/
theorem procflowSleep_short : ¬ ∃ fuel slept,
    procflowSleep (fun _ => true) fuel shutdownWaitSeconds = some slept ∧
      Grace (fun _ => true) shutdownWaitSeconds slept := by
  rw [exists_procflowSleep]
  rintro ⟨hended, -⟩
  exact absurd hended (by decide)

/-! ## The shutdown -/

/-- The counter that `procflow_shutdown` has for one worker after the other. -/
def shutdownCount : ℕ → BitVec 32
  | 0 => shutdownWaitSeconds
  | i + 1 => if 0 < (shutdownCount i).toInt then shutdownCount i - 1 else shutdownCount i

theorem shutdownCount_zero (i : ℕ) : shutdownCount (i + 3) = 0 := by
  induction i with
  | zero => decide
  | succ i ih => rw [shutdownCount, ih, if_neg (by decide)]

/-- Only the first and the third worker are waited for. -/
theorem procflowShutdown_waits (fuel i : ℕ) :
    procflowSleep pfRunning (fuel + 2) (shutdownCount i) =
      some (if pfRunning 0 = true ∧ (i = 0 ∨ i = 2) then 1 else 0) := by
  rw [procflowSleep_eq]
  congr 2
  rw [eq_iff_iff]
  apply and_congr_right
  intro _
  rcases i with _ | _ | _ | i
  · decide
  · decide
  · decide
  · rw [shutdownCount_zero]
    exact iff_of_false (by decide) (by omega)

end Filebench
