import Filebench.Eventgen.Limit
import Filebench.Eventgen.Queue

/-! # The depth of the queue

The producer stops at a depth of five seconds, and a limiter waits for all the events that it needs
at once. It goes on if and only if that depth is enough. -/
namespace Filebench

/-- The events of a sleep of ten periods. -/
def nominalCount : BitVec 32 := 10

def eventgenTicks (rate : BitVec 32) : ℕ → BitVec 64 → Option (BitVec 64)
  | 0, q => some q
  | n + 1, q => (eventgenPost rate nominalCount q).bind (eventgenTicks rate n)

/-- What a limiter with this bucket waits for. -/
def LimitKind.demand (k : LimitKind) (b : Bucket) : Demand := .events (k.events (-b.foTputbucket))

/-- Some number of ticks serves a demand. -/
def Served (rate : BitVec 32) (q : BitVec 64) (d : Demand) : Prop :=
  ∃ n q', eventgenTicks rate n q = some q' ∧ d.met q'

/-- `5 * rate` -/
def eventgenDepth (rate : BitVec 32) : ℕ := (5 * rate.toInt).toNat

/-- The ticks that post something before the depth is reached. -/
def ticksLeft (rate : BitVec 32) (q : BitVec 64) : ℕ := (eventgenDepth rate - q.toNat + 9) / 10

variable {rate : BitVec 32}

theorem eventgenPost_nominal (hpos : 0 < rate.toInt) (hfits : 5 * rate.toInt < 2 ^ 31)
    (q : BitVec 64) : ∃ q', eventgenPost rate nominalCount q = some q' ∧
      q'.toNat = if q.toNat < eventgenDepth rate then q.toNat + 10 else q.toNat := by
  have hroom : eventgenRoom rate q = some (decide (q < BitVec.ofInt 64 (5 * rate.toInt))) :=
    if_pos hfits
  have hlt := lt_ofInt_iff (by omega) hfits q
  rw [eventgenPost, hroom, Option.map_some]
  refine ⟨_, rfl, ?_⟩
  by_cases hq : q < BitVec.ofInt 64 (5 * rate.toInt)
  · have hdepth : q.toNat < eventgenDepth rate := by
      have hq' := hlt.mp hq
      rw [eventgenDepth]
      omega
    have hsmall : eventgenDepth rate < 2 ^ 31 := by
      rw [eventgenDepth]
      omega
    have hten : (nominalCount.signExtend 64).toNat = 10 := by decide
    rw [decide_eq_true hq, if_pos rfl, if_pos hdepth, BitVec.toNat_add, hten, Nat.mod_eq_of_lt]
    omega
  · have hdepth : ¬ q.toNat < eventgenDepth rate := by
      rw [hlt] at hq
      rw [eventgenDepth]
      omega
    rw [decide_eq_false hq, if_neg hdepth]
    rfl

/-- The queue after some ticks. -/
theorem eventgenTicks_toNat (hpos : 0 < rate.toInt) (hfits : 5 * rate.toInt < 2 ^ 31) (n : ℕ)
    (q : BitVec 64) : ∃ q', eventgenTicks rate n q = some q' ∧
      q'.toNat = q.toNat + 10 * min n (ticksLeft rate q) := by
  induction n generalizing q with
  | zero => exact ⟨q, rfl, by omega⟩
  | succ n ih =>
    obtain ⟨q₁, hpost, hq₁⟩ := eventgenPost_nominal hpos hfits q
    obtain ⟨q', hticks, hq'⟩ := ih q₁
    refine ⟨q', ?_, ?_⟩
    · rw [eventgenTicks, hpost]
      exact hticks
    · rw [hq']
      unfold ticksLeft
      rw [hq₁]
      split <;> omega

theorem eventgenTicks_overflow (hover : ¬ 5 * rate.toInt < 2 ^ 31) {n : ℕ} {q q' : BitVec 64}
    (h : eventgenTicks rate n q = some q') : q' = q := by
  cases n with
  | zero => exact (Option.some.inj h).symm
  | succ n =>
    have hroom : eventgenRoom rate q = none := if_neg hover
    rw [eventgenTicks, eventgenPost, hroom] at h
    cases h

/-- A demand is served if and only if there are enough events, or the producer gets as far as that
before it stops. -/
theorem limiter_served_iff (k : LimitKind) (b : Bucket) (hpos : 0 < rate.toInt) (q : BitVec 64) :
    Served rate q (k.demand b) ↔ (k.demand b).met q ∨ 5 * rate.toInt < 2 ^ 31 ∧
      (k.demand b).amount.toNat ≤ q.toNat + 10 * ticksLeft rate q := by
  have hmet : ∀ q, (k.demand b).met q = true ↔ (k.demand b).amount.toNat ≤ q.toNat := by
    intro q
    exact decide_eq_true_iff.trans BitVec.le_def
  rw [Served]
  by_cases hfits : 5 * rate.toInt < 2 ^ 31
  · simp only [hmet, hfits, true_and]
    constructor
    · rintro ⟨n, q', hticks, hamount⟩
      obtain ⟨q'', hticks', hq''⟩ := eventgenTicks_toNat hpos hfits n q
      obtain rfl := Option.some.inj (hticks.symm.trans hticks')
      right
      omega
    · intro hamount
      obtain ⟨q', hticks, hq'⟩ := eventgenTicks_toNat hpos hfits (ticksLeft rate q) q
      refine ⟨_, q', hticks, ?_⟩
      omega
  · simp only [hfits, false_and, or_false]
    constructor
    · rintro ⟨n, q', hticks, hamount⟩
      rwa [eventgenTicks_overflow hfits hticks] at hamount
    · exact fun hamount => ⟨0, q, rfl, hamount⟩

/-- Fifteen operations between two invocations at a rate of one: the queue stops at ten events. -/
theorem limiter_stuck : ¬ ∀ (k : LimitKind) (b : Bucket) (rate : BitVec 32) (q : BitVec 64),
    0 < rate.toInt → (∀ events, k.Awaits b events → Served rate q (k.demand b)) := by
  intro h
  have hawaits : LimitKind.iops.Awaits ⟨-15, 20⟩ 15 := ⟨by decide, by decide, by decide⟩
  obtain ⟨n, q', hticks, hmet⟩ := h .iops ⟨-15, 20⟩ 1 0 (by decide) 15 hawaits
  have hpos : 0 < (1 : BitVec 32).toInt := by decide
  obtain ⟨q'', hticks', hq''⟩ := eventgenTicks_toNat hpos (by decide) n 0
  obtain rfl := Option.some.inj (hticks.symm.trans hticks')
  have hleft : ticksLeft 1 0 = 1 := by decide
  have hamount : 15 ≤ q'.toNat := amount_le hmet
  rw [hleft] at hq''
  have hzero : (0 : BitVec 64).toNat = 0 := rfl
  omega

/-- Nine operations are waited for no longer than one tick. -/
theorem limiter_served_nine : Served 1 0 (LimitKind.iops.demand ⟨-9, 20⟩) :=
  (limiter_served_iff .iops ⟨-9, 20⟩ (by decide) 0).mpr (.inr ⟨by decide, by decide⟩)

end Filebench
