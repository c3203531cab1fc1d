import Filebench.Lib.Trace

/-! # The event queue

The generator posts events and the limiters consume them, each in a section of its own that holds
`shm_eventgen_lock`. -/
namespace Filebench

/-! ## One tick and one demand -/

/-- The rate and the number of events of one turn of `eventgen_thread`, which goes on only with a
positive rate. -/
structure Tick where
  rate : BitVec 32
  count : BitVec 32
  rate_pos : 0 < rate.toInt
  count_nonneg : 0 ≤ count.toInt

/-- The test of the producer. Where `5 * rate` is no `int` it is undefined. -/
def eventgenRoom (rate : BitVec 32) (q : BitVec 64) : Option Bool :=
  if 5 * rate.toInt < 2 ^ 31 then some (q < BitVec.ofInt 64 (5 * rate.toInt)) else none

/-- The critical section of the producer. -/
def eventgenPost (rate count : BitVec 32) (q : BitVec 64) : Option (BitVec 64) :=
  (eventgenRoom rate q).map fun room => if room then q + count.signExtend 64 else q

/-- What a consumer waits for: `flowoplib_eventlimit` for one event, the others for what they have
computed. -/
inductive Demand where
  | event
  | events (n : BitVec 64)
  deriving DecidableEq, Repr

def Demand.met : Demand → BitVec 64 → Bool
  | .event, q => 0 < q
  | .events n, q => n ≤ q

def Demand.amount : Demand → BitVec 64
  | .event => 1
  | .events n => n

theorem amount_le {d : Demand} {q : BitVec 64} (h : d.met q) :
    d.amount.toNat ≤ q.toNat := by
  cases d with
  | event =>
    have hpos : (0 : BitVec 64) < q := of_decide_eq_true h
    exact BitVec.lt_def.mp hpos
  | events n =>
    have hle : n ≤ q := of_decide_eq_true h
    exact BitVec.le_def.mp hle

theorem lt_ofInt_iff {i : ℤ} (hpos : 0 ≤ i) (hlt : i < 2 ^ 31) (q : BitVec 64) :
    q < BitVec.ofInt 64 i ↔ (q.toNat : ℤ) < i := by
  have hi : (BitVec.ofInt 64 i).toNat = i.toNat := by
    rw [BitVec.toNat_ofInt, Int.emod_eq_of_lt hpos (hlt.trans (by norm_num))]
  rw [BitVec.lt_def, hi]
  omega

theorem eventgenRoom_iff {rate : BitVec 32} (hpos : 0 < rate.toInt) (q : BitVec 64) :
    eventgenRoom rate q = some true ↔ 5 * rate.toInt < 2 ^ 31 ∧ (q.toNat : ℤ) < 5 * rate.toInt := by
  rw [eventgenRoom, Option.ite_none_right_eq_some, Option.some.injEq, decide_eq_true_eq]
  refine and_congr_right fun hrate => ?_
  exact lt_ofInt_iff (by omega) hrate q

/-! ## Turns -/

inductive GenPc where
  | idle
  | locking (tick : Tick)
  | testing (tick : Tick)
  | adding (tick : Tick)
  | unlocking

/-- Where a limiter is. `pthread_cond_wait` lets the lock go and takes it again, after which the
test is made anew. -/
inductive LimitPc where
  | idle
  | locking (d : Demand)
  | testing (d : Demand)
  | taking (d : Demand)
  | unlocking
  | waiting (d : Demand)
  | waking (d : Demand)
  | woken (d : Demand)
  deriving DecidableEq, Repr

inductive QueueUser (θ : Type) where
  | generator
  | limiter (t : θ)
  deriving DecidableEq, Repr

/-- The queue with its users. What was posted and consumed since `eventgen_reset` is on record. -/
structure QueueState (θ : Type) where
  shmEventgenQ : BitVec 64
  shmEventgenLock : Option (QueueUser θ)
  gen : GenPc
  limiters : θ → LimitPc
  posted : ℕ
  consumed : ℕ

inductive QueueEvent (θ : Type) where
  | tick (tick : Tick)
  | generator
  | demand (t : θ) (d : Demand)
  | limiter (t : θ)
  | wake (t : θ)
  | disabled (t : θ)

variable {θ : Type} [DecidableEq θ]

def QueueState.lock (s : QueueState θ) (u : QueueUser θ) : Option (QueueState θ) :=
  if s.shmEventgenLock = none then some { s with shmEventgenLock := some u } else none

def QueueState.unlock (s : QueueState θ) : QueueState θ := { s with shmEventgenLock := none }

def QueueState.setLimiter (s : QueueState θ) (t : θ) (pc : LimitPc) : QueueState θ :=
  { s with limiters := Function.update s.limiters t pc }

theorem setLimiter_self (s : QueueState θ) (t : θ) (pc : LimitPc) :
    (s.setLimiter t pc).limiters t = pc :=
  Function.update_self ..

theorem setLimiter_of_ne (s : QueueState θ) {t u : θ} (h : u ≠ t) (pc : LimitPc) :
    (s.setLimiter t pc).limiters u = s.limiters u :=
  Function.update_of_ne h ..

def QueueState.generatorStep (s : QueueState θ) : Option (QueueState θ) :=
  match s.gen with
  | .idle => none
  | .locking tick => (s.lock .generator).map fun s => { s with gen := .testing tick }
  | .testing tick => (eventgenRoom tick.rate s.shmEventgenQ).map fun room =>
      { s with gen := if room then .adding tick else .unlocking }
  | .adding tick => some { s with
      shmEventgenQ := s.shmEventgenQ + tick.count.signExtend 64
      posted := s.posted + tick.count.toNat
      gen := .unlocking }
  | .unlocking => some { s.unlock with gen := .idle }

def QueueState.limiterStep (s : QueueState θ) (t : θ) : Option (QueueState θ) :=
  match s.limiters t with
  | .idle => none
  | .locking d => (s.lock (.limiter t)).map fun s => s.setLimiter t (.testing d)
  | .testing d =>
    some (if d.met s.shmEventgenQ then s.setLimiter t (.taking d)
      else s.unlock.setLimiter t (.waiting d))
  | .taking d => some { s.setLimiter t .unlocking with
      shmEventgenQ := s.shmEventgenQ - d.amount
      consumed := s.consumed + d.amount.toNat }
  | .unlocking => some (s.unlock.setLimiter t .idle)
  | .waiting _ => none
  | .waking d => (s.lock (.limiter t)).map fun s => s.setLimiter t (.woken d)
  | .woken d => some (s.unlock.setLimiter t (.locking d))

/-- A limiter may be woken at any time. It gives up where the generator is not enabled. -/
def QueueState.next (s : QueueState θ) : QueueEvent θ → Option (QueueState θ)
  | .tick tick => match s.gen with
    | .idle => some { s with gen := .locking tick }
    | _ => none
  | .generator => s.generatorStep
  | .demand t d => if s.limiters t = .idle then some (s.setLimiter t (.locking d)) else none
  | .limiter t => s.limiterStep t
  | .wake t => match s.limiters t with
    | .waiting d => some (s.setLimiter t (.waking d))
    | _ => none
  | .disabled t => match s.limiters t with
    | .locking _ => some (s.setLimiter t .idle)
    | _ => none

def GenPc.holds : GenPc → Bool
  | .testing _ | .adding _ | .unlocking => true
  | _ => false

def LimitPc.holds : LimitPc → Bool
  | .testing _ | .taking _ | .unlocking | .woken _ => true
  | _ => false

/-- Right after `eventgen_reset`, with nobody inside a critical section. -/
structure QueueStart (s : QueueState θ) : Prop where
  q : s.shmEventgenQ = 0
  lock : s.shmEventgenLock = none
  gen : s.gen.holds = false
  limiters : ∀ t, (s.limiters t).holds = false
  posted : s.posted = 0
  consumed : s.consumed = 0

abbrev QueueRun : List (QueueState θ × QueueEvent θ) → QueueState θ → Prop :=
  Trace.Run QueueState.next QueueStart

/-! ## Conservation -/

/-- Who is inside holds the lock, what was tested still holds, and nothing is lost. -/
structure QueueInv (s : QueueState θ) : Prop where
  gen : s.gen.holds → s.shmEventgenLock = some .generator
  limiters : ∀ t, (s.limiters t).holds → s.shmEventgenLock = some (.limiter t)
  room : ∀ tick, s.gen = .adding tick → eventgenRoom tick.rate s.shmEventgenQ = some true
  met : ∀ t d, s.limiters t = .taking d → d.met s.shmEventgenQ
  conserved : s.posted = s.consumed + s.shmEventgenQ.toNat

variable {s s' : QueueState θ}

theorem QueueStart.inv (h : QueueStart s) : QueueInv s := by
  constructor
  · intro hholds
    exact absurd (h.gen.symm.trans hholds) nofun
  · intro t hholds
    exact absurd ((h.limiters t).symm.trans hholds) nofun
  · intro tick hpc
    have hgen := h.gen
    rw [hpc] at hgen
    cases hgen
  · intro t d hpc
    have hlimiter := h.limiters t
    rw [hpc] at hlimiter
    cases hlimiter
  · rw [h.posted, h.consumed, h.q]
    rfl

theorem signExtend_toNat {x : BitVec 32} (h : 0 ≤ x.toInt) :
    (x.signExtend 64).toNat = x.toNat := by
  have hmsb : x.msb = false := by
    rw [BitVec.msb_eq_toInt]
    exact decide_eq_false (not_lt.mpr h)
  rw [BitVec.signExtend_eq_setWidth_of_msb_false hmsb, BitVec.toNat_setWidth]
  have hlt := x.isLt
  omega

theorem signExtend_count (tick : Tick) :
    (tick.count.signExtend 64).toNat = tick.count.toNat :=
  signExtend_toNat tick.count_nonneg

/-- The addition of the producer does not run over. -/
theorem toNat_post {tick : Tick} {q : BitVec 64} (hroom : eventgenRoom tick.rate q = some true) :
    (q + tick.count.signExtend 64).toNat = q.toNat + tick.count.toNat := by
  obtain ⟨hrate, hq⟩ := (eventgenRoom_iff tick.rate_pos q).mp hroom
  have hcount := tick.count.isLt
  rw [BitVec.toNat_add, signExtend_count, Nat.mod_eq_of_lt]
  have hsmall : q.toNat < 2 ^ 31 := by omega
  omega

theorem toNat_take {d : Demand} {q : BitVec 64} (hmet : d.met q) :
    (q - d.amount).toNat = q.toNat - d.amount.toNat :=
  BitVec.toNat_sub_of_le (BitVec.le_def.mpr (amount_le hmet))

/-- With the lock free nobody is inside. -/
theorem QueueInv.free (h : QueueInv s) (hlock : s.shmEventgenLock = none) :
    s.gen.holds = false ∧ ∀ t, (s.limiters t).holds = false := by
  constructor
  · by_contra hholds
    exact nomatch hlock.symm.trans (h.gen (Bool.of_not_eq_false hholds))
  · intro t
    by_contra hholds
    exact nomatch hlock.symm.trans (h.limiters t (Bool.of_not_eq_false hholds))

/-- The generator is inside: no limiter is. -/
theorem QueueInv.alone (h : QueueInv s) (hlock : s.shmEventgenLock = some .generator) (t : θ) :
    (s.limiters t).holds = false := by
  by_contra hholds
  exact nomatch hlock.symm.trans (h.limiters t (Bool.of_not_eq_false hholds))

/-- A limiter is inside: nobody else is. -/
theorem QueueInv.aloneLimiter (h : QueueInv s) {t : θ}
    (hlock : s.shmEventgenLock = some (.limiter t)) :
    s.gen.holds = false ∧ ∀ u, u ≠ t → (s.limiters u).holds = false := by
  constructor
  · by_contra hholds
    exact nomatch hlock.symm.trans (h.gen (Bool.of_not_eq_false hholds))
  · intro u hu
    by_contra hholds
    have huser := hlock.symm.trans (h.limiters u (Bool.of_not_eq_false hholds))
    exact hu (QueueUser.limiter.inj (Option.some.inj huser)).symm

theorem not_taking {pc : LimitPc} (h : pc.holds = false) (d : Demand) : pc ≠ .taking d := by
  rintro rfl
  cases h

theorem not_adding {pc : GenPc} (h : pc.holds = false) (tick : Tick) : pc ≠ .adding tick := by
  rintro rfl
  cases h

theorem QueueInv.generatorStep (h : QueueInv s) (hstep : s.generatorStep = some s') :
    QueueInv s' := by
  unfold QueueState.generatorStep at hstep
  split at hstep
  next => cases hstep
  next tick hpc =>
    obtain ⟨s₁, hlock, rfl⟩ := Option.map_eq_some_iff.mp hstep
    obtain ⟨hnone, hs₁⟩ := Option.ite_none_right_eq_some.mp hlock
    obtain rfl := Option.some.inj hs₁
    have hfree := (h.free hnone).2
    constructor
    · exact fun _ => rfl
    · exact fun t hholds => absurd ((hfree t).symm.trans hholds) nofun
    · exact nofun
    · exact h.met
    · exact h.conserved
  next tick hpc =>
    obtain ⟨room, hroom, rfl⟩ := Option.map_eq_some_iff.mp hstep
    have hlock := h.gen (by rw [hpc]; rfl)
    constructor
    · exact fun _ => hlock
    · exact h.limiters
    · intro tick' hadding
      cases room with
      | false => cases hadding
      | true =>
        obtain rfl := GenPc.adding.inj hadding
        exact hroom
    · exact h.met
    · exact h.conserved
  next tick hpc =>
    obtain rfl := Option.some.inj hstep
    have hlock := h.gen (by rw [hpc]; rfl)
    constructor
    · exact fun _ => hlock
    · exact h.limiters
    · exact nofun
    · exact fun t d htaking => absurd htaking (not_taking (h.alone hlock t) d)
    · have hconserved := h.conserved
      rw [toNat_post (h.room tick hpc)]
      dsimp only
      omega
  next hpc =>
    obtain rfl := Option.some.inj hstep
    have hlock := h.gen (by rw [hpc]; rfl)
    constructor
    · exact nofun
    · exact fun t hholds => absurd ((h.alone hlock t).symm.trans hholds) nofun
    · exact nofun
    · exact h.met
    · exact h.conserved

/-- A limiter goes on outside the critical section. -/
theorem QueueInv.outside (h : QueueInv s) (t : θ) {pc : LimitPc} (hpc : pc.holds = false) :
    QueueInv (s.setLimiter t pc) := by
  constructor
  · exact h.gen
  · intro u hholds
    by_cases hu : u = t
    · subst hu
      rw [setLimiter_self, hpc] at hholds
      cases hholds
    · rw [setLimiter_of_ne _ hu] at hholds
      exact h.limiters u hholds
  · exact h.room
  · intro u d htaking
    by_cases hu : u = t
    · subst hu
      rw [setLimiter_self] at htaking
      exact absurd htaking (not_taking hpc d)
    · rw [setLimiter_of_ne _ hu] at htaking
      exact h.met u d htaking
  · exact h.conserved

/-- A limiter goes on inside. -/
theorem QueueInv.inside (h : QueueInv s) {t : θ} (hlock : s.shmEventgenLock = some (.limiter t))
    (pc : LimitPc) (hmet : ∀ d, pc = .taking d → d.met s.shmEventgenQ) :
    QueueInv (s.setLimiter t pc) := by
  constructor
  · exact h.gen
  · intro u hholds
    by_cases hu : u = t
    · subst hu
      exact hlock
    · rw [setLimiter_of_ne _ hu] at hholds
      exact h.limiters u hholds
  · exact h.room
  · intro u d htaking
    by_cases hu : u = t
    · subst hu
      rw [setLimiter_self] at htaking
      exact hmet d htaking
    · rw [setLimiter_of_ne _ hu] at htaking
      exact h.met u d htaking
  · exact h.conserved

/-- A limiter comes in. -/
theorem QueueInv.enter (h : QueueInv s) {t : θ} (hlock : s.lock (.limiter t) = some s')
    {pc : LimitPc} (hpc : ∀ d, pc ≠ .taking d) : QueueInv (s'.setLimiter t pc) := by
  obtain ⟨hnone, hs'⟩ := Option.ite_none_right_eq_some.mp hlock
  obtain rfl := Option.some.inj hs'
  obtain ⟨hgen, hlimiters⟩ := h.free hnone
  refine QueueInv.inside (s := { s with shmEventgenLock := some (.limiter t) }) ?_ rfl _
    fun d hd => absurd hd (hpc d)
  constructor
  · exact fun hholds => absurd (hgen.symm.trans hholds) nofun
  · exact fun u hholds => absurd ((hlimiters u).symm.trans hholds) nofun
  · exact h.room
  · exact h.met
  · exact h.conserved

/-- The limiter that is inside goes out. -/
theorem QueueInv.leave (h : QueueInv s) {t : θ} (hlock : s.shmEventgenLock = some (.limiter t))
    {pc : LimitPc} (hpc : pc.holds = false) : QueueInv (s.unlock.setLimiter t pc) := by
  obtain ⟨hgen, hlimiters⟩ := h.aloneLimiter hlock
  constructor
  · exact fun hholds => absurd (hgen.symm.trans hholds) nofun
  · intro u hholds
    by_cases hu : u = t
    · subst hu
      rw [setLimiter_self, hpc] at hholds
      cases hholds
    · rw [setLimiter_of_ne _ hu] at hholds
      exact absurd ((hlimiters u hu).symm.trans hholds) nofun
  · exact h.room
  · exact (h.outside t hpc).met
  · exact h.conserved

theorem QueueInv.take (h : QueueInv s) {t : θ} {d : Demand} (hpc : s.limiters t = .taking d) :
    QueueInv { s.setLimiter t .unlocking with
      shmEventgenQ := s.shmEventgenQ - d.amount
      consumed := s.consumed + d.amount.toNat } := by
  have hlock := h.limiters t (by rw [hpc]; rfl)
  obtain ⟨hgen, hlimiters⟩ := h.aloneLimiter hlock
  have hmet := h.met t d hpc
  constructor
  · exact h.gen
  · exact (h.inside hlock .unlocking nofun).limiters
  · exact fun tick hadding => absurd hadding (not_adding hgen tick)
  · intro u d' htaking
    by_cases hu : u = t
    · subst hu
      rw [setLimiter_self] at htaking
      cases htaking
    · rw [setLimiter_of_ne _ hu] at htaking
      exact absurd htaking (not_taking (hlimiters u hu) d')
  · have hconserved := h.conserved
    have hle := amount_le hmet
    rw [toNat_take hmet]
    dsimp only [QueueState.setLimiter]
    omega

theorem QueueInv.limiterStep (h : QueueInv s) {t : θ} (hstep : s.limiterStep t = some s') :
    QueueInv s' := by
  unfold QueueState.limiterStep at hstep
  split at hstep
  next => cases hstep
  next d hpc =>
    obtain ⟨s₁, hlock, rfl⟩ := Option.map_eq_some_iff.mp hstep
    exact h.enter hlock nofun
  next d hpc =>
    obtain rfl := Option.some.inj hstep
    have hlock := h.limiters t (by rw [hpc]; rfl)
    split
    next hmet =>
      refine h.inside hlock _ fun d' hd' => ?_
      obtain rfl := LimitPc.taking.inj hd'
      exact hmet
    next => exact h.leave hlock rfl
  next d hpc =>
    obtain rfl := Option.some.inj hstep
    exact h.take hpc
  next hpc =>
    obtain rfl := Option.some.inj hstep
    exact h.leave (h.limiters t (by rw [hpc]; rfl)) rfl
  next => cases hstep
  next d hpc =>
    obtain ⟨s₁, hlock, rfl⟩ := Option.map_eq_some_iff.mp hstep
    exact h.enter hlock nofun
  next d hpc =>
    obtain rfl := Option.some.inj hstep
    exact h.leave (h.limiters t (by rw [hpc]; rfl)) rfl

theorem QueueInv.next {e : QueueEvent θ} (h : QueueInv s) (hnext : s.next e = some s') :
    QueueInv s' := by
  cases e with
  | tick tick =>
    simp only [QueueState.next] at hnext
    split at hnext
    next hpc =>
      obtain rfl := Option.some.inj hnext
      exact ⟨nofun, h.limiters, nofun, h.met, h.conserved⟩
    next => cases hnext
  | generator => exact h.generatorStep hnext
  | demand t d =>
    obtain ⟨-, hs'⟩ := Option.ite_none_right_eq_some.mp hnext
    obtain rfl := Option.some.inj hs'
    exact h.outside t rfl
  | limiter t => exact h.limiterStep hnext
  | wake t =>
    simp only [QueueState.next] at hnext
    split at hnext
    next =>
      obtain rfl := Option.some.inj hnext
      exact h.outside t rfl
    next => cases hnext
  | disabled t =>
    simp only [QueueState.next] at hnext
    split at hnext
    next =>
      obtain rfl := Option.some.inj hnext
      exact h.outside t rfl
    next => cases hnext

theorem QueueRun.inv {trace : List (QueueState θ × QueueEvent θ)} (h : QueueRun trace s) :
    QueueInv s :=
  h.invariant (I := fun _ s => QueueInv s) (P := fun _ _ => True) (fun _ _ => trivial)
    (fun _ hs => hs.inv) fun _ _ _ _ hI _ hnext => hI.next hnext

end Filebench
