import Filebench.Lib.Trace
import Filebench.Lib.Wrap
import Filebench.Stats.Snap

/-! # Limiters

A limiter takes what was done since its last invocation out of its bucket. Where the bucket goes
below zero it waits for the events that fill it again. -/
namespace Filebench

inductive LimitKind where
  | iops
  | ops
  | bw
  deriving DecidableEq, Repr

/-- `MB` -/
def megabyte : BitVec 64 := 1024 * 1024

/-- What the statistics of one flowop tell. The sum of reads and writes is taken from the totals
and `fs_count` is an `int`. -/
def LimitKind.target (k : LimitKind) (st : Flowstat Word) : BitVec 64 :=
  match k with
  | .iops | .ops => (st.counter .count).signExtend 64
  | .bw => st.counter .bytes

/-- What the statistics of the process tell. -/
def LimitKind.control (k : LimitKind) (st : Flowstat Word) : BitVec 64 :=
  match k with
  | .iops => st.counter .rcount + st.counter .wcount
  | .ops => (st.counter .count).signExtend 64
  | .bw => st.counter .rbytes + st.counter .wbytes

/-- The events that make up for what is owed. -/
def LimitKind.events (k : LimitKind) (owed : BitVec 64) : BitVec 64 :=
  match k with
  | .iops | .ops => owed
  | .bw => owed / megabyte + 1

/-- What one event is worth. -/
def LimitKind.unit (k : LimitKind) : BitVec 64 :=
  match k with
  | .iops | .ops => 1
  | .bw => megabyte

/-- Only the limits of I/O look whether the target does any. -/
def LimitKind.wantsIo (k : LimitKind) : Bool :=
  match k with
  | .iops | .bw => true
  | .ops => false

/-! ## One invocation -/

/-- `fo_tputbucket` is signed. -/
structure Bucket where
  foTputbucket : BitVec 64
  foTputlast : BitVec 64
  deriving DecidableEq, Repr

/-- The part of an invocation that has the count. A last count of zero stands for none. The events
to wait for follow from a negation that is undefined for the least number. -/
def LimitKind.charge (k : LimitKind) (count : BitVec 64) (b : Bucket) :
    Option (Bucket × Option (BitVec 64)) :=
  if b.foTputlast = 0 then some ({ b with foTputlast := count }, none)
  else
    let delta := count - b.foTputlast
    let b : Bucket := { foTputbucket := b.foTputbucket - delta, foTputlast := count }
    if 0 ≤ b.foTputbucket.toInt then some (b, none)
    else if b.foTputbucket = BitVec.intMin 64 then none
    else some (b, some (k.events (-b.foTputbucket)))

/-- The events were there. -/
def LimitKind.refill (k : LimitKind) (events : BitVec 64) (b : Bucket) : Bucket :=
  { b with foTputbucket := b.foTputbucket + events * k.unit }

structure LimitFlowop (ι : Type) where
  foInitted : Bool
  foTargetname : CString
  foTargets : Option ι
  bucket : Bucket

inductive LimitReturn where
  | ok
  | endop
  | error
  | wait (events : BitVec 64)
  | undefined
  deriving DecidableEq, Repr

section

variable {ι : Type} (k : LimitKind) (op : ι → StatFlowop) (find : CString → Option ι)

/-- `flowoplib_event_find_target`, with what `flowop_find_from_list` finds. -/
def LimitFlowop.findTarget (f : LimitFlowop ι) : LimitFlowop ι :=
  { f with foTargets := if f.foTargetname = [] then none else find f.foTargetname }

/-- What the first invocation refuses: a target that is not found and one that does no I/O. -/
def LimitFlowop.refused (f : LimitFlowop ι) : Bool :=
  match f.foTargets with
  | none => f.foTargetname ≠ []
  | some t => k.wantsIo && (op t).foAttrs &&& (flowAttrRead ||| flowAttrWrite) = 0

/-- The statistics that the limiter goes by. -/
def LimitKind.count (foStats : ι → Flowstat Word) (controlstats : Flowstat Word)
    (foTargets : Option ι) : BitVec 64 :=
  match foTargets with
  | some t => k.target (foStats t)
  | none => k.control controlstats

/-- An invocation up to the loop that waits for events. -/
def flowoplibLimit (enabled : Bool) (foStats : ι → Flowstat Word) (controlstats : Flowstat Word)
    (f : LimitFlowop ι) : LimitReturn × LimitFlowop ι :=
  if !enabled then (.ok, f)
  else
    let found := if f.foInitted then f else { f with foInitted := true }.findTarget find
    if !f.foInitted && found.refused k op then (.error, found)
    else
      match k.charge (k.count foStats controlstats found.foTargets) found.bucket with
      | none => (.undefined, found)
      | some (b, some events) => (.wait events, { found with bucket := b })
      | some (b, none) =>
        (if found.bucket.foTputlast = 0 then .ok else .endop, { found with bucket := b })

def flowoplibIopslimit := flowoplibLimit .iops op find
def flowoplibOpslimit := flowoplibLimit .ops op find
def flowoplibBwlimit := flowoplibLimit .bw op find

end

/-! ## The arithmetic -/

namespace LimitKind

variable (k : LimitKind) {b : Bucket} {count : BitVec 64} {r : Bucket × Option (BitVec 64)}

def bound : ℤ :=
  match k with
  | .iops | .ops => 0
  | .bw => 1048576

/-- The events that a limiter with this bucket waits for. -/
structure Awaits (b : Bucket) (events : BitVec 64) : Prop where
  owes : b.foTputbucket.toInt < 0
  least : b.foTputbucket ≠ BitVec.intMin 64
  events : events = k.events (-b.foTputbucket)

variable {k}

theorem charge_first (hlast : b.foTputlast = 0) :
    k.charge count b = some ({ b with foTputlast := count }, none) :=
  if_pos hlast

theorem charge_last (h : k.charge count b = some r) : r.1.foTputlast = count := by
  unfold charge at h
  split at h
  next =>
    obtain rfl := Option.some.inj h
    rfl
  next =>
    dsimp only at h
    split_ifs at h
    · obtain rfl := Option.some.inj h
      rfl
    · obtain rfl := Option.some.inj h
      rfl

/-- What is charged to a bucket that was charged before. -/
theorem charge_next (hlast : b.foTputlast ≠ 0) (h : k.charge count b = some r) :
    r.1.foTputbucket.toInt =
        (b.foTputbucket.toInt - ((count.toNat : ℤ) - b.foTputlast.toNat)).bmod (2 ^ 64) ∧
      (r.2 = none → 0 ≤ r.1.foTputbucket.toInt) ∧
      ∀ events, r.2 = some events → k.Awaits r.1 events := by
  rw [charge, if_neg hlast] at h
  dsimp only at h
  split_ifs at h with hcredit hleast
  · obtain rfl := Option.some.inj h
    exact ⟨Wrap.toInt_sub_sub _ _ _, fun _ => hcredit, nofun⟩
  · obtain rfl := Option.some.inj h
    refine ⟨Wrap.toInt_sub_sub _ _ _, nofun, fun events hevents => ?_⟩
    exact ⟨not_le.mp hcredit, hleast, (Option.some.inj hevents).symm⟩

/-- What is owed, as the unsigned number that the events follow from. -/
theorem Awaits.owed {events : BitVec 64} (h : k.Awaits b events) :
    ((-b.foTputbucket).toNat : ℤ) = -b.foTputbucket.toInt := by
  have howes := h.owes
  rw [BitVec.toNat_neg]
  rw [BitVec.toInt_eq_toNat_cond] at howes ⊢
  have hlt := b.foTputbucket.isLt
  split at howes
  next => omega
  next => omega

theorem Awaits.owed_lt {events : BitVec 64} (h : k.Awaits b events) :
    -b.foTputbucket.toInt < 2 ^ 63 := by
  have hle := BitVec.le_toInt b.foTputbucket
  have hne : b.foTputbucket.toInt ≠ -2 ^ 63 := fun heq =>
    h.least (BitVec.toInt_inj.mp (heq.trans (BitVec.toInt_intMin_of_pos (by decide : 0 < 64)).symm))
  omega

theorem events_unit (k : LimitKind) (owed : BitVec 64) (hlt : owed.toNat < 2 ^ 63) :
    (k.events owed * k.unit).toNat = (k.events owed).toNat * k.unit.toNat ∧
      owed.toNat ≤ (k.events owed).toNat * k.unit.toNat ∧
      ((k.events owed).toNat * k.unit.toNat : ℤ) ≤ owed.toNat + k.bound := by
  cases k with
  | iops => simp [events, unit, bound]
  | ops => simp [events, unit, bound]
  | bw =>
    have hunit : megabyte.toNat = 1048576 := by decide
    have hevents : (owed / megabyte + 1).toNat = owed.toNat / 1048576 + 1 := by
      rw [BitVec.toNat_add, BitVec.toNat_udiv, hunit, Nat.mod_eq_of_lt]
      · rfl
      · change owed.toNat / 1048576 + 1 < 2 ^ 64
        omega
    simp only [events, unit, bound]
    rw [BitVec.toNat_mul, hevents, hunit]
    refine ⟨Nat.mod_eq_of_lt ?_, ?_, ?_⟩
    · omega
    · omega
    · push_cast
      omega

/-- The events fill the bucket up, but not above its bound. -/
theorem refill_bucket {events : BitVec 64} (h : k.Awaits b events) :
    (k.refill events b).foTputbucket.toInt =
        b.foTputbucket.toInt + events.toNat * k.unit.toNat ∧
      0 ≤ (k.refill events b).foTputbucket.toInt ∧
      (k.refill events b).foTputbucket.toInt ≤ k.bound := by
  have howed := h.owed
  have hlt := h.owed_lt
  have hevents := h.events
  obtain ⟨hmul, hle, hbound⟩ := k.events_unit (-b.foTputbucket) (by omega)
  rw [← hevents] at hmul hle hbound
  have hk : k.bound ≤ 1048576 := by cases k <;> decide
  have hsum : (k.refill events b).foTputbucket.toInt =
      b.foTputbucket.toInt + events.toNat * k.unit.toNat := by
    rw [refill, Wrap.toInt_add_toNat, hmul, Nat.cast_mul]
    refine Wrap.bmod_within ?_ ?_
    · omega
    · omega
  rw [hsum]
  exact ⟨rfl, by omega, by omega⟩

end LimitKind

/-! ## Runs -/

/-- A limiter in its process. -/
structure LimitEnv (ι π : Type) where
  kind : LimitKind
  proc : π
  find : CString → Option ι

/-- The statistics and the limiter, with the events that it waits for. On record are the counts
that the first and the latest invocation found and the events consumed. -/
structure LimitState (ι τ π : Type) where
  stats : StatsState ι τ π
  flowop : LimitFlowop ι
  waiting : Option (BitVec 64)
  first : Option (BitVec 64)
  latest : BitVec 64
  consumed : ℕ

inductive LimitEvent (ι τ π : Type) where
  | stats (e : StatsEvent ι τ π)
  | invoke (enabled : Bool)
  | consume (q : BitVec 64)

def LimitReturn.awaited : LimitReturn → Option (BitVec 64)
  | .wait events => some events
  | _ => none

section

variable {ι τ π : Type} [DecidableEq ι] [DecidableEq τ] [DecidableEq π] (env : LimitEnv ι π)
  (s : LimitState ι τ π)

def LimitEnv.found : LimitFlowop ι :=
  if s.flowop.foInitted then s.flowop
  else { s.flowop with foInitted := true }.findTarget env.find

/-- The count that an invocation finds, unless it returns before. -/
def LimitEnv.reading : LimitEvent ι τ π → Option (BitVec 64)
  | .invoke true =>
    if !s.flowop.foInitted && (env.found s).refused env.kind s.stats.shm.flowop then none
    else some (env.kind.count s.stats.shm.foStats (s.stats.controlstats env.proc)
      (env.found s).foTargets)
  | _ => none

/-- An invocation in the process of the limiter. -/
def LimitEnv.limit (enabled : Bool) : LimitReturn × LimitFlowop ι :=
  flowoplibLimit env.kind s.stats.shm.flowop env.find enabled s.stats.shm.foStats
    (s.stats.controlstats env.proc) s.flowop

/-- A limiter that waits goes on when there are as many events as it waits for. The operation that
its end counts for is one of the events of the statistics. -/
def LimitEnv.next (e : LimitEvent ι τ π) : Option (LimitState ι τ π) :=
  match e with
  | .stats e => (s.stats.next e).map fun stats => { s with stats := stats }
  | .invoke enabled =>
    if s.waiting = none then
      if (env.limit s enabled).1 = .undefined then none
      else
        some { s with
          flowop := (env.limit s enabled).2
          waiting := (env.limit s enabled).1.awaited
          first := s.first.orElse fun _ => env.reading s (.invoke enabled)
          latest := (env.reading s (.invoke enabled)).getD s.latest }
    else none
  | .consume q =>
    match s.waiting with
    | some events =>
      if events ≤ q then
        some { s with
          flowop := { s.flowop with bucket := env.kind.refill events s.flowop.bucket }
          waiting := none
          consumed := s.consumed + events.toNat }
      else none
    | none => none

/-- A limiter that was not invoked yet. -/
structure LimitStart (s : LimitState ι τ π) : Prop where
  foInitted : s.flowop.foInitted = false
  bucket : s.flowop.bucket = ⟨0, 0⟩
  waiting : s.waiting = none
  first : s.first = none
  latest : s.latest = 0
  consumed : s.consumed = 0

end

/-! ## One step -/

section step

variable {ι τ π : Type} [DecidableEq ι] [DecidableEq τ] [DecidableEq π] {env : LimitEnv ι π}
  {s s' : LimitState ι τ π}

abbrev LimitRun (env : LimitEnv ι π) :
    List (LimitState ι τ π × LimitEvent ι τ π) → LimitState ι τ π → Prop :=
  Trace.Run env.next LimitStart

theorem found_bucket (env : LimitEnv ι π) (s : LimitState ι τ π) :
    (env.found s).bucket = s.flowop.bucket := by
  unfold LimitEnv.found
  split <;> rfl

theorem limit_refused (h : env.reading s (.invoke true) = none) :
    env.limit s true = (.error, env.found s) := by
  rw [LimitEnv.reading] at h
  split at h
  next hrefused => exact if_pos hrefused
  next => cases h

theorem limit_read {count : BitVec 64} (h : env.reading s (.invoke true) = some count) :
    env.limit s true = match env.kind.charge count s.flowop.bucket with
      | none => (.undefined, env.found s)
      | some (b, some events) => (.wait events, { env.found s with bucket := b })
      | some (b, none) => (if s.flowop.bucket.foTputlast = 0 then .ok else .endop,
          { env.found s with bucket := b }) := by
  rw [LimitEnv.reading] at h
  split at h
  next => cases h
  next hrefused =>
    obtain rfl := Option.some.inj h
    rw [← found_bucket env s]
    exact if_neg hrefused

theorem limit_charged {count : BitVec 64} {r : Bucket × Option (BitVec 64)}
    (h : env.reading s (.invoke true) = some count)
    (hcharge : env.kind.charge count s.flowop.bucket = some r) :
    (env.limit s true).1 ≠ .undefined ∧ (env.limit s true).1.awaited = r.2 ∧
      (env.limit s true).2.bucket = r.1 := by
  rw [limit_read h, hcharge]
  obtain ⟨b, events⟩ := r
  cases events with
  | some events => exact ⟨nofun, rfl, rfl⟩
  | none =>
    dsimp only
    split
    next => exact ⟨nofun, rfl, rfl⟩
    next => exact ⟨nofun, rfl, rfl⟩

/-- What a step does to the limiter: nothing, or it charges the count that it finds, or it takes
the events that it waits for. -/
inductive LimitStep (env : LimitEnv ι π) (s : LimitState ι τ π) (e : LimitEvent ι τ π)
    (s' : LimitState ι τ π) : Prop where
  | idle (reading : env.reading s e = none) (bucket : s'.flowop.bucket = s.flowop.bucket)
      (waiting : s'.waiting = s.waiting) (first : s'.first = s.first)
      (latest : s'.latest = s.latest) (consumed : s'.consumed = s.consumed)
  | charge (count : BitVec 64) (reading : env.reading s e = some count)
      (idle : s.waiting = none)
      (charged : env.kind.charge count s.flowop.bucket = some (s'.flowop.bucket, s'.waiting))
      (first : s'.first = some (s.first.getD count)) (latest : s'.latest = count)
      (consumed : s'.consumed = s.consumed)
  | consume (events : BitVec 64) (reading : env.reading s e = none)
      (waits : s.waiting = some events)
      (bucket : s'.flowop.bucket = env.kind.refill events s.flowop.bucket)
      (waiting : s'.waiting = none) (first : s'.first = s.first) (latest : s'.latest = s.latest)
      (consumed : s'.consumed = s.consumed + events.toNat)

theorem LimitStep.of_next {e : LimitEvent ι τ π} (h : env.next s e = some s') :
    LimitStep env s e s' := by
  cases e with
  | stats e =>
    obtain ⟨stats, -, rfl⟩ := Option.map_eq_some_iff.mp h
    exact .idle rfl rfl rfl rfl rfl rfl
  | consume q =>
    simp only [LimitEnv.next] at h
    split at h
    next events hwaits =>
      obtain ⟨-, hs'⟩ := Option.ite_none_right_eq_some.mp h
      obtain rfl := Option.some.inj hs'
      exact .consume events rfl hwaits rfl rfl rfl rfl rfl
    next => cases h
  | invoke enabled =>
    obtain ⟨hidle, h⟩ := Option.ite_none_right_eq_some.mp h
    cases enabled with
    | false =>
      obtain rfl := Option.some.inj h
      refine .idle rfl rfl hidle.symm ?_ rfl rfl
      cases s.first <;> rfl
    | true =>
      have hfound : (env.found s).bucket = s.flowop.bucket := found_bucket env s
      cases hreading : env.reading s (.invoke true) with
      | none =>
        rw [limit_refused hreading, if_neg nofun, hreading] at h
        obtain rfl := Option.some.inj h
        refine .idle hreading hfound hidle.symm ?_ rfl rfl
        cases s.first <;> rfl
      | some count =>
        have hfirst : (s.first.orElse fun _ => some count) = some (s.first.getD count) := by
          cases s.first <;> rfl
        cases hcharge : env.kind.charge count s.flowop.bucket with
        | none =>
          rw [limit_read hreading, hcharge] at h
          cases h
        | some r =>
          obtain ⟨hundefined, hawaited, hbucket⟩ := limit_charged hreading hcharge
          rw [if_neg hundefined, hreading] at h
          obtain rfl := Option.some.inj h
          refine .charge count hreading hidle ?_ hfirst rfl rfl
          rw [hcharge]
          exact congrArg some (Prod.ext hbucket.symm hawaited.symm)

end step

/-! ## A limiter on the reads of a script -/

def readLimit (k : LimitKind) : LimitEnv Bool Unit := ⟨k, (), fun _ => some true⟩

def readLimiter : LimitState Bool Unit Unit where
  stats := readScript
  flowop := ⟨false, "r".toList, none, ⟨0, 0⟩⟩
  waiting := none
  first := none
  latest := 0
  consumed := 0

theorem readLimiter_start {env : LimitEnv Bool Unit} : LimitRun env [] readLimiter :=
  .start ⟨rfl, rfl, rfl, rfl, rfl, rfl⟩

end Filebench
