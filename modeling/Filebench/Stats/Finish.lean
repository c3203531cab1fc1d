import Filebench.Eventgen.Limit
import Filebench.Stats.Endop

/-! # The end of a run by a count

A flowop ends the run when enough operations were counted. The count is an `int` and is compared
as an unsigned word of 64 bits. That of a process is never cleared, and counts more than I/O. -/
namespace Filebench

/-- The limiters find their target the same way. -/
structure FinishFlowop (ι : Type) extends LimitFlowop ι where
  foConstvalue : FbInt

section

variable {ι : Type} (find : CString → Option ι)

def FinishFlowop.found (f : FinishFlowop ι) : FinishFlowop ι :=
  if f.foInitted then f
  else { f with toLimitFlowop := { f.toLimitFlowop with foInitted := true }.findTarget find }

/-- The operation that the call counts for itself is not part of this. -/
def flowoplibFinishoncount (foStats : ι → Flowstat Word) (controlstats : Flowstat Word)
    (f : FinishFlowop ι) : FuncRet × FinishFlowop ι :=
  let found := f.found find
  if !f.foInitted && found.foTargets.isNone && found.foTargetname ≠ [] then (.error, found)
  else
    let ops := LimitKind.ops.count foStats controlstats found.foTargets
    if f.foConstvalue ≤ ops then (.done, found) else (.ok, found)

end

/-! ## What was performed and what is counted -/

section history

variable {ι τ π : Type} [DecidableEq ι] [DecidableEq π]

/-- The calls since the statistics were cleared. The last event comes first. -/
def sinceClear : List (StatsEvent ι τ π) → List (EndopCall ι τ π)
  | [] => []
  | .endop call :: events => call :: sinceClear events
  | .clear :: _ => []
  | .snap :: events => sinceClear events

def allCalls : List (StatsEvent ι τ π) → List (EndopCall ι τ π)
  | [] => []
  | .endop call :: events => call :: allCalls events
  | .clear :: events => allCalls events
  | .snap :: events => allCalls events

def StatFlowop.io (f : StatFlowop) : Bool := f.foType = .io ∨ f.foType = .aio

variable (op : ι → StatFlowop) (p : π) (target : Option ι) (events : List (StatsEvent ι τ π))

/-- The operations of the target, or the I/O operations of the process. -/
def performed : ℕ :=
  match target with
  | some t => (callsOf t (sinceClear events)).length
  | none => (procCalls op p StatFlowop.io (sinceClear events)).length

/-- The operations that the counter goes by. -/
def recorded : ℕ :=
  match target with
  | some t => (callsOf t (sinceClear events)).length
  | none => (procCalls op p StatFlowop.counted (allCalls events)).length

end history

section runs

variable {ι τ π : Type} [DecidableEq ι] [DecidableEq τ] [DecidableEq π]
  {s s' : StatsState ι τ π} {trace : List (StatsState ι τ π × StatsEvent ι τ π)}

theorem statsNext_fixed {e : StatsEvent ι τ π} (h : s.next e = some s') :
    s'.shm.flowop = s.shm.flowop ∧ s'.shm.shmFlowoplist = s.shm.shmFlowoplist := by
  cases e with
  | endop call =>
    obtain ⟨-, hs'⟩ := Option.ite_none_right_eq_some.mp h
    obtain rfl := Option.some.inj hs'
    exact ⟨rfl, rfl⟩
  | clear =>
    obtain rfl := Option.some.inj h
    exact ⟨rfl, rfl⟩
  | snap =>
    obtain rfl := Option.some.inj h
    by_cases hrefused : s.shm.Refused
    · have hsnap : statsSnap s.shm = s.shm := if_pos hrefused
      simp only [hsnap, and_self]
    · exact ⟨(statsSnap_added hrefused).flowop, (statsSnap_added hrefused).list⟩

/-- One more operation of a flowop. -/
theorem endop_fo_count (s : StatsState ι τ π) (call : EndopCall ι τ π) (t : ι) :
    ((s.endop call).shm.foStats t).counter .count =
      (s.shm.foStats t).counter .count + BitVec.ofNat 32 (callsOf t [call]).length := by
  have hadds := congrFun (endops_fo s [call] t) .count
  rw [Pi.add_apply, Pi.list_sum_apply, List.map_map] at hadds
  refine hadds.trans (congrArg _ ?_)
  refine Eq.trans (congrArg List.sum (List.map_congr_left fun call _ => ?_)) (sum_ones _)
  exact foAdds_count ..

theorem endop_control_count (s : StatsState ι τ π) (call : EndopCall ι τ π) (p : π) :
    ((s.endop call).controlstats p).counter .count = (s.controlstats p).counter .count +
      BitVec.ofNat 32 (procCalls s.shm.flowop p StatFlowop.counted [call]).length := by
  have hadds := congrFun (endops_control s [call] p) .count
  rw [Pi.add_apply, Pi.list_sum_apply, List.map_map] at hadds
  refine hadds.trans (congrArg _ ?_)
  refine Eq.trans (congrArg List.sum (List.map_congr_left fun call _ => ?_))
    (control_ones [call] s.shm.flowop p StatFlowop.counted 32)
  exact controlAdds_count ..

/-- A worker's own counter has the operations since the statistics were cleared. -/
theorem StatsRun.fo_count (h : StatsRun trace s) {t : ι} (hworker : (s.shm.flowop t).Worker)
    (hlist : t ∈ s.shm.shmFlowoplist) : (s.shm.foStats t).counter .count =
      BitVec.ofNat 32 (callsOf t (sinceClear (trace.map Prod.snd))).length := by
  induction h with
  | start hstart =>
    rw [hstart.foStats]
    rfl
  | @step trace s s' e _ hnext ih =>
    obtain ⟨hop, hl⟩ := statsNext_fixed hnext
    rw [hop] at hworker
    rw [hl] at hlist
    have hcount := ih hworker hlist
    cases e with
    | endop call =>
      obtain ⟨-, hs'⟩ := Option.ite_none_right_eq_some.mp hnext
      obtain rfl := Option.some.inj hs'
      rw [endop_fo_count, hcount, List.map_cons, sinceClear, callsOf, callsOf, callsOf,
        ← List.singleton_append (l := sinceClear _), List.filter_append, List.length_append,
        BitVec.ofNat_add, BitVec.add_comm]
    | clear =>
      obtain rfl := Option.some.inj hnext
      change (if t ∈ s.shm.shmFlowoplist then Flowstat.zero else _).counter .count = _
      rw [if_pos hlist]
      rfl
    | snap =>
      obtain rfl := Option.some.inj hnext
      have hsnap : (statsSnap s.shm).foStats t = s.shm.foStats t := by
        by_cases hrefused : s.shm.Refused
        · rw [statsSnap, if_pos hrefused]
        · exact (statsSnap_added hrefused).workers t hworker
      rw [hsnap]
      exact hcount

/-- The counter of a process has all operations whose type has one of two bits. -/
theorem StatsRun.control_count (h : StatsRun trace s) (p : π) :
    (s.controlstats p).counter .count = BitVec.ofNat 32
      (procCalls s.shm.flowop p StatFlowop.counted (allCalls (trace.map Prod.snd))).length := by
  induction h with
  | start hstart =>
    rw [hstart.controlstats]
    rfl
  | @step trace s s' e _ hnext ih =>
    rw [(statsNext_fixed hnext).1]
    cases e with
    | endop call =>
      obtain ⟨-, hs'⟩ := Option.ite_none_right_eq_some.mp hnext
      obtain rfl := Option.some.inj hs'
      rw [endop_control_count, ih, List.map_cons, allCalls, procCalls, procCalls, procCalls,
        ← List.singleton_append (l := allCalls _), List.filter_append, List.filter_append,
        List.length_append, BitVec.ofNat_add, BitVec.add_comm]
    | clear =>
      obtain rfl := Option.some.inj hnext
      exact ih
    | snap =>
      obtain rfl := Option.some.inj hnext
      exact ih

/-! ## When the run ends -/

/-- A target is one of the flowops that run, and on the list of all flowops. -/
def StatsState.Runs (s : StatsState ι τ π) (target : Option ι) : Prop :=
  ∀ t, target = some t → (s.shm.flowop t).Worker ∧ t ∈ s.shm.shmFlowoplist

theorem StatsRun.ops_count (h : StatsRun trace s) (p : π) {target : Option ι}
    (hruns : s.Runs target) : LimitKind.ops.count s.shm.foStats (s.controlstats p) target =
      (BitVec.ofNat 32 (recorded s.shm.flowop p target (trace.map Prod.snd))).signExtend 64 := by
  cases target with
  | none => exact congrArg (BitVec.signExtend 64) (h.control_count p)
  | some t =>
    obtain ⟨hworker, hlist⟩ := hruns t rfl
    exact congrArg (BitVec.signExtend 64) (h.fo_count hworker hlist)

/-- A negative `int` is more than any count. -/
theorem le_signExtend_iff {count : BitVec 64} (hcount : count.toNat < 2 ^ 63) (n : ℕ) :
    count ≤ (BitVec.ofNat 32 n).signExtend 64 ↔
      2 ^ 31 ≤ n % 2 ^ 32 ∨ count.toNat ≤ n % 2 ^ 32 := by
  have hmsb : (BitVec.ofNat 32 n).msb = decide (2 ^ 31 ≤ n % 2 ^ 32) := by
    rw [BitVec.msb_eq_decide, BitVec.toNat_ofNat]
  have hlt : n % 2 ^ 32 < 2 ^ 32 := Nat.mod_lt _ (by norm_num)
  rw [BitVec.le_def, BitVec.toNat_signExtend, BitVec.toNat_setWidth, BitVec.toNat_ofNat, hmsb,
    Nat.mod_eq_of_lt (hlt.trans (by norm_num))]
  by_cases hneg : 2 ^ 31 ≤ n % 2 ^ 32
  · rw [decide_eq_true hneg, if_pos rfl]
    exact iff_of_true (by omega) (.inl hneg)
  · rw [decide_eq_false hneg, if_neg Bool.false_ne_true]
    omega

/-- Where the counter is not negative the count is not between what it shows and what was
performed, and where it is negative enough was performed. -/
def FinishExact (count recorded performed : ℕ) : Prop :=
  if recorded % 2 ^ 32 < 2 ^ 31 then
    ¬ (performed < count ∧ count ≤ recorded % 2 ^ 32) ∧
      ¬ (recorded % 2 ^ 32 < count ∧ count ≤ performed)
  else count ≤ performed

theorem finishExact_iff (count recorded performed : ℕ) :
    FinishExact count recorded performed ↔
      ((2 ^ 31 ≤ recorded % 2 ^ 32 ∨ count ≤ recorded % 2 ^ 32) ↔ count ≤ performed) := by
  unfold FinishExact
  split <;> omega

/-- With its target there, or none named, a call compares. -/
theorem finishoncount_done {find : CString → Option ι} {f : FinishFlowop ι}
    (hfound : (f.found find).foTargets = none → f.foTargetname = []) (foStats : ι → Flowstat Word)
    (controlstats : Flowstat Word) :
    (flowoplibFinishoncount find foStats controlstats f).1 = .done ↔
      f.foConstvalue ≤ LimitKind.ops.count foStats controlstats (f.found find).foTargets := by
  have hname : (f.found find).foTargetname = f.foTargetname := by
    unfold FinishFlowop.found
    split <;> rfl
  have hsome : ¬ ((!f.foInitted && (f.found find).foTargets.isNone &&
      decide ((f.found find).foTargetname ≠ [])) = true) := by
    simp only [Bool.and_eq_true, decide_eq_true_eq, Option.isNone_iff_eq_none, hname]
    rintro ⟨⟨-, hnone⟩, hne⟩
    exact hne (hfound hnone)
  rw [flowoplibFinishoncount, if_neg hsome]
  dsimp only
  split
  next hle => exact iff_of_true rfl hle
  next hle => exact iff_of_false (show FuncRet.ok ≠ .done by decide) hle

/-- A flowop ends the run with its count exactly where the counter, as an `int`, is on the same side
of it as the operations performed since the statistics were cleared. -/
theorem finishoncount_done_iff (h : StatsRun trace s) (find : CString → Option ι) (p : π)
    (f : FinishFlowop ι) (hcount : f.foConstvalue.toNat < 2 ^ 63)
    (hfound : (f.found find).foTargets = none → f.foTargetname = [])
    (hruns : s.Runs (f.found find).foTargets) :
    ((flowoplibFinishoncount find s.shm.foStats (s.controlstats p) f).1 = .done ↔
      f.foConstvalue.toNat ≤
        performed s.shm.flowop p (f.found find).foTargets (trace.map Prod.snd)) ↔
    FinishExact f.foConstvalue.toNat
      (recorded s.shm.flowop p (f.found find).foTargets (trace.map Prod.snd))
      (performed s.shm.flowop p (f.found find).foTargets (trace.map Prod.snd)) := by
  rw [finishoncount_done hfound, h.ops_count p hruns, le_signExtend_iff hcount, finishExact_iff]

end runs

/-! ## Reads and delays -/

def finishRead (count : FbInt) : FinishFlowop Bool :=
  ⟨⟨false, "r".toList, none, ⟨0, 0⟩⟩, count⟩

theorem finishRead_found (count : FbInt) :
    ((finishRead count).found fun _ => some true).foTargets = some true := rfl

/-- Any number of reads. -/
theorem readRun (n : ℕ) : ∃ trace, ∃ s : StatsState Bool Unit Unit, StatsRun trace s ∧
    s.shm.flowop = readScript.shm.flowop ∧ s.shm.shmFlowoplist = [true, false] ∧
    trace.map Prod.snd = List.replicate n (.endop (readCall 0)) := by
  induction n with
  | zero => exact ⟨[], readScript, readScript_start, rfl, rfl, rfl⟩
  | succ n ih =>
    obtain ⟨trace, s, hrun, hop, hlist, hevents⟩ := ih
    have hworker : (s.shm.flowop (readCall 0).flowop).Worker := by
      rw [hop]
      decide
    have hnext : s.next (.endop (readCall 0)) = some (s.endop (readCall 0)) := if_pos hworker
    refine ⟨_, _, hrun.step hnext, hop, hlist, ?_⟩
    rw [List.map_cons, hevents, List.replicate_succ]

theorem readRun_runs {s : StatsState Bool Unit Unit} (hop : s.shm.flowop = readScript.shm.flowop)
    (hlist : s.shm.shmFlowoplist = [true, false]) : s.Runs (some true) := by
  intro t ht
  obtain rfl := Option.some.inj ht
  rw [hop, hlist]
  exact ⟨by decide, .head _⟩

theorem performed_reads (op : Bool → StatFlowop) (n : ℕ) :
    performed op () (some true) (List.replicate n (.endop (readCall 0))) = n := by
  induction n with
  | zero => rfl
  | succ n ih =>
    rw [performed, List.replicate_succ, sinceClear, callsOf_cons]
    exact congrArg Nat.succ ih

theorem finishoncount_done_read : ∃ trace, ∃ s : StatsState Bool Unit Unit, StatsRun trace s ∧
    ((flowoplibFinishoncount (fun _ => some true) s.shm.foStats (s.controlstats ())
      (finishRead 2)).1 = .done ↔
        2 ≤ performed s.shm.flowop () (some true) (trace.map Prod.snd)) := by
  obtain ⟨trace, s, hrun, hop, hlist, hevents⟩ := readRun 2
  refine ⟨trace, s, hrun, (finishoncount_done_iff hrun (fun _ => some true) _ (finishRead 2)
    (by decide) (fun hnone => absurd hnone (by decide)) (readRun_runs hop hlist)).mpr ?_⟩
  rw [hevents]
  exact show FinishExact 2 2 2 by
    rw [finishExact_iff]
    decide

def delayScript : StatsState Bool Unit Unit :=
  { readScript with
    shm := { readScript.shm with flowop := fun _ => ⟨"d".toList, 1, .other, 0, nofun⟩ } }

/-- After 2147483648 reads the run is over, even with one more to come. Without a target a delay
is enough. -/
theorem finishoncount_early :
    (∃ trace, ∃ s : StatsState Bool Unit Unit, StatsRun trace s ∧
      (flowoplibFinishoncount (fun _ => some true) s.shm.foStats (s.controlstats ())
        (finishRead (2 ^ 31 + 1))).1 = .done ∧
      performed s.shm.flowop () (some true) (trace.map Prod.snd) < 2 ^ 31 + 1) ∧
    ∃ trace, ∃ s : StatsState Bool Unit Unit, StatsRun trace s ∧
      (flowoplibFinishoncount (fun _ => none) s.shm.foStats (s.controlstats ())
        ⟨⟨false, [], none, ⟨0, 0⟩⟩, 1⟩).1 = .done ∧
      performed s.shm.flowop () none (trace.map Prod.snd) < 1 := by
  constructor
  · obtain ⟨trace, s, hrun, hop, hlist, hevents⟩ := readRun (2 ^ 31)
    have hcount : performed s.shm.flowop () (some true) (trace.map Prod.snd) = 2 ^ 31 := by
      rw [hevents, performed_reads]
    refine ⟨trace, s, hrun, ?_, hcount.trans_lt (Nat.lt_succ_self _)⟩
    rw [finishoncount_done (fun hnone => absurd hnone (by decide)), finishRead_found,
      hrun.ops_count () (readRun_runs hop hlist), le_signExtend_iff (by decide)]
    refine .inl ?_
    change 2 ^ 31 ≤ performed s.shm.flowop () (some true) (trace.map Prod.snd) % 2 ^ 32
    rw [hcount]
    decide
  · have hstart : StatsRun [] delayScript :=
      .start ⟨fun _ => rfl, fun _ => rfl, fun _ => rfl, rfl⟩
    exact ⟨_, _, hstart.step (e := .endop (readCall 0)) rfl, by decide +kernel,
      by decide +kernel⟩

end Filebench
