import Filebench.Stats.Snap

/-! # Counting operations

What a call of `flowop_endop` adds to each counter, and from it what the counters are after any
number of calls. -/
namespace Filebench

/-- Amounts for the counters. -/
abbrev Amounts := (c : Counter) → Word c

def OpTimes.adds (times : OpTimes) : Amounts :=
  Pi.single (.mstate .lat) times.lat +
    match times.usage with
    | some (cpu, wait) => Pi.single (.mstate .cpu) cpu + Pi.single (.mstate .wait) wait
    | none => 0

/-- What a call adds to the counters of its flowop. -/
def foAdds (f : StatFlowop) (bytes : BitVec 64) (times : OpTimes) : Amounts :=
  times.adds + Pi.single .count 1 + Pi.single .bytes bytes +
    if f.reads then Pi.single .rcount 1 else if f.writes then Pi.single .wcount 1 else 0

/-- What it adds to those of the process. -/
def controlAdds (f : StatFlowop) (bytes : BitVec 64) : Amounts :=
  (if f.counted then Pi.single .count 1 + Pi.single .bytes bytes else 0) +
    if f.reads then Pi.single .rbytes bytes + Pi.single .rcount 1
    else if f.writes then Pi.single .wbytes bytes + Pi.single .wcount 1 else 0

/-! ## One call -/

theorem Flowstat.add_counter (st : Flowstat Word) (c : Counter) (v : Word c) :
    (st.add c v).counter = st.counter + Pi.single c v := by
  funext c'
  by_cases h : c' = c
  · subst h
    simp [Flowstat.add]
  · simp [Flowstat.add, h]

theorem Flowstat.addTimes_counter (st : Flowstat Word) (times : OpTimes) :
    (st.addTimes times).counter = st.counter + times.adds := by
  obtain ⟨lat, usage⟩ := times
  rcases usage with - | ⟨cpu, wait⟩
  · simp [Flowstat.addTimes, OpTimes.adds, Flowstat.add_counter]
  · simp [Flowstat.addTimes, OpTimes.adds, Flowstat.add_counter, add_assoc]

theorem flowopEndop_fo (f : StatFlowop) (bytes : BitVec 64) (times : OpTimes) (s : OpStats) :
    (flowopEndop f bytes times s).fo.counter = s.fo.counter + foAdds f bytes times := by
  have hfo : (flowopEndop f bytes times s).fo =
      let st := ((s.fo.addTimes times).add .count 1).add .bytes bytes
      if f.reads then st.add .rcount 1 else if f.writes then st.add .wcount 1 else st := by
    unfold flowopEndop
    split_ifs <;> rfl
  rw [hfo, foAdds]
  dsimp only
  split_ifs
  · simp only [Flowstat.add_counter, Flowstat.addTimes_counter, add_assoc]
  · simp only [Flowstat.add_counter, Flowstat.addTimes_counter, add_assoc]
  · simp only [Flowstat.add_counter, Flowstat.addTimes_counter, add_assoc, add_zero]

theorem flowopEndop_control (f : StatFlowop) (bytes : BitVec 64) (times : OpTimes) (s : OpStats) :
    (flowopEndop f bytes times s).control.counter =
      s.control.counter + controlAdds f bytes := by
  have hcontrol : (flowopEndop f bytes times s).control =
      let st := if f.counted then (s.control.add .count 1).add .bytes bytes else s.control
      if f.reads then (st.add .rbytes bytes).add .rcount 1
      else if f.writes then (st.add .wbytes bytes).add .wcount 1 else st := by
    unfold flowopEndop
    split_ifs <;> rfl
  rw [hcontrol, controlAdds]
  dsimp only
  split_ifs <;> simp only [Flowstat.add_counter, add_assoc, add_zero, zero_add]

/-- The operations that count as writes: those of flowops that do not read. -/
def StatFlowop.onlyWrites (f : StatFlowop) : Bool := !f.reads && f.writes

/-- No time is a counter of operations or bytes. -/
theorem OpTimes.adds_of_ne (times : OpTimes) {c : Counter} (h : ∀ i, c ≠ .mstate i) :
    times.adds c = 0 := by
  rw [OpTimes.adds]
  split
  next => simp [Pi.single_eq_of_ne (h _)]
  next => simp [Pi.single_eq_of_ne (h _)]

section amounts

variable (f : StatFlowop) (bytes : BitVec 64) (times : OpTimes)

theorem foAdds_count : foAdds f bytes times .count = 1 := by
  have htimes := times.adds_of_ne (c := .count) nofun
  by_cases hr : f.reads <;> by_cases hw : f.writes <;> simp [foAdds, htimes, hr, hw]

theorem foAdds_bytes : foAdds f bytes times .bytes = bytes := by
  have htimes := times.adds_of_ne (c := .bytes) nofun
  by_cases hr : f.reads <;> by_cases hw : f.writes <;> simp [foAdds, htimes, hr, hw]

theorem foAdds_rcount : foAdds f bytes times .rcount = if f.reads then 1 else 0 := by
  have htimes := times.adds_of_ne (c := .rcount) nofun
  by_cases hr : f.reads <;> by_cases hw : f.writes <;> simp [foAdds, htimes, hr, hw]

theorem foAdds_wcount : foAdds f bytes times .wcount = if f.onlyWrites then 1 else 0 := by
  have htimes := times.adds_of_ne (c := .wcount) nofun
  by_cases hr : f.reads <;> by_cases hw : f.writes <;>
    simp [foAdds, htimes, StatFlowop.onlyWrites, hr, hw]

/-- The bytes of a flowop are not told apart. -/
theorem foAdds_rbytes : foAdds f bytes times .rbytes = 0 := by
  have htimes := times.adds_of_ne (c := .rbytes) nofun
  by_cases hr : f.reads <;> by_cases hw : f.writes <;> simp [foAdds, htimes, hr, hw]

theorem foAdds_wbytes : foAdds f bytes times .wbytes = 0 := by
  have htimes := times.adds_of_ne (c := .wbytes) nofun
  by_cases hr : f.reads <;> by_cases hw : f.writes <;> simp [foAdds, htimes, hr, hw]

theorem controlAdds_count : controlAdds f bytes .count = if f.counted then 1 else 0 := by
  by_cases hc : f.counted <;> by_cases hr : f.reads <;> by_cases hw : f.writes <;>
    simp [controlAdds, hc, hr, hw]

theorem controlAdds_bytes : controlAdds f bytes .bytes = if f.counted then bytes else 0 := by
  by_cases hc : f.counted <;> by_cases hr : f.reads <;> by_cases hw : f.writes <;>
    simp [controlAdds, hc, hr, hw]

theorem controlAdds_rcount : controlAdds f bytes .rcount = if f.reads then 1 else 0 := by
  by_cases hc : f.counted <;> by_cases hr : f.reads <;> by_cases hw : f.writes <;>
    simp [controlAdds, hc, hr, hw]

theorem controlAdds_rbytes : controlAdds f bytes .rbytes = if f.reads then bytes else 0 := by
  by_cases hc : f.counted <;> by_cases hr : f.reads <;> by_cases hw : f.writes <;>
    simp [controlAdds, hc, hr, hw]

theorem controlAdds_wcount : controlAdds f bytes .wcount = if f.onlyWrites then 1 else 0 := by
  by_cases hc : f.counted <;> by_cases hr : f.reads <;> by_cases hw : f.writes <;>
    simp [controlAdds, StatFlowop.onlyWrites, hc, hr, hw]

theorem controlAdds_wbytes : controlAdds f bytes .wbytes = if f.onlyWrites then bytes else 0 := by
  by_cases hc : f.counted <;> by_cases hr : f.reads <;> by_cases hw : f.writes <;>
    simp [controlAdds, StatFlowop.onlyWrites, hc, hr, hw]

end amounts

/-! ## Sequences of calls -/

section calls

variable {ι τ π : Type} [DecidableEq ι] [DecidableEq τ] [DecidableEq π]

/-- The calls one after the other. -/
def StatsState.endops (s : StatsState ι τ π) (calls : List (EndopCall ι τ π)) : StatsState ι τ π :=
  calls.foldl StatsState.endop s

def callsOf (f : ι) (calls : List (EndopCall ι τ π)) : List (EndopCall ι τ π) :=
  calls.filter fun call => call.flowop = f

/-- The calls of a process on flowops that meet a condition. -/
def procCalls (op : ι → StatFlowop) (p : π) (P : StatFlowop → Bool)
    (calls : List (EndopCall ι τ π)) : List (EndopCall ι τ π) :=
  (calls.filter fun call => call.proc = p).filter fun call => P (op call.flowop)

def callBytes (calls : List (EndopCall ι τ π)) : ℕ := (calls.map fun call => call.bytes.toNat).sum

omit [DecidableEq τ] [DecidableEq π] in
theorem callsOf_cons (f : ι) (call : EndopCall ι τ π) (calls : List (EndopCall ι τ π)) :
    callsOf f (call :: calls) =
      if call.flowop = f then call :: callsOf f calls else callsOf f calls := by
  rw [callsOf, List.filter_cons]
  simp only [decide_eq_true_eq]
  rfl

variable (s : StatsState ι τ π)

theorem endops_flowop (calls : List (EndopCall ι τ π)) :
    (s.endops calls).shm.flowop = s.shm.flowop := by
  induction calls generalizing s with
  | nil => rfl
  | cons call calls ih => exact ih (s.endop call)

theorem endops_fo (calls : List (EndopCall ι τ π)) (f : ι) :
    ((s.endops calls).shm.foStats f).counter = (s.shm.foStats f).counter +
      ((callsOf f calls).map fun call => foAdds (s.shm.flowop f) call.bytes call.times).sum := by
  induction calls generalizing s with
  | nil => exact (add_zero _).symm
  | cons call calls ih =>
    refine (ih (s.endop call)).trans ?_
    have hflowop : (s.endop call).shm.flowop = s.shm.flowop := rfl
    rw [hflowop]
    by_cases hf : call.flowop = f
    · subst hf
      have hfo : ((s.endop call).shm.foStats call.flowop).counter =
          (s.shm.foStats call.flowop).counter +
            foAdds (s.shm.flowop call.flowop) call.bytes call.times := by
        change (Function.update s.shm.foStats call.flowop (s.opStats call).fo _).counter = _
        rw [Function.update_self]
        exact flowopEndop_fo ..
      rw [hfo, callsOf_cons, if_pos rfl, List.map_cons, List.sum_cons, add_assoc]
    · have hfo : (s.endop call).shm.foStats f = s.shm.foStats f :=
        Function.update_of_ne (Ne.symm hf) ..
      rw [hfo, callsOf_cons, if_neg hf]

theorem endops_control (calls : List (EndopCall ι τ π)) (p : π) :
    ((s.endops calls).controlstats p).counter = (s.controlstats p).counter +
      ((calls.filter fun call => call.proc = p).map fun call =>
        controlAdds (s.shm.flowop call.flowop) call.bytes).sum := by
  induction calls generalizing s with
  | nil => exact (add_zero _).symm
  | cons call calls ih =>
    refine (ih (s.endop call)).trans ?_
    have hflowop : (s.endop call).shm.flowop = s.shm.flowop := rfl
    rw [hflowop]
    by_cases hp : call.proc = p
    · subst hp
      have hcontrol : ((s.endop call).controlstats call.proc).counter =
          (s.controlstats call.proc).counter +
            controlAdds (s.shm.flowop call.flowop) call.bytes := by
        change (Function.update s.controlstats call.proc (s.opStats call).control _).counter = _
        rw [Function.update_self]
        exact flowopEndop_control ..
      rw [hcontrol, List.filter_cons_of_pos (by simp), List.map_cons, List.sum_cons, add_assoc]
    · have hcontrol : (s.endop call).controlstats p = s.controlstats p :=
        Function.update_of_ne (Ne.symm hp) ..
      rw [hcontrol, List.filter_cons_of_neg (by simpa using hp)]

end calls

section words

variable {α : Type} {w : ℕ}

theorem sum_ite (P : α → Bool) (l : List α) (g : α → BitVec w) :
    (l.map fun x => if P x then g x else 0).sum = ((l.filter P).map g).sum := by
  induction l with
  | nil => rfl
  | cons x l ih =>
    rw [List.map_cons, List.sum_cons, ih]
    by_cases h : P x
    · rw [if_pos h, List.filter_cons_of_pos h, List.map_cons, List.sum_cons]
    · rw [if_neg h, List.filter_cons_of_neg h, zero_add]

theorem sum_ones (l : List α) : (l.map fun _ => (1 : BitVec w)).sum = BitVec.ofNat w l.length := by
  induction l with
  | nil => rfl
  | cons x l ih =>
    rw [List.map_cons, List.sum_cons, ih, List.length_cons, Nat.add_comm, BitVec.ofNat_add]
    rfl

theorem toNat_sum (l : List α) (g : α → BitVec w) :
    (l.map g).sum.toNat = (l.map fun x => (g x).toNat).sum % 2 ^ w := by
  induction l with
  | nil => simp
  | cons x l ih =>
    rw [List.map_cons, List.sum_cons, BitVec.toNat_add, ih, Nat.add_mod_mod, List.map_cons,
      List.sum_cons]

end words

/-! ## What the counters are -/

section totals

variable {ι τ π : Type} [DecidableEq ι] [DecidableEq τ] [DecidableEq π] {s : StatsState ι τ π}
  (calls : List (EndopCall ι τ π))

theorem StatsStart.fo_counter (h : StatsStart s) (f : ι) (c : Counter) :
    ((s.endops calls).shm.foStats f).counter c =
      ((callsOf f calls).map fun call => foAdds (s.shm.flowop f) call.bytes call.times c).sum := by
  rw [endops_fo, h.foStats, Pi.add_apply, Pi.list_sum_apply, List.map_map]
  exact zero_add _

theorem StatsStart.control_counter (h : StatsStart s) (p : π) (c : Counter) :
    ((s.endops calls).controlstats p).counter c =
      ((calls.filter fun call => call.proc = p).map fun call =>
        controlAdds (s.shm.flowop call.flowop) call.bytes c).sum := by
  rw [endops_control, h.controlstats, Pi.add_apply, Pi.list_sum_apply, List.map_map]
  exact zero_add _

omit [DecidableEq ι] [DecidableEq τ] [DecidableEq π] in
theorem sum_const_one (l : List (EndopCall ι τ π)) (b : Bool) {w : ℕ} :
    (l.map fun _ => if b then (1 : BitVec w) else 0).sum =
      if b then BitVec.ofNat w l.length else 0 := by
  rw [sum_ite (fun _ => b), sum_ones]
  cases b
  · simp
  · simp

section flowop

variable (h : StatsStart s) (f : ι)
include h

theorem fo_count : ((s.endops calls).shm.foStats f).counter .count =
    BitVec.ofNat 32 (callsOf f calls).length := by
  rw [h.fo_counter]
  simp only [foAdds_count]
  exact sum_ones _

theorem fo_rcount : ((s.endops calls).shm.foStats f).counter .rcount =
    if (s.shm.flowop f).reads then BitVec.ofNat 64 (callsOf f calls).length else 0 := by
  rw [h.fo_counter]
  simp only [foAdds_rcount]
  exact sum_const_one _ _

theorem fo_wcount : ((s.endops calls).shm.foStats f).counter .wcount =
    if (s.shm.flowop f).onlyWrites then BitVec.ofNat 64 (callsOf f calls).length else 0 := by
  rw [h.fo_counter]
  simp only [foAdds_wcount]
  exact sum_const_one _ _

theorem fo_bytes : (((s.endops calls).shm.foStats f).counter .bytes).toNat =
    callBytes (callsOf f calls) % 2 ^ 64 := by
  rw [h.fo_counter]
  simp only [foAdds_bytes]
  exact toNat_sum _ _

theorem fo_rbytes : ((s.endops calls).shm.foStats f).counter .rbytes = 0 := by
  rw [h.fo_counter]
  simp only [foAdds_rbytes]
  exact List.sum_map_zero

theorem fo_wbytes : ((s.endops calls).shm.foStats f).counter .wbytes = 0 := by
  rw [h.fo_counter]
  simp only [foAdds_wbytes]
  exact List.sum_map_zero

end flowop

omit [DecidableEq ι] [DecidableEq τ] in
/-- A counter of the process that goes up by one for some flowops. -/
theorem control_ones (op : ι → StatFlowop) (p : π) (P : StatFlowop → Bool) (w : ℕ) :
    ((calls.filter fun call => call.proc = p).map fun call : EndopCall ι τ π =>
      if P (op call.flowop) then (1 : BitVec w) else 0).sum =
      BitVec.ofNat w (procCalls op p P calls).length :=
  (sum_ite (fun call : EndopCall ι τ π => P (op call.flowop)) _ _).trans (sum_ones _)

omit [DecidableEq ι] [DecidableEq τ] in
theorem control_sums (op : ι → StatFlowop) (p : π) (P : StatFlowop → Bool) :
    ((calls.filter fun call => call.proc = p).map fun call : EndopCall ι τ π =>
      if P (op call.flowop) then call.bytes else 0).sum.toNat =
      callBytes (procCalls op p P calls) % 2 ^ 64 :=
  (congrArg BitVec.toNat (sum_ite (fun call : EndopCall ι τ π => P (op call.flowop)) _ _)).trans
    (toNat_sum _ _)

section control

variable (h : StatsStart s) (p : π)
include h

theorem control_count : ((s.endops calls).controlstats p).counter .count =
    BitVec.ofNat 32 (procCalls s.shm.flowop p StatFlowop.counted calls).length := by
  rw [h.control_counter]
  simp only [controlAdds_count]
  exact control_ones ..

theorem control_rcount : ((s.endops calls).controlstats p).counter .rcount =
    BitVec.ofNat 64 (procCalls s.shm.flowop p StatFlowop.reads calls).length := by
  rw [h.control_counter]
  simp only [controlAdds_rcount]
  exact control_ones ..

theorem control_wcount : ((s.endops calls).controlstats p).counter .wcount =
    BitVec.ofNat 64 (procCalls s.shm.flowop p StatFlowop.onlyWrites calls).length := by
  rw [h.control_counter]
  simp only [controlAdds_wcount]
  exact control_ones ..

theorem control_bytes : (((s.endops calls).controlstats p).counter .bytes).toNat =
    callBytes (procCalls s.shm.flowop p StatFlowop.counted calls) % 2 ^ 64 := by
  rw [h.control_counter]
  simp only [controlAdds_bytes]
  exact control_sums ..

theorem control_rbytes : (((s.endops calls).controlstats p).counter .rbytes).toNat =
    callBytes (procCalls s.shm.flowop p StatFlowop.reads calls) % 2 ^ 64 := by
  rw [h.control_counter]
  simp only [controlAdds_rbytes]
  exact control_sums ..

theorem control_wbytes : (((s.endops calls).controlstats p).counter .wbytes).toNat =
    callBytes (procCalls s.shm.flowop p StatFlowop.onlyWrites calls) % 2 ^ 64 := by
  rw [h.control_counter]
  simp only [controlAdds_wbytes]
  exact control_sums ..

end control

/-! ## Totals -/

/-- The operations and the bytes of a flowop are those that it read and wrote. -/
structure FlowTotals (st : Flowstat Word) : Prop where
  count : (st.counter .count).toInt = (st.counter .rcount).toNat + (st.counter .wcount).toNat
  bytes : (st.counter .bytes).toNat = (st.counter .rbytes).toNat + (st.counter .wbytes).toNat

structure ControlTotals (st : Flowstat Word) : Prop where
  count : ((st.counter .rcount).toNat + (st.counter .wcount).toNat : ℤ) ≤
    (st.counter .count).toInt
  bytes : (st.counter .rbytes).toNat + (st.counter .wbytes).toNat ≤ (st.counter .bytes).toNat

structure EndopTotals (s : StatsState ι τ π) : Prop where
  flows : ∀ f, (s.shm.flowop f).reads ∨ (s.shm.flowop f).writes → FlowTotals (s.shm.foStats f)
  controls : ∀ p, ControlTotals (s.controlstats p)

/-- No flowop that reads or writes has moved a byte, and no counter has run over: that of the
operations is an `int`, the others have 64 bits. -/
structure EndopMeets (op : ι → StatFlowop) (calls : List (EndopCall ι τ π)) : Prop where
  count : ∀ f, (op f).reads ∨ (op f).writes → (callsOf f calls).length % 2 ^ 64 < 2 ^ 31
  bytes : ∀ f, (op f).reads ∨ (op f).writes → callBytes (callsOf f calls) % 2 ^ 64 = 0
  controlCount : ∀ p,
    (((procCalls op p StatFlowop.reads calls).length % 2 ^ 64 +
      (procCalls op p StatFlowop.onlyWrites calls).length % 2 ^ 64 : ℕ) : ℤ) ≤
      Int.bmod (procCalls op p StatFlowop.counted calls).length (2 ^ 32)
  controlBytes : ∀ p,
    callBytes (procCalls op p StatFlowop.reads calls) % 2 ^ 64 +
      callBytes (procCalls op p StatFlowop.onlyWrites calls) % 2 ^ 64 ≤
      callBytes (procCalls op p StatFlowop.counted calls) % 2 ^ 64

/-- An `int` that counts tells the number as long as it stays below its bound. -/
theorem toInt_ofNat_eq_iff (n : ℕ) :
    (BitVec.ofNat 32 n).toInt = ((n % 2 ^ 64 : ℕ) : ℤ) ↔ n % 2 ^ 64 < 2 ^ 31 := by
  rw [BitVec.toInt_ofNat', Int.bmod_def]
  split <;> omega

theorem flowTotals_iff (h : StatsStart s) (f : ι)
    (hf : (s.shm.flowop f).reads ∨ (s.shm.flowop f).writes) :
    FlowTotals ((s.endops calls).shm.foStats f) ↔
      (callsOf f calls).length % 2 ^ 64 < 2 ^ 31 ∧ callBytes (callsOf f calls) % 2 ^ 64 = 0 := by
  have hcount : (((s.endops calls).shm.foStats f).counter .rcount).toNat +
      (((s.endops calls).shm.foStats f).counter .wcount).toNat =
      (callsOf f calls).length % 2 ^ 64 := by
    rw [fo_rcount calls h, fo_wcount calls h, StatFlowop.onlyWrites]
    by_cases hr : (s.shm.flowop f).reads
    · simp [hr, Counter.width]
    · simp [hr, hf.resolve_left hr, Counter.width]
  have hbytes : (((s.endops calls).shm.foStats f).counter .rbytes).toNat +
      (((s.endops calls).shm.foStats f).counter .wbytes).toNat = 0 := by
    rw [fo_rbytes calls h, fo_wbytes calls h]
    rfl
  constructor
  · rintro ⟨hc, hb⟩
    rw [← Nat.cast_add, hcount, fo_count calls h, toInt_ofNat_eq_iff] at hc
    rw [hbytes, fo_bytes calls h] at hb
    exact ⟨hc, hb⟩
  · rintro ⟨hc, hb⟩
    constructor
    · rw [← Nat.cast_add, hcount, fo_count calls h, toInt_ofNat_eq_iff]
      exact hc
    · rw [hbytes, fo_bytes calls h]
      exact hb

theorem controlTotals_iff (h : StatsStart s) (p : π) :
    ControlTotals ((s.endops calls).controlstats p) ↔
      (((procCalls s.shm.flowop p StatFlowop.reads calls).length % 2 ^ 64 +
        (procCalls s.shm.flowop p StatFlowop.onlyWrites calls).length % 2 ^ 64 : ℕ) : ℤ) ≤
        Int.bmod (procCalls s.shm.flowop p StatFlowop.counted calls).length (2 ^ 32) ∧
      callBytes (procCalls s.shm.flowop p StatFlowop.reads calls) % 2 ^ 64 +
        callBytes (procCalls s.shm.flowop p StatFlowop.onlyWrites calls) % 2 ^ 64 ≤
        callBytes (procCalls s.shm.flowop p StatFlowop.counted calls) % 2 ^ 64 := by
  have hiff : ControlTotals ((s.endops calls).controlstats p) ↔ _ ∧ _ :=
    ⟨fun h => ⟨h.count, h.bytes⟩, fun h => ⟨h.1, h.2⟩⟩
  rw [hiff, control_rcount calls h, control_wcount calls h, control_count calls h,
    control_rbytes calls h, control_wbytes calls h, control_bytes calls h, BitVec.toNat_ofNat,
    BitVec.toNat_ofNat, BitVec.toInt_ofNat', Nat.cast_add]

/-- After any calls from zeroed statistics the totals agree if and only if no flowop that reads or
writes has moved a byte and no counter has run over. -/
theorem endops_totals (h : StatsStart s) :
    EndopTotals (s.endops calls) ↔ EndopMeets s.shm.flowop calls := by
  constructor
  · rintro ⟨hflows, hcontrols⟩
    rw [endops_flowop] at hflows
    exact ⟨fun f hf => ((flowTotals_iff calls h f hf).mp (hflows f hf)).1,
      fun f hf => ((flowTotals_iff calls h f hf).mp (hflows f hf)).2,
      fun p => ((controlTotals_iff calls h p).mp (hcontrols p)).1,
      fun p => ((controlTotals_iff calls h p).mp (hcontrols p)).2⟩
  · intro hmeets
    constructor
    · intro f hf
      rw [endops_flowop] at hf
      exact (flowTotals_iff calls h f hf).mpr ⟨hmeets.count f hf, hmeets.bytes f hf⟩
    · intro p
      exact (controlTotals_iff calls h p).mpr ⟨hmeets.controlCount p, hmeets.controlBytes p⟩

end totals

/-- One read of a page counts as a page moved but not as a page read. -/
theorem endops_misses : ¬ ∀ (s : StatsState Bool Unit Unit)
    (calls : List (EndopCall Bool Unit Unit)), StatsStart s → EndopTotals (s.endops calls) := by
  intro h
  have hstart : StatsStart readScript := ⟨fun _ => rfl, fun _ => rfl, fun _ => rfl, rfl⟩
  have htotals := h readScript [readCall 4096] hstart
  have hbytes := (htotals.flows true (.inl (by decide +kernel))).bytes
  exact absurd hbytes (by decide +kernel)

/-- Two calls at the end of the file, which read nothing, agree. -/
theorem endops_totals_twice : EndopTotals (readScript.endops [readCall 0, readCall 0]) := by
  refine (endops_totals (s := readScript) [readCall 0, readCall 0]
    ⟨fun _ => rfl, fun _ => rfl, fun _ => rfl, rfl⟩).mpr ?_
  constructor
  · decide +kernel
  · decide +kernel
  · decide +kernel
  · decide +kernel

end Filebench
