import Filebench.Procflow.Threads

/-! # The threads that a worker process starts

The list of threads is walked while the new ones come in front of it. Each thread of the script
gets a first instance at the end, whether or not it is to have any. -/
namespace Filebench

open Linked

/-- A thread that was started, with the one that it was copied from and its number. -/
structure ThreadStart (m : ℕ) where
  thread : Fin m
  inherit : Fin m
  inst : ℤ

variable {α β A : Type} {n m k : ℕ}

/-! ## What is started -/

/-- The system can always start another thread. -/
def threadflowCreatethread (newthread : ThreadStart m) (log : List (ThreadStart m)) :
    List (ThreadStart m) :=
  log ++ [newthread]

/-- `createThreads` with a record of the threads started. -/
def createThreadsLog (procflow : Fin n) (threadflow : Fin m) : List ℤ →
    WorkShm α β A n m k × List (ThreadStart m) →
    Option (Bool × WorkShm α β A n m k × List (ThreadStart m))
  | [], x => some (true, x)
  | inst :: rest, (s, log) => do
    match ← threadflowDefineCommon procflow (s.threadflow threadflow).tfName threadflow inst s with
    | (none, s) => some (false, s, log)
    | (some newthread, s) =>
      createThreadsLog procflow threadflow rest
        (s, threadflowCreatethread ⟨newthread, threadflow, inst⟩ log)

def createAllThreadsLog (env : Fin m → β → FbInt) (procflow : Fin n) : ℕ → Option (Fin m) →
    WorkShm α β A n m k × List (ThreadStart m) →
    Option (Bool × WorkShm α β A n m k × List (ThreadStart m))
  | _, none, x => some (true, x)
  | 0, some _, _ => none
  | fuel + 1, some threadflow, x => do
    let instances := intCount (env threadflow (x.1.threadflow threadflow).tfInstances)
    match ← createThreadsLog procflow threadflow (threadNumbers instances) x with
    | (false, x) => some (false, x)
    | (true, x) => createAllThreadsLog env procflow fuel (x.1.tfNext threadflow) x

def threadflowInitLog (env : Fin m → β → FbInt) (procflow : Fin n) (s : WorkShm α β A n m k) :
    Option (Bool × WorkShm α β A n m k × List (ThreadStart m)) :=
  createAllThreadsLog env procflow m (s.pfThreads procflow) (s, [])

/-- What a logged run is without its record. -/
def unlogged {X : Type} (r : Bool × WorkShm α β A n m k × X) : Bool × WorkShm α β A n m k :=
  (r.1, r.2.1)

theorem createThreadsLog_fst {p : Fin n} {u : Fin m} (numbers : List ℤ)
    (x : WorkShm α β A n m k × List (ThreadStart m)) :
    (createThreadsLog p u numbers x).map unlogged = createThreads p u numbers x.1 := by
  induction numbers generalizing x with
  | nil => rfl
  | cons i numbers ih =>
    obtain ⟨s, log⟩ := x
    rw [createThreadsLog, createThreads]
    dsimp only
    cases threadflowDefineCommon p (s.threadflow u).tfName u i s with
    | none => rfl
    | some r =>
      obtain ⟨o, s₁⟩ := r
      cases o with
      | none => rfl
      | some t => exact ih _

theorem createAllThreadsLog_fst {env : Fin m → β → FbInt} {p : Fin n} (fuel : ℕ)
    (cur : Option (Fin m)) (x : WorkShm α β A n m k × List (ThreadStart m)) :
    (createAllThreadsLog env p fuel cur x).map unlogged = createAllThreads env p fuel cur x.1 := by
  induction fuel generalizing cur x with
  | zero => cases cur <;> rfl
  | succ fuel ih =>
    cases cur with
    | none => rfl
    | some u =>
      rw [createAllThreadsLog, createAllThreads, ← createThreadsLog_fst]
      cases createThreadsLog p u _ x with
      | none => rfl
      | some r =>
        obtain ⟨b, y⟩ := r
        cases b with
        | false => rfl
        | true => exact ih _ y

theorem threadflowInitLog_fst (env : Fin m → β → FbInt) (p : Fin n) (s : WorkShm α β A n m k) :
    (threadflowInitLog env p s).map unlogged = threadflowInit env p s :=
  createAllThreadsLog_fst m _ _

/-! ## The list while it grows -/

section starting

variable {s₀ s s' : WorkShm α β A n m k} {p : Fin n} {masters : List (Fin m)}
  {log log' : List (ThreadStart m)}

/-- The threads of the script are on the list of a process, with names that fit. -/
structure ThreadMasters (s : WorkShm α β A n m k) (p : Fin n) (masters : List (Fin m)) : Prop where
  list : IsList s.tfNext (s.pfThreads p) masters
  allocated : ∀ t ∈ masters, s.threadPool.bitmap t = true
  scripted : ∀ t ∈ masters, s.threadMaster t
  names : ∀ t ∈ masters, (s.threadflow t).tfName.length < tfNameSize

/-- The threads started so far lie in front of those of the script, which are as before. -/
structure Starting (s₀ s : WorkShm α β A n m k) (p : Fin n) (masters : List (Fin m))
    (log : List (ThreadStart m)) : Prop where
  list : IsList s.tfNext (s.pfThreads p) ((log.map (·.thread)).reverse ++ masters)
  allocated : ∀ t ∈ masters, s.threadPool.bitmap t = true
  kept : ∀ t ∈ masters, s.threadflow t = s₀.threadflow t
  started : ∀ x ∈ log, x.inherit ∈ masters ∧ s.threadPool.bitmap x.thread = true ∧
    ∃ o, s.threadflow x.thread =
      { s₀.threadflow x.inherit with tfInstance := x.inst, tfNext := o }

theorem ThreadMasters.starting (h : ThreadMasters s p masters) : Starting s s p masters [] :=
  ⟨h.list, h.allocated, fun _ _ => rfl, fun _ hx => absurd hx List.not_mem_nil⟩

/-- Either there is no thread left, or a free one comes in front of the list. -/
theorem threadflowDefineCommon_cases {name : CString} (hname : name.length < tfNameSize)
    (p : Fin n) (u : Fin m) (inst : ℤ) (s : WorkShm α β A n m k) :
    (∃ s', threadflowDefineCommon p name u inst s = some (none, s')) ∨
      ∃ t s', threadflowDefineCommon p name u inst s = some (some t, s') ∧
        s.threadPool.bitmap t = false ∧
        s'.threadPool.bitmap = Function.update s.threadPool.bitmap t true ∧
        s'.threadflow = Function.update s.threadflow t { s.threadflow u with
          tfInstance := inst, tfName := name, tfNext := s.pfThreads p } ∧
        s'.pfThreads p = some t := by
  unfold threadflowDefineCommon
  cases hm : s.threadPool.ipcMalloc with
  | mk o pool =>
    cases o with
    | none => exact .inl ⟨_, rfl⟩
    | some t =>
      obtain ⟨-, hfree, rfl⟩ := Pool.ipcMalloc_some hm
      dsimp only
      rw [if_pos hname]
      refine .inr ⟨t, _, rfl, hfree, rfl, rfl, ?_⟩
      change ((s.setThreads p (some t)).procs.procflow p).pfThreads = some t
      rw [WorkShm.setThreads, ProcShm.modify]
      simp

/-- Another thread is started as a copy of one of the script. -/
theorem Starting.define {t u : Fin m} {inst : ℤ} (h : Starting s₀ s p masters log)
    (hu : u ∈ masters) (hfree : s.threadPool.bitmap t = false)
    (hpool : s'.threadPool.bitmap = Function.update s.threadPool.bitmap t true)
    (hthread : s'.threadflow = Function.update s.threadflow t { s.threadflow u with
      tfInstance := inst, tfName := (s.threadflow u).tfName, tfNext := s.pfThreads p })
    (hhead : s'.pfThreads p = some t) :
    Starting s₀ s' p masters (threadflowCreatethread ⟨t, u, inst⟩ log) := by
  have hne : ∀ w, s.threadPool.bitmap w = true → w ≠ t := by
    rintro w hw rfl
    rw [hw] at hfree
    cases hfree
  have hsame : ∀ w, s.threadPool.bitmap w = true → s'.threadflow w = s.threadflow w := by
    intro w hw
    rw [hthread, Function.update_of_ne (hne w hw)]
  have hstill : ∀ w, s.threadPool.bitmap w = true → s'.threadPool.bitmap w = true := by
    intro w hw
    rw [hpool, Function.update_of_ne (hne w hw)]
    exact hw
  have hself : s'.threadflow t = { s₀.threadflow u with
      tfInstance := inst, tfNext := s.pfThreads p } := by
    rw [hthread, Function.update_self, h.kept u hu]
  constructor
  · rw [threadflowCreatethread, List.map_append, List.map_singleton, List.reverse_append,
      List.reverse_singleton, List.singleton_append, List.cons_append]
    refine ⟨hhead, ?_⟩
    have hnext : s'.tfNext t = s.pfThreads p := by rw [WorkShm.tfNext, hself]
    rw [hnext]
    refine h.list.congr fun w hw => congrArg ShmThreadflow.tfNext (hsame w ?_)
    rcases List.mem_append.mp hw with hw | hw
    · obtain ⟨x, hx, rfl⟩ := List.mem_map.mp (List.mem_reverse.mp hw)
      exact (h.started x hx).2.1
    · exact h.allocated w hw
  · exact fun w hw => hstill w (h.allocated w hw)
  · exact fun w hw => (hsame w (h.allocated w hw)).trans (h.kept w hw)
  · intro x hx
    rcases List.mem_append.mp hx with hx | hx
    · obtain ⟨hinherit, halloc, o, ho⟩ := h.started x hx
      exact ⟨hinherit, hstill _ halloc, o, (hsame _ halloc).trans ho⟩
    · obtain rfl := List.mem_singleton.mp hx
      refine ⟨hu, ?_, _, hself⟩
      rw [hpool, Function.update_self]

/-- All instances of one thread of the script, as long as no allocation fails. -/
theorem createThreadsLog_spec {u : Fin m} (numbers : List ℤ) (h : Starting s₀ s p masters log)
    (hu : u ∈ masters) (hnames : ∀ t ∈ masters, (s₀.threadflow t).tfName.length < tfNameSize) :
    ∃ ok s' log', createThreadsLog p u numbers (s, log) = some (ok, s', log') ∧
      (ok = true → Starting s₀ s' p masters log' ∧
        ∃ L, log' = log ++ L ∧ L.map (·.inst) = numbers ∧ ∀ x ∈ L, x.inherit = u) := by
  induction numbers generalizing s log with
  | nil =>
    refine ⟨true, s, log, rfl, fun _ => ⟨h, [], (List.append_nil _).symm, rfl, ?_⟩⟩
    exact fun _ hx => absurd hx List.not_mem_nil
  | cons i numbers ih =>
    have hname : (s.threadflow u).tfName.length < tfNameSize := by
      rw [h.kept u hu]
      exact hnames u hu
    rw [createThreadsLog]
    rcases threadflowDefineCommon_cases hname p u i s with ⟨s', hrun⟩ |
      ⟨t, s₁, hrun, hfree, hpool, hthread, hhead⟩
    · rw [hrun]
      exact ⟨false, s', log, rfl, fun hok => absurd hok Bool.false_ne_true⟩
    · rw [hrun]
      obtain ⟨ok, s', log', hrest, hspec⟩ := ih (h.define hu hfree hpool hthread hhead)
      refine ⟨ok, s', log', hrest, fun hok => ?_⟩
      obtain ⟨hstarting, L, rfl, hmap, hinherit⟩ := hspec hok
      refine ⟨hstarting, ⟨t, u, i⟩ :: L, ?_, ?_, ?_⟩
      · rw [threadflowCreatethread, List.append_assoc, List.singleton_append]
      · rw [List.map_cons, hmap]
      · intro x hx
        rcases List.mem_cons.mp hx with rfl | hx
        · rfl
        · exact hinherit x hx

/-- The instances that a thread of the script gets. -/
def WorkShm.instancesOf (env : Fin m → β → FbInt) (s : WorkShm α β A n m k) (t : Fin m) : FbInt :=
  env t (s.threadflow t).tfInstances

/-- The rest of the walk. -/
theorem createAllThreadsLog_spec (env : Fin m → β → FbInt) {cur : Option (Fin m)}
    {rest : List (Fin m)} (fuel : ℕ) (h : Starting s₀ s p masters log)
    (hrest : IsList s.tfNext cur rest) (hsub : ∀ t ∈ rest, t ∈ masters)
    (hnames : ∀ t ∈ masters, (s₀.threadflow t).tfName.length < tfNameSize)
    (hfuel : rest.length ≤ fuel) :
    ∃ ok s' log', createAllThreadsLog env p fuel cur (s, log) = some (ok, s', log') ∧
      (ok = true → Starting s₀ s' p masters log' ∧ ∃ L, log' = log ++ L ∧
        (∀ x ∈ L, x.inherit ∈ rest) ∧ ∀ t ∈ rest,
          (L.filter (·.inherit = t)).map (·.inst) =
            threadNumbers (intCount (s₀.instancesOf env t))) := by
  induction rest generalizing s log cur fuel with
  | nil =>
    obtain rfl : cur = none := hrest
    have hend : createAllThreadsLog env p fuel none (s, log) = some (true, s, log) := by
      cases fuel <;> rfl
    refine ⟨true, s, log, hend, fun _ => ⟨h, [], (List.append_nil _).symm, ?_, ?_⟩⟩
    · exact fun _ hx => absurd hx List.not_mem_nil
    · exact fun _ ht => absurd ht List.not_mem_nil
  | cons u rest ih =>
    obtain ⟨fuel, rfl, hle⟩ := exists_fuel hfuel
    obtain ⟨rfl, hrest⟩ := hrest
    have hu := hsub u (.head _)
    have hurest : u ∉ rest :=
      (List.nodup_cons.mp (IsList.nodup (h := some u) ⟨rfl, hrest⟩)).1
    obtain ⟨ok, s₁, log₁, hrun, hspec⟩ :=
      createThreadsLog_spec (threadNumbers (intCount (s₀.instancesOf env u))) h hu hnames
    have hcount : intCount (env u (s.threadflow u).tfInstances) =
        intCount (s₀.instancesOf env u) := by rw [h.kept u hu, WorkShm.instancesOf]
    rw [createAllThreadsLog]
    dsimp only
    rw [hcount, hrun]
    cases ok with
    | false => exact ⟨false, s₁, log₁, rfl, fun hok => absurd hok Bool.false_ne_true⟩
    | true =>
      obtain ⟨hstarting, L₁, rfl, hmap, hinherit⟩ := hspec rfl
      have hnext : ∀ t ∈ masters, s₁.tfNext t = s.tfNext t := by
        intro t ht
        rw [WorkShm.tfNext, WorkShm.tfNext, hstarting.kept t ht, h.kept t ht]
      have hrest₁ : IsList s₁.tfNext (s₁.tfNext u) rest := by
        rw [hnext u hu]
        exact hrest.congr fun t ht => hnext t (hsub t (.tail _ ht))
      obtain ⟨ok, s', log', hrun', hspec'⟩ := ih fuel hstarting hrest₁
        (fun t ht => hsub t (.tail _ ht)) hle
      refine ⟨ok, s', log', hrun', fun hok => ?_⟩
      obtain ⟨hstarting', L₂, rfl, hfrom, hnumbers⟩ := hspec' hok
      refine ⟨hstarting', L₁ ++ L₂, List.append_assoc .., ?_, ?_⟩
      · intro x hx
        rcases List.mem_append.mp hx with hx | hx
        · rw [hinherit x hx]
          exact .head _
        · exact .tail _ (hfrom x hx)
      · intro t ht
        rw [List.filter_append, List.map_append]
        rcases List.mem_cons.mp ht with rfl | ht
        · have hfirst : L₁.filter (·.inherit = t) = L₁ :=
            List.filter_eq_self.mpr fun x hx => decide_eq_true (hinherit x hx)
          have hlater : L₂.filter (·.inherit = t) = [] := by
            refine List.filter_eq_nil_iff.mpr fun x hx hd => hurest ?_
            rw [← of_decide_eq_true hd]
            exact hfrom x hx
          rw [hfirst, hlater, hmap, List.map_nil, List.append_nil]
        · have hfirst : L₁.filter (·.inherit = t) = [] := by
            refine List.filter_eq_nil_iff.mpr fun x hx hd => hurest ?_
            rw [← hinherit x hx, of_decide_eq_true hd]
            exact ht
          rw [hfirst, List.map_nil, List.nil_append]
          exact hnumbers t ht

/-! ## The numbers of the instances -/

theorem threadNumbers_perm_iff (v : FbInt) :
    (threadNumbers (intCount v)).Perm ((List.range' 1 v.toNat).map (Nat.cast : ℕ → ℤ)) ↔
      1 ≤ v.toNat ∧ v.toNat < 2 ^ 31 := by
  constructor
  · intro hperm
    have hlt := intCount_lt v
    have hlen := hperm.length_eq
    simp only [threadNumbers, List.length_append, List.length_map, List.length_range',
      List.length_singleton] at hlen
    omega
  · rintro ⟨hpos, hlt⟩
    obtain ⟨c, hc⟩ : ∃ c, v.toNat = c + 1 := ⟨v.toNat - 1, by omega⟩
    rw [intCount_of_lt hlt, threadNumbers, hc, Nat.add_sub_cancel, List.range'_succ, List.map_cons]
    exact List.perm_append_comm

/-- As many threads as each thread of the script is to have were started from it, under the
numbers from one on, and lie in front of those of the script. -/
structure ThreadsStarted (s s' : WorkShm α β A n m k) (env : Fin m → β → FbInt) (p : Fin n)
    (masters : List (Fin m)) (log : List (ThreadStart m)) : Prop where
  numbered : ∀ t ∈ masters, ((log.filter (·.inherit = t)).map (·.inst)).Perm
    ((List.range' 1 (s.instancesOf env t).toNat).map (Nat.cast : ℕ → ℤ))
  inherits : ∀ x ∈ log, x.inherit ∈ masters
  copies : ∀ x ∈ log, ∃ o, s'.threadflow x.thread =
    { s.threadflow x.inherit with tfInstance := x.inst, tfNext := o }
  list : IsList s'.tfNext (s'.pfThreads p) ((log.map (·.thread)).reverse ++ masters)
  kept : ∀ t ∈ masters, s'.threadMaster t

/-- A process ends up with the threads that it is to have if and only if each thread of the script
is to have one at least, and an `int` can count them. -/
theorem threadflowInit_started (env : Fin m → β → FbInt) (h : ThreadMasters s p masters) :
    ∃ ok s' log, threadflowInitLog env p s = some (ok, s', log) ∧
      threadflowInit env p s = some (ok, s') ∧
      (ok = true → (ThreadsStarted s s' env p masters log ↔ ∀ t ∈ masters,
        1 ≤ (s.instancesOf env t).toNat ∧ (s.instancesOf env t).toNat < 2 ^ 31)) := by
  obtain ⟨ok, s', log, hrun, hspec⟩ := createAllThreadsLog_spec env m h.starting h.list
    (fun _ ht => ht) h.names (length_le_of_isList h.list)
  refine ⟨ok, s', log, hrun, ?_, fun hok => ?_⟩
  · rw [← threadflowInitLog_fst, threadflowInitLog, hrun]
    rfl
  · obtain ⟨hstarting, L, hlog, -, hnumbers⟩ := hspec hok
    rw [List.nil_append] at hlog
    subst hlog
    constructor
    · intro hstarted t ht
      have hperm := hstarted.numbered t ht
      rw [hnumbers t ht] at hperm
      exact (threadNumbers_perm_iff _).mp hperm
    · intro hcount
      refine ⟨fun t ht => ?_, fun x hx => (hstarting.started x hx).1,
        fun x hx => (hstarting.started x hx).2.2, hstarting.list, fun t ht => ?_⟩
      · rw [hnumbers t ht]
        exact (threadNumbers_perm_iff _).mpr (hcount t ht)
      · rw [WorkShm.threadMaster, hstarting.kept t ht]
        exact h.scripted t ht

end starting

/-- A process with one thread of the script. -/
def oneThread (instances : FbInt) : WorkShm Unit FbInt Unit 1 4 1 where
  procs :=
    { procflow _ := ⟨[], 1, (), false, none, some 0⟩
      pool := ⟨fun _ => true, 0⟩
      shmProclist := some 0
      shmProcsRunning := 0
      shmFAbort := .ok }
  threadflow _ := ⟨[], flowMaster, instances, none⟩
  threadPool := ⟨fun t => t = 0, 0⟩
  flowops :=
    { flowop _ := ⟨[], 0, .library, (), none, none, 0, 0, none, none, none⟩
      pool := ⟨fun _ => false, 0⟩
      shmFlowoplist := none
      tfThrdFops _ := none
      tfRunning _ := false }

theorem oneThread_masters (instances : FbInt) : ThreadMasters (oneThread instances) 0 [0] := by
  refine ⟨⟨rfl, rfl⟩, ?_, ?_, ?_⟩
  · intro t ht
    obtain rfl := List.mem_singleton.mp ht
    rfl
  · exact fun _ _ => rfl
  · intro _ _
    exact show 0 < tfNameSize by decide

theorem threadflowInit_started_two : ∃ s' log,
    threadflowInitLog (fun _ v => v) 0 (oneThread 2) = some (true, s', log) ∧
      ThreadsStarted (oneThread 2) s' (fun _ v => v) 0 [0] log := by
  obtain ⟨ok, s', log, hrun, -, hiff⟩ :=
    threadflowInit_started (fun _ v => v) (oneThread_masters 2)
  have hok : (threadflowInitLog (fun _ v => v) 0 (oneThread 2)).map Prod.fst = some true := rfl
  rw [hrun] at hok
  obtain rfl := Option.some.inj hok
  refine ⟨s', log, hrun, (hiff rfl).mpr fun t ht => ?_⟩
  obtain rfl := List.mem_singleton.mp ht
  decide

/-- A thread with `instances=0` is started once. -/
theorem threadflowInit_zero : ∃ s' log,
    threadflowInitLog (fun _ v => v) 0 (oneThread 0) = some (true, s', log) ∧
      log.map (·.inst) = [1] ∧
      ¬ ThreadsStarted (oneThread 0) s' (fun _ v => v) 0 [0] log := by
  obtain ⟨r, hr, hvalues⟩ : ∃ r, threadflowInitLog (fun _ v => v) 0 (oneThread 0) = some r ∧
      (r.1, r.2.2.map (·.inst), r.2.2.map (·.inherit)) = (true, [1], [0]) :=
    Option.map_eq_some_iff.mp rfl
  obtain ⟨ok, s', log⟩ := r
  obtain ⟨hok, hlog⟩ := Prod.mk.inj hvalues
  obtain ⟨hinst, hinherit⟩ := Prod.mk.inj hlog
  dsimp only at hok hinst hinherit
  subst hok
  refine ⟨s', log, hr, hinst, fun hstarted => ?_⟩
  have hall : log.filter (·.inherit = 0) = log := by
    refine List.filter_eq_self.mpr fun x hx => decide_eq_true ?_
    have hmem := List.mem_map_of_mem (f := (·.inherit)) hx
    rw [hinherit] at hmem
    exact List.mem_singleton.mp hmem
  have hperm := hstarted.numbered 0 (.head _)
  rw [hall, hinst] at hperm
  exact absurd hperm.length_eq (by decide)

end Filebench
