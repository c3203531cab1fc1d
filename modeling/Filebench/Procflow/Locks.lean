import Filebench.Fileset.PickSpec
import Filebench.Ipc.Exhaustion
import Filebench.Lib.Critical
import Filebench.Procflow.Restore

/-! # Locks

The functions that allocate in shared memory and the one that picks files each hold a shared lock.
Some of them return early with it, always where something was not to be had. -/
namespace Filebench

open Avl Critical Linked

/-! ## The functions -/

/-- `ipc_malloc` from where it takes the lock. Each of its cases lets it go. -/
def ipcMallocCall {memsize : ℕ} (layout : ObjLayout) (c : MallocCall memsize) :
    Critical (IpcShm memsize) (Option ℕ) := do
  lock
  match ← inside fun s => some (s.ipcMalloc layout c) with
  | none =>
    unlock
    return none
  | some addr =>
    unlock
    return some addr

/-- A pick that waits lets the lock go as well. -/
def filesetPickCall (fuel : ℕ) (flags : PickFlags) (tid : ℕ) (index : ℤ) (random : ℕ) :
    Critical Fileset PickResult := do
  lock
  match ← inside fun fs => filesetPick fuel fs flags tid index random with
  | .nullLocked => return .nullLocked
  | r =>
    unlock
    return r

section threads

variable {α β A : Type} {n m k : ℕ}

/-- `tf_thrd_fops` and `tf_running` of a thread of zeros. -/
def FlowopShm.clearThread (s : FlowopShm A k) (t : ThreadPtr) : FlowopShm A k :=
  { s with
    tfThrdFops := Function.update s.tfThrdFops t none
    tfRunning := Function.update s.tfRunning t false }

/-- `threadflow_define_common`, where the name and the thread to inherit from may be null. -/
def threadflowDefineAny (procflow : Fin n) (name : Option CString) (inherit : Option (Fin m))
    (zero : β) (inst : ℤ) (s : WorkShm α β A n m k) :
    Option (Option (Fin m) × WorkShm α β A n m k) :=
  match name with
  | none => some (none, s)
  | some name =>
    match inherit with
    | some inherit => threadflowDefineCommon procflow name inherit inst s
    | none =>
      match s.threadPool.ipcMalloc with
      | (none, pool) => some (none, { s with threadPool := pool })
      | (some t, pool) =>
        if name.length < tfNameSize then
          some (some t,
            { s.setThreads procflow (some t) with
              threadPool := pool
              threadflow := Function.update s.threadflow t ⟨name, inst, zero, s.pfThreads procflow⟩
              flowops := s.flowops.clearThread t })
        else none

def WorkShm.setTfInstances (s : WorkShm α β A n m k) (t : Fin m) (instances : β) :
    WorkShm α β A n m k :=
  { s with
    threadflow := Function.update s.threadflow t
      { s.threadflow t with tfInstances := instances } }

def threadflowDefine (procflow : Fin n) (name : Option CString) (inherit : Option (Fin m))
    (zero instances : β) : Critical (WorkShm α β A n m k) (Option (Fin m)) := do
  lock
  match ← inside (threadflowDefineAny procflow name inherit zero flowMaster) with
  | none => return none
  | some t =>
    inside fun s => some ((), s.setTfInstances t instances)
    unlock
    return some t

/-- `threadflow_init` up to the loop that joins the threads. It returns -1 where a thread was not
created. -/
def threadflowInitCall (env : Fin m → β → FbInt) (procflow : Fin n) :
    Critical (WorkShm α β A n m k) Bool := do
  lock
  match ← inside (threadflowInit env procflow) with
  | false => return false
  | true =>
    unlock
    return true

end threads

section procflows

variable {α T : Type} {n : ℕ}

/-- `procflow_define_common`, where the name and the procflow to inherit from may be null. -/
def procflowDefineAny (name : Option CString) (inherit : Option (Fin n)) (instances : α)
    (s : ProcShm α T n) : Option (Option (Fin n) × ProcShm α T n) :=
  match name with
  | none => some (none, s)
  | some name => procflowDefineCommon name
    ((inherit.map s.procflow).getD (clearedProcflow instances)) flowMaster s

/-- The result of the allocation is used without a look at it. -/
def procflowDefineCall (name : Option CString) (inherit : Option (Fin n)) (instances : α) :
    Critical (ProcShm α T n) (Option (Fin n)) := do
  lock
  match ← inside (procflowDefineAny name inherit instances) with
  | none => failure
  | some p =>
    inside fun s => some ((), s.modify p fun f => { f with pfInstances := instances })
    unlock
    return some p

end procflows

section flowops

variable {A : Type} {n v : ℕ}

/-- `sizeof fo_name` -/
def foNameSize : ℕ := 128

/-- Flowops and the values that `avd_int_alloc` allocates for them. -/
structure DefineShm (A : Type) (n v : ℕ) where
  flowops : FlowopShm A n
  avds : Pool v

/-- What a new flowop starts as. One that inherits nothing is `cleared` but for its `fo_iters`, and
these are null where there was no value to be had. -/
def DefineShm.inherited (s : DefineShm A n v) (inherit : Option (Fin n))
    (cleared : Option (Fin v) → ShmFlowop A n) : ShmFlowop A n × Pool v :=
  match inherit with
  | some inherit => (s.flowops.flowop inherit, s.avds)
  | none => (cleared s.avds.ipcMalloc.1, s.avds.ipcMalloc.2)

/-- `flowop_define_common`, where the name, the flowop to inherit from and the list may be null. -/
def flowopDefineAny (threadflow : Option ThreadPtr) (name : Option CString)
    (inherit : Option (Fin n)) (hdp : Option (FlowopList n)) (inst : ℤ)
    (cleared : Option (Fin v) → ShmFlowop A n) (s : DefineShm A n v) :
    Option (Option (Fin n) × DefineShm A n v) :=
  match name with
  | none => some (none, s)
  | some name =>
    match s.flowops.pool.ipcMalloc with
    | (none, pool) => some (none, { s with flowops := { s.flowops with pool := pool } })
    | (some p, pool) =>
      let (flowop, avds) := s.inherited inherit cleared
      if name.length < foNameSize then
        let flowops := { s.flowops with pool := pool }.push p
          { flowop with
            foExecNext := none
            foThread := threadflow
            foName := name
            foInstance := inst }
        match hdp with
        | none => some (some p, ⟨flowops, avds⟩)
        | some hdp => (flowops.append hdp p).map fun flowops => (some p, ⟨flowops, avds⟩)
      else none

def flowopDefine (threadflow : Option ThreadPtr) (name : Option CString) (inherit : Option (Fin n))
    (hdp : Option (FlowopList n)) (inst : ℤ) (cleared : Option (Fin v) → ShmFlowop A n) :
    Critical (DefineShm A n v) (Option (Fin n)) := do
  lock
  let flowop ← inside (flowopDefineAny threadflow name inherit hdp inst cleared)
  unlock
  return flowop

end flowops

/-! ## What each of them owes -/

theorem ipcMallocCall_contract {memsize : ℕ} (layout : ObjLayout) (c : MallocCall memsize)
    (s : IpcShm memsize) :
    Contract (ipcMallocCall layout c) (· = none) (s.pool c.type).Full s := by
  cases hmalloc : s.ipcMalloc layout c with
  | mk o s' =>
    have hinside : (fun s => some (s.ipcMalloc layout c)) s = some (o, s') := congrArg some hmalloc
    have hrun : ipcMallocCall layout c (s, false) = some (o, (s', false)) := by
      rw [ipcMallocCall, lock_bind, inside_bind_some hinside]
      cases o <;> rfl
    refine contract_of_released hrun fun hfull => ?_
    have hnone : (s.ipcMalloc layout c).1 = none :=
      (IpcShm.ipcMalloc_fst layout s c).mpr
        ((Pool.ipcMallocFrom_none_iff _ _).mpr fun i _ => hfull i)
    rw [hmalloc] at hnone
    exact hnone

/-- A random pick among no entries. -/
structure RejectedRange (fs : Fileset) (flags : PickFlags) (index : ℤ) : Prop where
  list : fs.fsList flags.type ≠ []
  idle : fs.fsIdle flags.type ≠ 0
  tree : avlIsEmpty (fs.fsTree (pickTree flags)) = false
  unique : flags.unique = true
  index : index = 0
  max : maxEntries fs flags.type = 0

theorem filebenchRandomno64_none (random : ℕ) : filebenchRandomno64 random 0 1 = none := rfl

theorem filesetPickFrom_ne {fuel : ℕ} {fs fs' : Fileset} {ty : FseType} {atp : FsTree}
    {entry : Option Entry} {r : PickResult}
    (h : filesetPickFrom fuel fs ty atp entry = some (r, fs')) : r ≠ .nullLocked := by
  unfold filesetPickFrom at h
  split at h
  next =>
    obtain ⟨rfl, -⟩ := Prod.mk.inj (Option.some.inj h)
    exact nofun
  next startPoint =>
    obtain ⟨o, -, h⟩ := Option.bind_eq_some_iff.mp h
    cases o with
    | none =>
      obtain ⟨rfl, -⟩ := Prod.mk.inj (Option.some.inj h)
      exact nofun
    | some e =>
      obtain ⟨rfl, -⟩ := Prod.mk.inj (Option.some.inj h)
      exact nofun

variable {fuel tid random : ℕ} {fs fs' : Fileset} {flags : PickFlags} {index : ℤ} {r : PickResult}

theorem filesetPick_rejected (h : RejectedRange fs flags index) :
    filesetPick fuel fs flags tid index random = some (.nullLocked, fs) := by
  obtain ⟨hlist, hidle, htree, hunique, rfl, hmax⟩ := h
  simp [filesetPick, hlist, hidle, htree, hunique, hmax, filebenchRandomno64_none]

theorem filesetPick_locked (h : filesetPick fuel fs flags tid index random = some (r, fs'))
    (hr : r = .nullLocked) : RejectedRange fs flags index := by
  unfold filesetPick at h
  dsimp only at h
  split_ifs at h with hlist hidle htree hunique hindex hbyindex
  · obtain ⟨rfl, -⟩ := Prod.mk.inj (Option.some.inj h)
    cases hr
  · obtain ⟨rfl, -⟩ := Prod.mk.inj (Option.some.inj h)
    cases hr
  · obtain ⟨rfl, -⟩ := Prod.mk.inj (Option.some.inj h)
    cases hr
  · obtain ⟨o, -, h⟩ := Option.bind_eq_some_iff.mp h
    exact absurd hr (filesetPickFrom_ne h)
  · split at h
    next hmax =>
      exact ⟨hlist, hidle, Bool.not_eq_true _ ▸ htree, hunique, not_not.mp hindex,
        randomno64_error hmax⟩
    next =>
      obtain ⟨o, -, h⟩ := Option.bind_eq_some_iff.mp h
      exact absurd hr (filesetPickFrom_ne h)
  · obtain ⟨o, -, h⟩ := Option.bind_eq_some_iff.mp h
    exact absurd hr (filesetPickFrom_ne h)
  · obtain ⟨rotor, -, h⟩ := Option.bind_eq_some_iff.mp h
    obtain ⟨o, -, h⟩ := Option.bind_eq_some_iff.mp h
    obtain ⟨e, -, h⟩ := Option.bind_eq_some_iff.mp h
    exact absurd hr (filesetPickFrom_ne h)

/-- A pick lets the lock go if and only if it is not refused its random number. -/
theorem filesetPickCall_contract :
    Contract (filesetPickCall fuel flags tid index random) (· = .null)
      (fs.fsList flags.type = []) fs ↔ ¬ RejectedRange fs flags index := by
  by_cases hrejected : RejectedRange fs flags index
  · refine iff_of_false ?_ (not_not.mpr hrejected)
    have hrun : filesetPickCall fuel flags tid index random (fs, false) =
        some (.nullLocked, (fs, true)) := by
      rw [filesetPickCall, lock_bind, inside_bind_some (filesetPick_rejected hrejected)]
      rfl
    exact not_contract_of_held hrun
  · refine iff_of_true ?_ hrejected
    cases hpick : filesetPick fuel fs flags tid index random with
    | none =>
      have hrun : filesetPickCall fuel flags tid index random (fs, false) = none := by
        rw [filesetPickCall, lock_bind, inside_bind_none hpick]
      refine (contract_of_undefined hrun).mpr fun hempty => ?_
      rw [filesetPick, if_pos hempty] at hpick
      cases hpick
    | some p =>
      obtain ⟨r, fs'⟩ := p
      have hr : r ≠ .nullLocked := fun hr => hrejected (filesetPick_locked hpick hr)
      have hrun : filesetPickCall fuel flags tid index random (fs, false) =
          some (r, (fs', false)) := by
        rw [filesetPickCall, lock_bind, inside_bind_some hpick]
        cases r with
        | nullLocked => exact absurd rfl hr
        | _ => rfl
      refine contract_of_released hrun fun hempty => ?_
      rw [filesetPick, if_pos hempty] at hpick
      exact (Prod.mk.inj (Option.some.inj hpick)).1.symm

section threads

variable {α β A : Type} {n m k : ℕ} {s s' : WorkShm α β A n m k} {procflow : Fin n}

theorem threadflowDefineCommon_exhausted (h : s.threadPool.avail = 0) (name : CString)
    (inherit : Fin m) (inst : ℤ) :
    threadflowDefineCommon procflow name inherit inst s = some (none, s) := by
  rw [threadflowDefineCommon, Pool.ipcMalloc_of_avail_zero h]

theorem threadflowDefineAny_null {name : Option CString} (h : name = none ∨ s.threadPool.avail = 0)
    (inherit : Option (Fin m)) (zero : β) (inst : ℤ) :
    threadflowDefineAny procflow name inherit zero inst s = some (none, s) := by
  cases name with
  | none => rfl
  | some name =>
    have havail := h.resolve_left nofun
    cases inherit with
    | some inherit => exact threadflowDefineCommon_exhausted havail name inherit inst
    | none =>
      rw [threadflowDefineAny]
      simp only [Pool.ipcMalloc_of_avail_zero havail]

theorem threadflowDefineAny_some {name : Option CString} {inherit : Option (Fin m)} {zero : β}
    {inst : ℤ} (hname : name ≠ none) (havail : 0 < s.threadPool.avail) {o : Option (Fin m)}
    (h : threadflowDefineAny procflow name inherit zero inst s = some (o, s')) : o ≠ none := by
  obtain ⟨t, pool, hmalloc, -⟩ := Pool.ipcMalloc_of_avail havail
  cases name with
  | none => exact absurd rfl hname
  | some name =>
    cases inherit with
    | some inherit =>
      simp only [threadflowDefineAny, threadflowDefineCommon, hmalloc,
        Option.ite_none_right_eq_some] at h
      obtain ⟨rfl, -⟩ := Prod.mk.inj (Option.some.inj h.2)
      exact nofun
    | none =>
      simp only [threadflowDefineAny, hmalloc, Option.ite_none_right_eq_some] at h
      obtain ⟨rfl, -⟩ := Prod.mk.inj (Option.some.inj h.2)
      exact nofun

/-- The early return keeps the lock. -/
theorem threadflowDefine_contract (name : Option CString) (inherit : Option (Fin m))
    (zero instances : β) :
    Contract (threadflowDefine procflow name inherit zero instances) (· = none)
      (s.threadPool.avail = 0) s ↔ name ≠ none ∧ 0 < s.threadPool.avail := by
  by_cases hnull : name = none ∨ s.threadPool.avail = 0
  · refine iff_of_false ?_ fun hboth => hnull.elim hboth.1 hboth.2.ne'
    have hrun : threadflowDefine procflow name inherit zero instances (s, false) =
        some (none, (s, true)) := by
      rw [threadflowDefine, lock_bind,
        inside_bind_some (threadflowDefineAny_null hnull inherit zero flowMaster)]
      rfl
    exact not_contract_of_held hrun
  · obtain ⟨hname, havail⟩ := not_or.mp hnull
    have hpos := Nat.pos_of_ne_zero havail
    refine iff_of_true ?_ ⟨hname, hpos⟩
    cases hdef : threadflowDefineAny procflow name inherit zero flowMaster s with
    | none =>
      have hrun : threadflowDefine procflow name inherit zero instances (s, false) = none := by
        rw [threadflowDefine, lock_bind, inside_bind_none hdef]
      exact (contract_of_undefined hrun).mpr havail
    | some r =>
      obtain ⟨o, s'⟩ := r
      cases o with
      | none => exact absurd rfl (threadflowDefineAny_some hname hpos hdef)
      | some t =>
        have hrun : threadflowDefine procflow name inherit zero instances (s, false) =
            some (some t, (s'.setTfInstances t instances, false)) := by
          rw [threadflowDefine, lock_bind, inside_bind_some hdef]
          rfl
        exact contract_of_released hrun fun hzero => absurd hzero havail

/-! ### `threadflow_init` -/

/-- The threads that were allocated are still the same. -/
structure KeepsThreads (s s' : WorkShm α β A n m k) : Prop where
  allocated : ∀ t, s.threadPool.bitmap t = true → s'.threadPool.bitmap t = true
  same : ∀ t, s.threadPool.bitmap t = true → s'.threadflow t = s.threadflow t

theorem KeepsThreads.refl (s : WorkShm α β A n m k) : KeepsThreads s s :=
  ⟨fun _ h => h, fun _ _ => rfl⟩

theorem KeepsThreads.trans {s₁ : WorkShm α β A n m k} (h : KeepsThreads s s₁)
    (h' : KeepsThreads s₁ s') : KeepsThreads s s' where
  allocated t ht := h'.allocated t (h.allocated t ht)
  same t ht := (h'.same t (h.allocated t ht)).trans (h.same t ht)

/-- A new thread comes in front of those of its process. -/
structure ThreadPushed (s s' : WorkShm α β A n m k) (procflow : Fin n) (t : Fin m) : Prop where
  free : s.threadPool.bitmap t = false
  pool : s'.threadPool.bitmap = Function.update s.threadPool.bitmap t true
  others : ∀ u ≠ t, s'.threadflow u = s.threadflow u
  name : (s'.threadflow t).tfName.length < tfNameSize
  next : s'.tfNext t = s.pfThreads procflow
  head : s'.pfThreads procflow = some t

theorem ThreadPushed.keeps {t : Fin m} (h : ThreadPushed s s' procflow t) : KeepsThreads s s' := by
  have hne : ∀ u, s.threadPool.bitmap u = true → u ≠ t := by
    rintro u hu rfl
    rw [h.free] at hu
    cases hu
  refine ⟨fun u hu => ?_, fun u hu => h.others u (hne u hu)⟩
  rw [h.pool]
  exact (Function.update_of_ne (hne u hu) ..).trans hu

theorem threadPushed_of_malloc {t : Fin m} {pool : Pool m} {f : ShmThreadflow β m}
    (hmalloc : s.threadPool.ipcMalloc = (some t, pool)) (hname : f.tfName.length < tfNameSize)
    (hnext : f.tfNext = s.pfThreads procflow) (flowops : FlowopShm A k) :
    ThreadPushed s
      { s.setThreads procflow (some t) with
        threadPool := pool
        threadflow := Function.update s.threadflow t f
        flowops := flowops } procflow t := by
  obtain ⟨-, hfree, rfl⟩ := Pool.ipcMalloc_some hmalloc
  refine ⟨hfree, rfl, fun u hu => Function.update_of_ne hu .., ?_, ?_, ?_⟩
  · simpa using hname
  · simpa [WorkShm.tfNext] using hnext
  · simp [WorkShm.pfThreads, WorkShm.setThreads, ProcShm.modify]

theorem threadflowDefineCommon_pushed {name : CString} {inherit t : Fin m} {inst : ℤ}
    (h : threadflowDefineCommon procflow name inherit inst s = some (some t, s')) :
    ThreadPushed s s' procflow t := by
  cases hmalloc : s.threadPool.ipcMalloc with
  | mk o pool =>
    simp only [threadflowDefineCommon, hmalloc] at h
    cases o with
    | none => cases h
    | some p =>
      obtain ⟨hname, h⟩ := Option.ite_none_right_eq_some.mp h
      obtain ⟨heq, rfl⟩ := Prod.mk.inj (Option.some.inj h)
      obtain rfl := Option.some.inj heq
      exact threadPushed_of_malloc hmalloc hname rfl _

theorem threadflowDefineAny_pushed {name : Option CString} {inherit : Option (Fin m)} {zero : β}
    {inst : ℤ} {t : Fin m}
    (h : threadflowDefineAny procflow name inherit zero inst s = some (some t, s')) :
    ThreadPushed s s' procflow t := by
  cases name with
  | none => cases h
  | some name =>
    cases inherit with
    | some inherit => exact threadflowDefineCommon_pushed h
    | none =>
      cases hmalloc : s.threadPool.ipcMalloc with
      | mk o pool =>
        simp only [threadflowDefineAny, hmalloc] at h
        cases o with
        | none => cases h
        | some p =>
          obtain ⟨hname, h⟩ := Option.ite_none_right_eq_some.mp h
          obtain ⟨heq, rfl⟩ := Prod.mk.inj (Option.some.inj h)
          obtain rfl := Option.some.inj heq
          exact threadPushed_of_malloc hmalloc hname rfl _

theorem threadflowDefineCommon_fits (procflow : Fin n) {name : CString}
    (hname : name.length < tfNameSize) (havail : 0 < s.threadPool.avail) (inherit : Fin m)
    (inst : ℤ) :
    ∃ t s', threadflowDefineCommon procflow name inherit inst s = some (some t, s') ∧
      KeepsThreads s s' ∧ s'.threadPool.avail + 1 = s.threadPool.avail := by
  obtain ⟨t, pool, hmalloc, hpool⟩ := Pool.ipcMalloc_of_avail havail
  obtain ⟨s', hs', hdef⟩ : ∃ s', s'.threadPool = pool ∧
      threadflowDefineCommon procflow name inherit inst s = some (some t, s') := by
    simp only [threadflowDefineCommon, hmalloc, if_pos hname]
    exact ⟨_, rfl, rfl⟩
  exact ⟨t, s', hdef, (threadflowDefineCommon_pushed hdef).keeps, hs' ▸ hpool⟩

/-- The instances of one thread of the script: as many as there are free threads for. -/
theorem createThreads_spec (procflow : Fin n) {threadflow : Fin m} (numbers : List ℤ)
    (halloc : s.threadPool.bitmap threadflow = true)
    (hname : (s.threadflow threadflow).tfName.length < tfNameSize) :
    ∃ created s', createThreads procflow threadflow numbers s = some (created, s') ∧
      KeepsThreads s s' ∧ (created = true ↔ numbers.length ≤ s.threadPool.avail) ∧
      (created = true → s'.threadPool.avail + numbers.length = s.threadPool.avail) := by
  induction numbers generalizing s with
  | nil => exact ⟨true, s, rfl, .refl s, iff_of_true rfl (Nat.zero_le _), fun _ => rfl⟩
  | cons inst rest ih =>
    rw [createThreads]
    by_cases havail : s.threadPool.avail = 0
    · rw [threadflowDefineCommon_exhausted havail]
      refine ⟨false, s, rfl, .refl s, iff_of_false Bool.false_ne_true ?_,
        fun h => absurd h Bool.false_ne_true⟩
      rw [havail, List.length_cons]
      exact Nat.not_succ_le_zero _
    · obtain ⟨t, s₁, hdef, hkeeps, hone⟩ := threadflowDefineCommon_fits procflow hname
        (Nat.pos_of_ne_zero havail) threadflow inst
      have hsame := hkeeps.same threadflow halloc
      obtain ⟨created, s', hrest, hkeeps', hiff, hleft⟩ :=
        ih (hkeeps.allocated threadflow halloc) (hsame ▸ hname)
      rw [hdef]
      refine ⟨created, s', hrest, hkeeps.trans hkeeps', ?_, fun hcreated => ?_⟩
      · rw [hiff, List.length_cons]
        omega
      · have hleft := hleft hcreated
        rw [List.length_cons]
        omega

/-- The threads to create for those of the script. -/
def threadsWanted (env : Fin m → β → FbInt) (s : WorkShm α β A n m k) (L : List (Fin m)) : ℕ :=
  (L.map fun t => (threadNumbers (intCount (env t (s.threadflow t).tfInstances))).length).sum

/-- The list of threads of a process: they are allocated and their names fit. -/
structure ThreadList (s : WorkShm α β A n m k) (cur : Option (Fin m)) (L : List (Fin m)) :
    Prop where
  list : IsList s.tfNext cur L
  allocated : ∀ t ∈ L, s.threadPool.bitmap t = true
  names : ∀ t ∈ L, (s.threadflow t).tfName.length < tfNameSize

theorem ThreadList.keeps {cur : Option (Fin m)} {L : List (Fin m)} (h : ThreadList s cur L)
    (hkeeps : KeepsThreads s s') : ThreadList s' cur L where
  list := h.list.congr fun t ht =>
    congrArg ShmThreadflow.tfNext (hkeeps.same t (h.allocated t ht))
  allocated t ht := hkeeps.allocated t (h.allocated t ht)
  names t ht := by
    rw [hkeeps.same t (h.allocated t ht)]
    exact h.names t ht

theorem ThreadList.push {t : Fin m} {L : List (Fin m)} (h : ThreadList s (s.pfThreads procflow) L)
    (hpushed : ThreadPushed s s' procflow t) :
    ThreadList s' (s'.pfThreads procflow) (t :: L) := by
  have hkeeps := h.keeps hpushed.keeps
  refine ⟨?_, ?_, ?_⟩
  · rw [hpushed.head]
    refine ⟨rfl, ?_⟩
    rw [hpushed.next]
    exact hkeeps.list
  · intro u hu
    rcases List.mem_cons.mp hu with rfl | hu
    · rw [hpushed.pool, Function.update_self]
    · exact hkeeps.allocated u hu
  · intro u hu
    rcases List.mem_cons.mp hu with rfl | hu
    · exact hpushed.name
    · exact hkeeps.names u hu

theorem ThreadList.tail {cur : Option (Fin m)} {t : Fin m} {L : List (Fin m)}
    (h : ThreadList s cur (t :: L)) : ThreadList s (s.tfNext t) L where
  list := h.list.2
  allocated u hu := h.allocated u (.tail _ hu)
  names u hu := h.names u (.tail _ hu)

theorem threadsWanted_keeps {env : Fin m → β → FbInt} {L : List (Fin m)}
    (halloc : ∀ t ∈ L, s.threadPool.bitmap t = true) (hkeeps : KeepsThreads s s') :
    threadsWanted env s' L = threadsWanted env s L := by
  rw [threadsWanted, threadsWanted,
    List.map_congr_left fun t ht => by rw [hkeeps.same t (halloc t ht)]]

theorem createAllThreads_spec (env : Fin m → β → FbInt) (procflow : Fin n) {fuel : ℕ}
    {cur : Option (Fin m)} {L : List (Fin m)} (hL : ThreadList s cur L) (hfuel : L.length ≤ fuel) :
    ∃ created s', createAllThreads env procflow fuel cur s = some (created, s') ∧
      (created = true ↔ threadsWanted env s L ≤ s.threadPool.avail) := by
  induction L generalizing s cur fuel with
  | nil =>
    obtain rfl : cur = none := hL.list
    refine ⟨true, s, ?_, iff_of_true rfl (Nat.zero_le _)⟩
    cases fuel <;> rfl
  | cons t L ih =>
    obtain rfl := hL.list.1
    cases fuel with
    | zero => exact absurd hfuel (Nat.not_succ_le_zero _)
    | succ fuel =>
      set numbers := threadNumbers (intCount (env t (s.threadflow t).tfInstances)) with hnumbers
      obtain ⟨created, s₁, hthreads, hkeeps, hiff, hleft⟩ := createThreads_spec procflow numbers
        (hL.allocated t (.head _)) (hL.names t (.head _))
      have hwanted : threadsWanted env s (t :: L) = numbers.length + threadsWanted env s L :=
        List.sum_cons
      rw [createAllThreads]
      simp only [← hnumbers, hthreads, Option.bind_eq_bind, Option.bind_some, hwanted]
      cases created with
      | false =>
        refine ⟨false, s₁, rfl, iff_of_false Bool.false_ne_true ?_⟩
        have hnot := mt hiff.mpr Bool.false_ne_true
        omega
      | true =>
        have hnext : s₁.tfNext t = s.tfNext t :=
          congrArg ShmThreadflow.tfNext (hkeeps.same t (hL.allocated t (.head _)))
        have htail := hL.tail.keeps hkeeps
        rw [← hnext] at htail
        obtain ⟨created, s', hrest, hiff'⟩ := ih htail (Nat.le_of_succ_le_succ hfuel)
        refine ⟨created, s', hrest, ?_⟩
        rw [hiff', threadsWanted_keeps hL.tail.allocated hkeeps]
        have hleft := hleft rfl
        have hle := hiff.mp rfl
        omega

theorem threadList_setTfInstances {cur : Option (Fin m)} {L : List (Fin m)} (t : Fin m)
    (instances : β) (h : ThreadList s cur L) :
    ThreadList (s.setTfInstances t instances) cur L := by
  have hsame : ∀ u, ((s.setTfInstances t instances).threadflow u).tfNext = (s.threadflow u).tfNext ∧
      ((s.setTfInstances t instances).threadflow u).tfName = (s.threadflow u).tfName := by
    intro u
    by_cases hut : u = t
    · subst hut
      simp [WorkShm.setTfInstances]
    · simp [WorkShm.setTfInstances, hut]
  refine ⟨h.list.congr fun u _ => (hsame u).1, h.allocated, fun u hu => ?_⟩
  rw [(hsame u).2]
  exact h.names u hu

/-- The definitions of the script build the list of threads of its processes. -/
theorem threadflowDefine_threadList {name : Option CString} {inherit : Option (Fin m)}
    {zero instances : β} {t : Fin m} {L : List (Fin m)} {held : Bool}
    (hL : ThreadList s (s.pfThreads procflow) L)
    (h : threadflowDefine procflow name inherit zero instances (s, false) =
      some (some t, (s', held))) :
    ThreadList s' (s'.pfThreads procflow) (t :: L) := by
  cases hdef : threadflowDefineAny procflow name inherit zero flowMaster s with
  | none =>
    rw [threadflowDefine, lock_bind, inside_bind_none hdef] at h
    cases h
  | some r =>
    obtain ⟨o, s₁⟩ := r
    rw [threadflowDefine, lock_bind, inside_bind_some hdef] at h
    cases o with
    | none => cases h
    | some u =>
      obtain ⟨heq, hs⟩ := Prod.mk.inj (Option.some.inj h)
      obtain rfl := Option.some.inj heq
      obtain ⟨rfl, -⟩ := Prod.mk.inj hs
      exact threadList_setTfInstances u instances (hL.push (threadflowDefineAny_pushed hdef))

/-- Every return of -1 keeps the lock. -/
theorem threadflowInitCall_contract (env : Fin m → β → FbInt) {L : List (Fin m)}
    (hL : ThreadList s (s.pfThreads procflow) L) :
    Contract (threadflowInitCall env procflow) (· = false)
      (s.threadPool.avail < threadsWanted env s L) s ↔
        threadsWanted env s L ≤ s.threadPool.avail := by
  obtain ⟨created, s', hcreate, hiff⟩ := createAllThreads_spec env procflow hL
    (length_le_of_isList hL.list)
  have hinit : threadflowInit env procflow s = some (created, s') := hcreate
  cases created with
  | false =>
    have hrun : threadflowInitCall env procflow (s, false) = some (false, (s', true)) := by
      rw [threadflowInitCall, lock_bind, inside_bind_some hinit]
      rfl
    exact iff_of_false (not_contract_of_held hrun) (mt hiff.mpr Bool.false_ne_true)
  | true =>
    have hrun : threadflowInitCall env procflow (s, false) = some (true, (s', false)) := by
      rw [threadflowInitCall, lock_bind, inside_bind_some hinit]
      rfl
    have hle := hiff.mp rfl
    exact iff_of_true (contract_of_released hrun fun hlt => absurd hle (not_le.mpr hlt)) hle

end threads

section procflows

variable {α T : Type} {n : ℕ} {s s' : ProcShm α T n}

theorem procflowDefineCommon_exhausted (h : s.pool.avail = 0) (name : CString)
    (inherit : Procflow α T n) (inst : ℤ) :
    procflowDefineCommon name inherit inst s = some (none, s) := by
  rw [procflowDefineCommon, Pool.ipcMalloc_of_avail_zero h]

theorem procflowDefineCommon_instances {name : CString} {instances : α} {inst : ℤ} {p : Fin n}
    (h : procflowDefineCommon name (clearedProcflow instances) inst s = some (some p, s')) :
    s'.modify p (fun f => { f with pfInstances := instances }) = s' := by
  cases hmalloc : s.pool.ipcMalloc with
  | mk o pool =>
    simp only [procflowDefineCommon, hmalloc] at h
    cases o with
    | none => cases h
    | some q =>
      obtain ⟨heq, rfl⟩ := Prod.mk.inj (Option.some.inj (Option.ite_none_right_eq_some.mp h).2)
      obtain rfl := Option.some.inj heq
      simp [ProcShm.modify, clearedProcflow]

/-- The definition of a process of the script inherits nothing. -/
theorem procflowDefineCall_shm (name : CString) (instances : α) :
    (procflowDefineCall (some name) none instances (s, false)).map (·.2.1) =
      procflowDefine name instances s := by
  cases hdef : procflowDefineCommon name (clearedProcflow instances) flowMaster s with
  | none =>
    have hany : procflowDefineAny (some name) none instances s = none := hdef
    rw [procflowDefineCall, lock_bind, inside_bind_none hany, procflowDefine, hdef]
    rfl
  | some r =>
    obtain ⟨o, s'⟩ := r
    have hany : procflowDefineAny (some name) none instances s = some (o, s') := hdef
    rw [procflowDefineCall, lock_bind, inside_bind_some hany, procflowDefine, hdef]
    cases o with
    | none => rfl
    | some p => exact congrArg some (procflowDefineCommon_instances hdef)

/-- With nothing to allocate the null pointer is written through. -/
theorem procflowDefineCall_contract (name : Option CString) (inherit : Option (Fin n))
    (instances : α) :
    Contract (procflowDefineCall name inherit instances) (· = none) (s.pool.avail = 0) s ↔
      0 < s.pool.avail := by
  rw [Nat.pos_iff_ne_zero]
  cases hdef : procflowDefineAny name inherit instances s with
  | none =>
    have hrun : procflowDefineCall name inherit instances (s, false) = none := by
      rw [procflowDefineCall, lock_bind, inside_bind_none hdef]
    exact contract_of_undefined hrun
  | some r =>
    obtain ⟨o, s'⟩ := r
    cases o with
    | none =>
      have hrun : procflowDefineCall name inherit instances (s, false) = none := by
        rw [procflowDefineCall, lock_bind, inside_bind_some hdef]
        rfl
      exact contract_of_undefined hrun
    | some p =>
      have havail : s.pool.avail ≠ 0 := by
        intro hzero
        cases name with
        | none => cases hdef
        | some name =>
          rw [procflowDefineAny, procflowDefineCommon_exhausted hzero] at hdef
          cases hdef
      refine iff_of_true ?_ havail
      have hrun : procflowDefineCall name inherit instances (s, false) = some (some p,
          (s'.modify p fun f => { f with pfInstances := instances }, false)) := by
        rw [procflowDefineCall, lock_bind, inside_bind_some hdef]
        rfl
      exact contract_of_released hrun fun hzero => absurd hzero havail

end procflows

section flowops

variable {A : Type} {n v : ℕ} {s s' : DefineShm A n v} {threadflow : Option ThreadPtr}
  {name : Option CString} {inherit : Option (Fin n)} {hdp : Option (FlowopList n)} {inst : ℤ}
  {cleared : Option (Fin v) → ShmFlowop A n}

/-- A pool that the definition of a flowop takes from is empty. -/
def DefineShm.Exhausted (s : DefineShm A n v) (inherit : Option (Fin n)) : Prop :=
  s.flowops.pool.avail = 0 ∨ inherit = none ∧ s.avds.avail = 0

/-- The flowop is defined, but there is no value for its `fo_iters`. -/
structure NullIters (s : DefineShm A n v) (name : Option CString) (inherit : Option (Fin n)) :
    Prop where
  name : name ≠ none
  flowops : s.flowops.pool.avail ≠ 0
  inherit : inherit = none
  avds : s.avds.avail = 0

theorem flowopDefineAny_null (h : name = none ∨ s.flowops.pool.avail = 0) :
    flowopDefineAny threadflow name inherit hdp inst cleared s = some (none, s) := by
  cases name with
  | none => rfl
  | some name =>
    have havail := h.resolve_left nofun
    simp only [flowopDefineAny, Pool.ipcMalloc_of_avail_zero havail]

theorem flowopDefineAny_some {o : Option (Fin n)} (hname : name ≠ none)
    (havail : s.flowops.pool.avail ≠ 0)
    (h : flowopDefineAny threadflow name inherit hdp inst cleared s = some (o, s')) :
    o ≠ none := by
  obtain ⟨p, pool, hmalloc, -⟩ := Pool.ipcMalloc_of_avail (Nat.pos_of_ne_zero havail)
  cases name with
  | none => exact absurd rfl hname
  | some name =>
    simp only [flowopDefineAny, hmalloc, Option.ite_none_right_eq_some] at h
    cases hdp with
    | none =>
      obtain ⟨rfl, -⟩ := Prod.mk.inj (Option.some.inj h.2)
      exact nofun
    | some hdp =>
      obtain ⟨flowops, -, heq⟩ := Option.map_eq_some_iff.mp h.2
      obtain ⟨rfl, -⟩ := Prod.mk.inj heq
      exact nofun

theorem exhausted_of_nullIters (h : NullIters s name inherit) : s.Exhausted inherit :=
  .inr ⟨h.inherit, h.avds⟩

theorem null_of_exhausted (h : ¬ NullIters s name inherit) (hexhausted : s.Exhausted inherit) :
    name = none ∨ s.flowops.pool.avail = 0 := by
  by_contra hnot
  obtain ⟨hname, havail⟩ := not_or.mp hnot
  obtain ⟨hinherit, havds⟩ := hexhausted.resolve_left havail
  exact h ⟨hname, havail, hinherit, havds⟩

/-- The lock is always let go, but a flowop without its `fo_iters` is returned as any other. -/
theorem flowopDefine_contract :
    Contract (flowopDefine threadflow name inherit hdp inst cleared) (· = none)
      (s.Exhausted inherit) s ↔ ¬ NullIters s name inherit := by
  cases hdef : flowopDefineAny threadflow name inherit hdp inst cleared s with
  | none =>
    have hrun : flowopDefine threadflow name inherit hdp inst cleared (s, false) = none := by
      rw [flowopDefine, lock_bind, inside_bind_none hdef]
    rw [contract_of_undefined hrun, not_iff_not]
    refine ⟨fun hexhausted => ?_, exhausted_of_nullIters⟩
    by_contra hnot
    rw [flowopDefineAny_null (null_of_exhausted hnot hexhausted)] at hdef
    cases hdef
  | some r =>
    obtain ⟨o, s'⟩ := r
    have hrun : flowopDefine threadflow name inherit hdp inst cleared (s, false) =
        some (o, (s', false)) := by
      rw [flowopDefine, lock_bind, inside_bind_some hdef]
      rfl
    constructor
    · intro hcontract hnull
      obtain ⟨o', s'', held, hrun', rfl⟩ := hcontract.reported (exhausted_of_nullIters hnull)
      rw [hrun] at hrun'
      obtain ⟨rfl, -⟩ := Prod.mk.inj (Option.some.inj hrun')
      exact flowopDefineAny_some hnull.name hnull.flowops hdef rfl
    · refine fun hnot => contract_of_released hrun fun hexhausted => ?_
      rw [flowopDefineAny_null (null_of_exhausted hnot hexhausted)] at hdef
      exact (Prod.mk.inj (Option.some.inj hdef)).1.symm

end flowops

/-! ## All of them -/

/-- The calls and the states they start from. A process starts the threads on its list. -/
inductive LockCall : Type 1 where
  | ipcMalloc {memsize : ℕ} (layout : ObjLayout) (c : MallocCall memsize) (s : IpcShm memsize)
  | filesetPick (fuel tid random : ℕ) (flags : PickFlags) (index : ℤ) (fs : Fileset)
  | threadflowDefine {α β A : Type} {n m k : ℕ} (procflow : Fin n) (name : Option CString)
      (inherit : Option (Fin m)) (zero instances : β) (s : WorkShm α β A n m k)
  | threadflowInit {α β A : Type} {n m k : ℕ} (env : Fin m → β → FbInt) (procflow : Fin n)
      (s : WorkShm α β A n m k) (L : List (Fin m)) (list : ThreadList s (s.pfThreads procflow) L)
  | procflowDefine {α T : Type} {n : ℕ} (name : Option CString) (inherit : Option (Fin n))
      (instances : α) (s : ProcShm α T n)
  | flowopDefine {A : Type} {n v : ℕ} (threadflow : Option ThreadPtr) (name : Option CString)
      (inherit : Option (Fin n)) (hdp : Option (FlowopList n)) (inst : ℤ)
      (cleared : Option (Fin v) → ShmFlowop A n) (s : DefineShm A n v)

/-- The call lets its lock go and its result tells when there was nothing left. -/
def LockCall.Balanced : LockCall → Prop
  | .ipcMalloc layout c s => Contract (ipcMallocCall layout c) (· = none) (s.pool c.type).Full s
  | .filesetPick fuel tid random flags index fs =>
    Contract (filesetPickCall fuel flags tid index random) (· = .null)
      (fs.fsList flags.type = []) fs
  | .threadflowDefine procflow name inherit zero instances s =>
    Contract (Filebench.threadflowDefine procflow name inherit zero instances) (· = none)
      (s.threadPool.avail = 0) s
  | .threadflowInit env procflow s L _ =>
    Contract (threadflowInitCall env procflow) (· = false)
      (s.threadPool.avail < threadsWanted env s L) s
  | .procflowDefine name inherit instances s =>
    Contract (procflowDefineCall name inherit instances) (· = none) (s.pool.avail = 0) s
  | .flowopDefine threadflow name inherit hdp inst cleared s =>
    Contract (Filebench.flowopDefine threadflow name inherit hdp inst cleared) (· = none)
      (s.Exhausted inherit) s

/-- The call gets what it asks for, or it is one that goes through its unlock without it. -/
def LockCall.Provided : LockCall → Prop
  | .ipcMalloc _ _ _ => True
  | .filesetPick _ _ _ flags index fs => ¬ RejectedRange fs flags index
  | .threadflowDefine _ name _ _ _ s => name ≠ none ∧ 0 < s.threadPool.avail
  | .threadflowInit env _ s L _ => threadsWanted env s L ≤ s.threadPool.avail
  | .procflowDefine _ _ _ s => 0 < s.pool.avail
  | .flowopDefine _ name inherit _ _ _ s => ¬ NullIters s name inherit

theorem locks_balanced_iff (call : LockCall) : call.Balanced ↔ call.Provided := by
  cases call with
  | ipcMalloc layout c s => exact iff_of_true (ipcMallocCall_contract layout c s) trivial
  | filesetPick fuel tid random flags index fs => exact filesetPickCall_contract
  | threadflowDefine procflow name inherit zero instances s =>
    exact threadflowDefine_contract name inherit zero instances
  | threadflowInit env procflow s L list => exact threadflowInitCall_contract env list
  | procflowDefine name inherit instances s =>
    exact procflowDefineCall_contract name inherit instances
  | flowopDefine threadflow name inherit hdp inst cleared s => exact flowopDefine_contract

/-- All threads are in use. -/
def exhaustedScript : WorkShm Unit Unit Unit nprocflows nthreadflows nflowops :=
  { workerScript with threadPool := ⟨fun _ => true, scriptThread⟩ }

theorem exhaustedScript_avail : exhaustedScript.threadPool.avail = 0 := by
  simp [exhaustedScript, Pool.avail, Pool.free]

theorem exhaustedScript_threadList :
    ThreadList exhaustedScript (exhaustedScript.pfThreads scriptProc) [scriptThread] := by
  refine ⟨⟨rfl, rfl⟩, fun _ _ => rfl, fun _ _ => ?_⟩
  exact (by decide : ['t'].length < tfNameSize)

/-- The process cannot start its thread and returns with the lock. -/
theorem locks_balanced_iff_exhausted : ¬ (LockCall.threadflowInit (fun _ _ => 1) scriptProc
    exhaustedScript [scriptThread] exhaustedScript_threadList).Balanced := by
  refine (locks_balanced_iff _).not.mpr fun hprovided => ?_
  have hnone : threadsWanted (fun _ _ => 1) exhaustedScript [scriptThread] ≤ 0 :=
    exhaustedScript_avail ▸ hprovided
  exact absurd hnone (by decide)

/-- One more thread in the script. -/
theorem threadflowDefine_locked :
    threadflowDefine scriptProc (some ['t']) none () () (exhaustedScript, false) =
      some (none, (exhaustedScript, true)) ∧ ¬ ∀ call : LockCall, call.Balanced := by
  have hrun : threadflowDefine scriptProc (some ['t']) none () () (exhaustedScript, false) =
      some (none, (exhaustedScript, true)) := by
    rw [threadflowDefine, lock_bind, inside_bind_some
      (threadflowDefineAny_null (.inr exhaustedScript_avail) none () flowMaster)]
    rfl
  refine ⟨hrun, fun hall => ?_⟩
  have hbalanced := hall (.threadflowDefine scriptProc (some ['t']) none () () exhaustedScript)
  exact not_contract_of_held hrun hbalanced

end Filebench
