import Filebench.Flowop.Holdings
import Filebench.Procflow.Instances

/-! # The threads of worker processes

The list of threads of a worker process is that of its procflow in the script, and its own threads
come in front of it. They are deleted when the process is told to stop. -/
namespace Filebench

open Linked

/-- `β` are values of attributes. -/
structure ShmThreadflow (β : Type) (m : ℕ) where
  tfName : CString
  tfInstance : ℤ
  tfInstances : β
  tfNext : Option (Fin m)

/-- Processes, threads and flowops. `tf_thrd_fops` and `tf_running` are with the flowops. -/
structure WorkShm (α β A : Type) (n m k : ℕ) where
  procs : ProcShm α (Fin m) n
  threadflow : Fin m → ShmThreadflow β m
  threadPool : Pool m
  flowops : FlowopShm A k

section memory

variable {α β A : Type} {n m k : ℕ}

/-- `sizeof tf_name` -/
def tfNameSize : ℕ := 128

def WorkShm.tfNext (s : WorkShm α β A n m k) : Fin m → Option (Fin m) :=
  fun t => (s.threadflow t).tfNext

def WorkShm.pfThreads (s : WorkShm α β A n m k) (p : Fin n) : Option (Fin m) :=
  (s.procs.procflow p).pfThreads

def WorkShm.setThreads (s : WorkShm α β A n m k) (p : Fin n) (o : Option (Fin m)) :
    WorkShm α β A n m k :=
  { s with procs := s.procs.modify p fun f => { f with pfThreads := o } }

def WorkShm.setTfNext (s : WorkShm α β A n m k) (t : Fin m) (o : Option (Fin m)) :
    WorkShm α β A n m k :=
  { s with
    threadflow := Function.update s.threadflow t { s.threadflow t with tfNext := o } }

/-- The copy has the flowops of the other thread. -/
def FlowopShm.copyThread (s : FlowopShm A k) (t inherit : ThreadPtr) : FlowopShm A k :=
  { s with
    tfThrdFops := Function.update s.tfThrdFops t (s.tfThrdFops inherit)
    tfRunning := Function.update s.tfRunning t (s.tfRunning inherit) }

/-- `threadflow_define_common` with a thread to inherit from. -/
def threadflowDefineCommon (procflow : Fin n) (name : CString) (inherit : Fin m) (inst : ℤ)
    (s : WorkShm α β A n m k) : Option (Option (Fin m) × WorkShm α β A n m k) :=
  match s.threadPool.ipcMalloc with
  | (none, pool) => some (none, { s with threadPool := pool })
  | (some t, pool) =>
    if name.length < tfNameSize then
      some (some t,
        { s.setThreads procflow (some t) with
          threadPool := pool
          threadflow := Function.update s.threadflow t
            { s.threadflow inherit with
              tfInstance := inst, tfName := name, tfNext := s.pfThreads procflow }
          flowops := s.flowops.copyThread t inherit })
    else none

/-- The instances of a thread in the order of their creation. There always is a first one. -/
def threadNumbers (instances : ℕ) : List ℤ :=
  (List.range' 2 (instances - 1)).map (Nat.cast : ℕ → ℤ) ++ [1]

/-- The loop over the instances. It tells whether all of them were created. -/
def createThreads (procflow : Fin n) (threadflow : Fin m) :
    List ℤ → WorkShm α β A n m k → Option (Bool × WorkShm α β A n m k)
  | [], s => some (true, s)
  | inst :: rest, s => do
    match ← threadflowDefineCommon procflow (s.threadflow threadflow).tfName threadflow inst s with
    | (none, s) => some (false, s)
    | (some _, s) => createThreads procflow threadflow rest s

/-- `env` evaluates `tf_instances`. -/
def createAllThreads (env : Fin m → β → FbInt) (procflow : Fin n) :
    ℕ → Option (Fin m) → WorkShm α β A n m k → Option (Bool × WorkShm α β A n m k)
  | _, none, s => some (true, s)
  | 0, some _, _ => none
  | fuel + 1, some threadflow, s => do
    let instances := intCount (env threadflow (s.threadflow threadflow).tfInstances)
    match ← createThreads procflow threadflow (threadNumbers instances) s with
    | (false, s) => some (false, s)
    | (true, s) => createAllThreads env procflow fuel (s.tfNext threadflow) s

/-- The list has no more threads than there are. -/
def threadflowInit (env : Fin m → β → FbInt) (procflow : Fin n) (s : WorkShm α β A n m k) :
    Option (Bool × WorkShm α β A n m k) :=
  createAllThreads env procflow m (s.pfThreads procflow) s

/-- Takes a thread off the list of a process. On the empty list this reads through the null
pointer. -/
def WorkShm.unlinkThread (s : WorkShm α β A n m k) (procflow : Fin n) (t : Fin m) :
    Option (Bool × WorkShm α β A n m k) :=
  if s.pfThreads procflow = some t then some (true, s.setThreads procflow (s.tfNext t))
  else do
    let entry ← s.pfThreads procflow
    match ← prevOf s.tfNext t m entry with
    | none => some (false, s)
    | some entry => some (true, s.setTfNext entry (s.tfNext t))

/-- `threadflow_delete` after `threadflow_kill`. -/
def threadflowDelete (procflow : Fin n) (t : Fin m) (s : WorkShm α β A n m k) :
    Option (WorkShm α β A n m k) := do
  let (found, s) ← s.unlinkThread procflow t
  if found then do
    let flowops ← flowopDeleteAll (.thread t) s.flowops
    some { s with flowops := flowops, threadPool := s.threadPool.ipcFree t }
  else some s

def WorkShm.threadMaster (s : WorkShm α β A n m k) (t : Fin m) : Prop :=
  (s.threadflow t).tfInstance = flowMaster

instance (s : WorkShm α β A n m k) (t : Fin m) : Decidable (s.threadMaster t) :=
  inferInstanceAs (Decidable (_ = _))

/-- The procflows on the list that are not of the script. -/
def WorkShm.instances (s : WorkShm α β A n m k) : List (Fin n) :=
  (walk s.procs.next n s.procs.shmProclist).filter (¬ s.procs.Master ·)

/-- The threads of a process that are not of the script. -/
def WorkShm.ownThreads (s : WorkShm α β A n m k) (p : Fin n) : List (Fin m) :=
  (walk s.tfNext m (s.pfThreads p)).filter (¬ s.threadMaster ·)

end memory

end Filebench
