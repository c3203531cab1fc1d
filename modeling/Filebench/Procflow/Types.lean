import Filebench.Flowop.Composite
import Filebench.Flowop.Runtime

/-! # Procflows

The processes that the script defines and the instances that a run creates of them are on one
list, new ones first. A run goes through the list as it was at the start and the shutdown removes
the instances again. -/
namespace Filebench

open Linked

/-- `α` are values of attributes, `T` threads. -/
structure Procflow (α T : Type) (n : ℕ) where
  pfName : CString
  pfInstance : ℤ
  pfInstances : α
  pfRunning : Bool
  pfNext : Option (Fin n)
  pfThreads : Option T

structure ProcShm (α T : Type) (n : ℕ) where
  procflow : Fin n → Procflow α T n
  pool : Pool n
  shmProclist : Option (Fin n)
  shmProcsRunning : ℤ
  shmFAbort : FAbort

/-- What `pf_instances` evaluates to when a procflow is visited, which forks succeed and whether
the thread that creates the processes can be started. -/
structure ProcEnv (α : Type) (n : ℕ) where
  instances : Fin n → α → FbInt
  fork : Fin n → Bool
  createnwait : Bool

section memory

variable {α T : Type} {n : ℕ}

/-- `sizeof pf_name` -/
def pfNameSize : ℕ := 128

def ProcShm.next (s : ProcShm α T n) : Fin n → Option (Fin n) := fun p => (s.procflow p).pfNext

/-- Whether the procflow is one of the script. -/
def ProcShm.Master (s : ProcShm α T n) (p : Fin n) : Prop := (s.procflow p).pfInstance = flowMaster

instance (s : ProcShm α T n) (p : Fin n) : Decidable (s.Master p) :=
  inferInstanceAs (Decidable (_ = _))

def ProcShm.modify (s : ProcShm α T n) (p : Fin n) (f : Procflow α T n → Procflow α T n) :
    ProcShm α T n :=
  { s with procflow := Function.update s.procflow p (f (s.procflow p)) }

def ProcShm.setRunning (s : ProcShm α T n) (p : Fin n) (b : Bool) : ProcShm α T n :=
  s.modify p fun f => { f with pfRunning := b }

def ProcShm.setNext (s : ProcShm α T n) (p : Fin n) (o : Option (Fin n)) : ProcShm α T n :=
  s.modify p fun f => { f with pfNext := o }

/-- A name that does not fit is copied over the rest of the procflow. -/
def procflowDefineCommon (name : CString) (inherit : Procflow α T n) (inst : ℤ)
    (s : ProcShm α T n) : Option (Option (Fin n) × ProcShm α T n) :=
  match s.pool.ipcMalloc with
  | (none, pool) => some (none, { s with pool := pool })
  | (some p, pool) =>
    if name.length < pfNameSize then
      some (some p,
        { s with
          pool := pool
          procflow := Function.update s.procflow p
            { inherit with pfInstance := inst, pfName := name, pfNext := s.shmProclist }
          shmProclist := some p })
    else none

/-- A procflow of zeros but for `pf_instances`, which is set at the end. -/
def clearedProcflow (instances : α) : Procflow α T n :=
  ⟨[], 0, instances, false, none, none⟩

/-- The result of the allocation is not looked at before it is used. -/
def procflowDefine (name : CString) (instances : α) (s : ProcShm α T n) :
    Option (ProcShm α T n) := do
  match ← procflowDefineCommon name (clearedProcflow instances) flowMaster s with
  | (none, _) => none
  | (some _, s) => some s

variable (env : ProcEnv α n)

def procflowCreateproc (procflow : Fin n) (s : ProcShm α T n) : Bool × ProcShm α T n :=
  (env.fork procflow, s.setRunning procflow false)

/-- The loop over the instances of one procflow, from the `i`-th on. It tells whether all of them
were created. -/
def createInstances (procflow : Fin n) : ℕ → ℕ → ProcShm α T n → Option (Bool × ProcShm α T n)
  | 0, _, s => some (true, s)
  | k + 1, i, s => do
    match ← procflowDefineCommon (s.procflow procflow).pfName (s.procflow procflow) (i + 1) s with
    | (none, s) => some (false, s)
    | (some newproc, s) =>
      match procflowCreateproc env newproc s with
      | (true, s) => createInstances procflow k (i + 1) s
      | (false, s) => some (false, s)

def createAllProcs : ℕ → Option (Fin n) → ProcShm α T n → Option (Bool × ProcShm α T n)
  | _, none, s => some (true, s)
  | 0, some _, _ => none
  | fuel + 1, some procflow, s => do
    let instances := intCount (env.instances procflow (s.procflow procflow).pfInstances)
    match ← createInstances env procflow instances 0 s with
    | (false, s) => some (false, s)
    | (true, s) => createAllProcs fuel (s.next procflow) s

/-- The list has no more procflows than there are. -/
def procflowCreateAllProcs (s : ProcShm α T n) : Option (Bool × ProcShm α T n) :=
  createAllProcs env n s.shmProclist s

/-- Without the thread that creates the processes this reports success. -/
def procflowInit (s : ProcShm α T n) : Option (Bool × ProcShm α T n) :=
  if s.shmProclist = none then some (false, s)
  else if env.createnwait then procflowCreateAllProcs env s
  else some (true, s)

/-- A procflow that is not on the list stays allocated. -/
def procflowUnlink (procflow : Fin n) (s : ProcShm α T n) : Option (ProcShm α T n) :=
  match s.shmProclist with
  | none => some s
  | some entry =>
    if entry = procflow then
      some { s with shmProclist := s.next procflow, pool := s.pool.ipcFree procflow }
    else do
      match ← prevOf s.next procflow n entry with
      | none => some s
      | some entry =>
        some { s.setNext entry (s.next procflow) with pool := s.pool.ipcFree procflow }

def procflowCleanup (procflow : Fin n) (s : ProcShm α T n) : Option (ProcShm α T n) :=
  procflowUnlink procflow (s.setRunning procflow false)

/-- The next procflow is read before the cleanup. -/
def shutdownLoop : ℕ → Option (Fin n) → ProcShm α T n → Option (ProcShm α T n)
  | _, none, s => some s
  | 0, some _, _ => none
  | fuel + 1, some procflow, s =>
    if s.Master procflow then
      shutdownLoop fuel (s.next procflow) s
    else do
      let nextProcflow := s.next procflow
      let s ← procflowCleanup procflow s
      shutdownLoop fuel nextProcflow s

/-- With no process counted as running nothing is done. -/
def procflowShutdown (s : ProcShm α T n) : Option (ProcShm α T n) :=
  if s.shmProcsRunning ≤ 0 then some s
  else if s.shmFAbort = .fini then some s
  else do
    let fAbort := if s.shmFAbort = .ok then .done else s.shmFAbort
    let s ← shutdownLoop n s.shmProclist { s with shmFAbort := fAbort }
    some { s with shmFAbort := .fini, shmProcsRunning := 0 }

end memory

end Filebench
