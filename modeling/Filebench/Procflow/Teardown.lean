import Filebench.Lib.Trace
import Filebench.Procflow.Session
import Filebench.Procflow.Work

/-! # The end of a run

The workers of a run start, run and end their threads, and the shutdown goes through the procflows.
A process that is still running is told to stop and deletes its threads before it exits; of any
other one only the procflow is removed. -/
namespace Filebench

open Linked

variable {α β A : Type} {n m k : ℕ}

/-- A thread that stops has said so before it calls the destructors of its flowops. -/
inductive ThreadPc (k : ℕ) where
  | absent
  | started
  | failed
  | running
  | stopping (flowop : Option (Fin k))
  | finished
  deriving DecidableEq

/-- The main process: before the run, in it, on its way through the procflows, waiting for one that
it told to stop and that is about to delete a thread, and after the run. -/
inductive TeardownPc (n m : ℕ) where
  | idle
  | running
  | visiting (procflow : Option (Fin n))
  | signalled (procflow : Fin n) (threadflow : Option (Fin m))
  | ended
  deriving DecidableEq

/-- `exec` are the processes that have begun. -/
structure WorkSession (α β A : Type) (n m k : ℕ) where
  shm : WorkShm α β A n m k
  exec : Fin n → Bool
  thread : Fin m → ThreadPc k
  main : TeardownPc n m

inductive WorkEvent (α β A : Type) (n m k : ℕ) where
  | create (env : ProcEnv α n)
  | procExec (p : Fin n) (env : Fin m → β → FbInt)
  | createFlowops (t : Fin m) (env : FlowopEnv A k)
  | stop (t : Fin m)
  | destruct (t : Fin m)
  | procEnd (p : Fin n)
  | allstarted
  | abort (fAbort : FAbort)
  | filebenchShutdown
  | shutdown
  | visit
  | deleteThread
  | reap

section step

variable (w : WorkSession α β A n m k)

/-- The end of `procflow_exec` -/
def ProcShm.procEnds {T : Type} (s : ProcShm α T n) (p : Fin n) : ProcShm α T n :=
  { s.setRunning p false with shmProcsRunning := s.shmProcsRunning - 1 }

/-- All threads that were allocated are started. -/
def startThreads (pool pool' : Pool m) (thread : Fin m → ThreadPc k) : Fin m → ThreadPc k :=
  fun t => if pool.bitmap t = false ∧ pool'.bitmap t = true then .started else thread t

/-- A process that cannot create all of its threads ends at once, and what cannot be created
otherwise leads to `filebench_shutdown`, of the process that it is in. -/
def WorkSession.next : WorkEvent α β A n m k → Option (WorkSession α β A n m k)
  | .create env =>
    if w.main = .idle then
      (procflowInit env { w.shm.procs with shmFAbort := .ok }).map fun (_, procs) =>
        { w with shm := { w.shm with procs := procs }, main := .running }
    else none
  | .procExec p env =>
    if p ∈ w.shm.instances ∧ w.exec p = false then
      (threadflowInit env p { w.shm with procs := w.shm.procs.setRunning p true }).map
        fun (created, shm) =>
          { w with
            shm := if created then shm else { shm with procs := shm.procs.procEnds p }
            exec := Function.update w.exec p true
            thread := startThreads w.shm.threadPool shm.threadPool w.thread }
    else none
  | .createFlowops t env =>
    if w.thread t = .started then
      match flowopCreateRuntimeFlowops env k (some t) (.thread t) w.shm.flowops with
      | some (.ok, flowops) =>
        let running := Function.update flowops.tfRunning t true
        some
          { w with
            shm := { w.shm with flowops := { flowops with tfRunning := running } }
            thread := Function.update w.thread t .running }
      | some (_, flowops) =>
        some
          { w with
            shm := { w.shm with flowops := flowops }
            thread := Function.update w.thread t .failed }
      | none => none
    else none
  | .stop t =>
    if w.thread t = .running then
      let flowops := w.shm.flowops
      let running := Function.update flowops.tfRunning t false
      some
        { w with
          shm := { w.shm with flowops := { flowops with tfRunning := running } }
          thread := Function.update w.thread t (.stopping (flowops.tfThrdFops t)) }
    else none
  | .destruct t =>
    match w.thread t with
    | .stopping flowop => do
      let flowops ← destructLoop k flowop w.shm.flowops
      some
        { w with
          shm := { w.shm with flowops := flowops }
          thread := Function.update w.thread t .finished }
    | _ => none
  | .procEnd p =>
    if w.exec p = true ∧ p ∈ w.shm.instances ∧
        (w.shm.ownThreads p).all (w.thread · = .finished) then
      some { w with shm := { w.shm with procs := w.shm.procs.procEnds p } }
    else none
  | .allstarted =>
    if w.main = .running then
      some
        { w with
          shm := { w.shm with
            procs := { w.shm.procs with shmProcsRunning := w.shm.instances.length } } }
    else none
  | .abort fAbort =>
    if fAbort = .ok ∨ fAbort = .fini then none
    else some { w with shm := { w.shm with procs := { w.shm.procs with shmFAbort := fAbort } } }
  | .filebenchShutdown =>
    w.shm.procs.filebenchShutdown.map fun procs => { w with shm := { w.shm with procs := procs } }
  | .shutdown =>
    if w.main = .running then
      if w.shm.procs.shmProcsRunning ≤ 0 ∨ w.shm.procs.shmFAbort = .fini then
        some { w with main := .ended }
      else
        let fAbort := if w.shm.procs.shmFAbort = .ok then .done else w.shm.procs.shmFAbort
        some
          { w with
            shm := { w.shm with procs := { w.shm.procs with shmFAbort := fAbort } }
            main := .visiting w.shm.procs.shmProclist }
    else none
  | .visit =>
    match w.main with
    | .visiting none =>
      some
        { w with
          shm := { w.shm with
            procs := { w.shm.procs with shmFAbort := .fini, shmProcsRunning := 0 } }
          main := .ended }
    | .visiting (some p) =>
      if w.shm.procs.Master p then some { w with main := .visiting (w.shm.procs.next p) }
      else if (w.shm.procs.procflow p).pfRunning then
        some { w with main := .signalled p (w.shm.pfThreads p) }
      else do
        let procs ← procflowCleanup p w.shm.procs
        some
          { w with
            shm := { w.shm with procs := procs }
            main := .visiting (w.shm.procs.next p) }
    | _ => none
  | .deleteThread =>
    match w.main with
    | .signalled p (some t) =>
      if w.shm.threadMaster t then some { w with main := .signalled p (w.shm.tfNext t) }
      else if w.shm.flowops.tfRunning t then none
      else do
        let shm ← threadflowDelete p t w.shm
        some { w with shm := shm, main := .signalled p (shm.tfNext t) }
    | _ => none
  | .reap =>
    match w.main with
    | .signalled p _ => do
      let procs ← procflowCleanup p w.shm.procs
      some
        { w with
          shm := { w.shm with procs := procs }
          main := .visiting (w.shm.procs.next p) }
    | _ => none

end step

end Filebench
