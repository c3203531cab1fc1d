import Filebench.Flowop.Library
import Filebench.Fileset.Run

/-! # Threads that run flowops

Any number of threads, each running one program after another. A critical section is one step,
and so is every call to the file system. A thread that waits on a condition variable is blocked
until it is signalled and then tries its critical section again. -/
namespace Filebench

open Avl Fuel Prog

inductive Wait where
  | ready
  | blocked
  | signalled
  deriving DecidableEq, Repr

/-- `held` are the entries that the current program marked busy and has not released, `leaked`
those that earlier programs of the thread left behind. `log` are the calls of the current
program, and `openFd` the entry whose file a descriptor of the thread refers to. -/
structure Thread where
  prog : Flow FlowopRet
  wait : Wait
  tf : Threadflow
  held : List Entry
  leaked : List Entry
  log : List (SysCall × ℤ)
  openFd : ℕ → Option Entry

structure Sys where
  fs : Fileset
  thread : ℕ → Thread

/-- Marks an entry busy. A close takes the entry from the idle count at the last open only. -/
def grabEntry (kind : Grab) (fs : Fileset) (e : Entry) : Fileset :=
  let fs := fs.setFlags e fun f => { f with busy := true }
  match kind with
  | .delete => fs.addIdle .file (-1)
  | .close => if (fs.fse e).fseOpenCnt = 1 then fs.addIdle .file (-1) else fs

def waitForEntry (fs : Fileset) (e : Entry) : Fileset :=
  fs.setFlags e fun f => { f with thrdWaitng := true }

def PickResult.entry? : PickResult → Option Entry
  | .entry e => some e
  | _ => none

/-- The thread waits on the condition variable of the idle count of `ty`. -/
def Thread.IdleWaiter (ty : FseType) (th : Thread) (w : Wait) : Prop :=
  th.wait = w ∧ ∃ args k, th.prog = .request (.pick args) k ∧ args.flags.type = ty

/-- The broadcast on `fs_thrd_wait_cv`. -/
def broadcast (thread : ℕ → Thread) : ℕ → Thread := fun t =>
  match (thread t).prog, (thread t).wait with
  | .request (.grab _ _) _, .blocked => { thread t with wait := .signalled }
  | _, _ => thread t

/-- A signal on the condition variable of an idle count wakes one of the blocked threads. -/
inductive SignalIdle (ty : FseType) (thread : ℕ → Thread) : (ℕ → Thread) → Prop where
  | nobody (h : ∀ t, ¬ (thread t).IdleWaiter ty .blocked) : SignalIdle ty thread thread
  | wake (t : ℕ) (h : (thread t).IdleWaiter ty .blocked) :
      SignalIdle ty thread (Function.update thread t { thread t with wait := .signalled })

def Signalled (sig : Signals) (thread thread' : ℕ → Thread) : Prop :=
  let thread := if sig.thrdWaitCv then broadcast thread else thread
  match sig.idleCv with
  | none => thread' = thread
  | some ty => SignalIdle ty thread thread'

/-- What a call does to the descriptors of the thread that makes it. -/
def Thread.called (th : Thread) (c : SysCall) (r : ℤ) : Thread :=
  { th with
    log := th.log ++ [(c, r)]
    openFd := match c with
      | .fbOpen fd e => if 0 ≤ r then Function.update th.openFd fd (some e) else th.openFd
      | .fbClose fd => Function.update th.openFd fd none
      | _ => th.openFd }

/-- Descriptors do not refer to the entry any more once its file was unlinked. -/
def unlinked (c : SysCall) (r : ℤ) (thread : ℕ → Thread) : ℕ → Thread :=
  match c with
  | .fbUnlink e =>
    if r = 0 then fun t =>
      { thread t with
        openFd := fun fd => if (thread t).openFd fd = some e then none else (thread t).openFd fd }
    else thread
  | _ => thread

inductive Label (ι : Type) where
  | start (i : ι)
  | call (c : SysCall) (r : ℤ)
  | step

/-- One step of the thread `t`. `code` are the programs that a thread may start. -/
inductive SysStep {ι : Type} (code : ι → Flow FlowopRet) (s : Sys) (t : ℕ) :
    Label ι → Sys → Prop where
  | start (i : ι) (r : FlowopRet) (hp : (s.thread t).prog = .pure r) :
      SysStep code s t (.start i) ⟨s.fs, Function.update s.thread t { s.thread t with
        prog := code i
        wait := .ready
        held := []
        leaked := (s.thread t).held ++ (s.thread t).leaked
        log := [] }⟩
  | pick (args : PickArgs) (k : Option Entry → Flow FlowopRet) (random : ℕ) (res : PickResult)
      (fs' : Fileset) (hp : (s.thread t).prog = .request (.pick args) k)
      (hw : (s.thread t).wait ≠ .blocked)
      (h : Returns (fun fuel => filesetPick fuel s.fs args.flags args.tid args.index random)
        (res, fs')) (hres : res ≠ .wait) :
      SysStep code s t .step ⟨fs', Function.update s.thread t { s.thread t with
        prog := k res.entry?
        wait := .ready
        held := res.entry?.toList ++ (s.thread t).held }⟩
  | pickWait (args : PickArgs) (k : Option Entry → Flow FlowopRet) (random : ℕ) (fs' : Fileset)
      (hp : (s.thread t).prog = .request (.pick args) k) (hw : (s.thread t).wait ≠ .blocked)
      (h : Returns (fun fuel => filesetPick fuel s.fs args.flags args.tid args.index random)
        (.wait, fs')) :
      SysStep code s t .step
        ⟨fs', Function.update s.thread t { s.thread t with wait := .blocked }⟩
  | grab (kind : Grab) (e : Entry) (k : Unit → Flow FlowopRet)
      (hp : (s.thread t).prog = .request (.grab kind e) k) (hw : (s.thread t).wait ≠ .blocked)
      (hb : (s.fs.flags e).busy = false) :
      SysStep code s t .step ⟨grabEntry kind s.fs e, Function.update s.thread t { s.thread t with
        prog := k ()
        wait := .ready
        held := e :: (s.thread t).held }⟩
  | grabWait (kind : Grab) (e : Entry) (k : Unit → Flow FlowopRet)
      (hp : (s.thread t).prog = .request (.grab kind e) k) (hw : (s.thread t).wait ≠ .blocked)
      (hb : (s.fs.flags e).busy = true) :
      SysStep code s t .step
        ⟨waitForEntry s.fs e, Function.update s.thread t { s.thread t with wait := .blocked }⟩
  | unbusy (e : Entry) (newExist : Option Bool) (openCntIncr : ℤ) (k : Unit → Flow FlowopRet)
      (fs' : Fileset) (sig : Signals) (thread' : ℕ → Thread)
      (hp : (s.thread t).prog = .request (.unbusy e newExist openCntIncr) k)
      (h : Returns (fun fuel => filesetUnbusy fuel s.fs e newExist openCntIncr) (fs', sig))
      (hsig : Signalled sig (Function.update s.thread t { s.thread t with
        prog := k ()
        wait := .ready
        held := (s.thread t).held.erase e }) thread') :
      SysStep code s t .step ⟨fs', thread'⟩
  | openCnt (e : Entry) (k : ℤ → Flow FlowopRet)
      (hp : (s.thread t).prog = .request (.openCnt e) k) :
      SysStep code s t .step ⟨s.fs, Function.update s.thread t { s.thread t with
        prog := k (s.fs.fse e).fseOpenCnt
        wait := .ready }⟩
  | call (c : SysCall) (r : ℤ) (k : ℤ → Flow FlowopRet)
      (hp : (s.thread t).prog = .request (.call c) k) :
      SysStep code s t (.call c r) ⟨s.fs, Function.update (unlinked c r s.thread) t
        { (unlinked c r s.thread t).called c r with
          prog := k r
          wait := .ready }⟩
  | get (k : Threadflow → Flow FlowopRet) (hp : (s.thread t).prog = .request .get k) :
      SysStep code s t .step ⟨s.fs, Function.update s.thread t { s.thread t with
        prog := k (s.thread t).tf
        wait := .ready }⟩
  | set (tf : Threadflow) (k : Unit → Flow FlowopRet)
      (hp : (s.thread t).prog = .request (.set tf) k) :
      SysStep code s t .step ⟨s.fs, Function.update s.thread t { s.thread t with
        prog := k ()
        wait := .ready
        tf := tf }⟩

/-- Runs whose steps all meet the condition `ok` on the state before the step. -/
def SysRun {ι : Type} (code : ι → Flow FlowopRet) (ok : Sys → ℕ → Label ι → Prop) :
    Sys → Sys → Prop :=
  Relation.ReflTransGen fun s s' => ∃ t l, ok s t l ∧ SysStep code s t l s'

/-- A thread before its first program. -/
def newThread (utid : ℕ) : Thread where
  prog := .pure .ok
  wait := .ready
  tf := ⟨utid, fun _ => 0, fun _ => none, 0⟩
  held := []
  leaked := []
  log := []
  openFd := fun _ => none

/-- A fileset with files that were created and are all closed and idle. -/
structure Created (fs : Fileset) : Prop where
  run : ∃ smp fuel n E L s, filesetPopulate smp fuel (newShm n) E L = some (.ok, s) ∧ FsRun s.fs fs
  idle : ∀ e ∈ fs.entries, (fs.flags e).busy = false
  closed : ∀ e ∈ fs.entries, (fs.fse e).fseOpenCnt = 0

/-- The start of a run, with thread ids as the threads get them. -/
structure Initial (s : Sys) : Prop where
  created : Created s.fs
  threads : ∀ t, s.thread t = newThread (t + 1)

end Filebench
