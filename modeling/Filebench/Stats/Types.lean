import Filebench.Flowop.Abort
import Filebench.Flowop.Runtime
import Mathlib.Data.BitVec

/-! # Statistics

Every flowop counts its own operations. A snapshot adds the counters of the workers to those of
their type, to the global ones and to those of the flowop of the script that they come from. What
the counters count with is left open where only sums matter. -/
namespace Filebench

inductive FlowType where
  | global
  | io
  | aio
  | sync
  | composite
  | other
  deriving DecidableEq, Repr

instance : Fintype FlowType where
  elems := {.global, .io, .aio, .sync, .composite, .other}
  complete t := by cases t <;> decide

def FlowType.code : FlowType → BitVec 32
  | .global => 0
  | .io => 1
  | .aio => 2
  | .sync => 3
  | .composite => 4
  | .other => 5

def flowAttrRead : BitVec 32 := 0x80
def flowAttrWrite : BitVec 32 := 0x100

inductive Mstate where
  | lat
  | cpu
  | wait
  | ohead
  deriving DecidableEq, Repr

/-- The members of `flowstat_t` that are added up. -/
inductive Counter where
  | count
  | rcount
  | wcount
  | bytes
  | rbytes
  | wbytes
  | mstate (i : Mstate)
  deriving DecidableEq, Repr

abbrev Counter.width : Counter → ℕ
  | .count => 32
  | _ => 64

abbrev Word (c : Counter) := BitVec c.width

structure Flowstat (V : Counter → Type) where
  fsChildren : BitVec 32
  fsActive : BitVec 32
  counter : (c : Counter) → V c

/-- No flowop has the type of the global statistics. -/
structure StatFlowop where
  foName : CString
  foInstance : ℤ
  foType : FlowType
  foAttrs : BitVec 32
  typed : foType ≠ .global

def flowDefinition : ℤ := 0

/-- A flowop that runs, neither a definition nor one of the script. -/
def StatFlowop.Worker (f : StatFlowop) : Prop := flowDefinition < f.foInstance

def StatFlowop.Master (f : StatFlowop) : Prop := f.foInstance = flowMaster

instance StatFlowop.decidableWorker (f : StatFlowop) : Decidable f.Worker :=
  inferInstanceAs (Decidable (_ < _))

instance StatFlowop.decidableMaster (f : StatFlowop) : Decidable f.Master :=
  inferInstanceAs (Decidable (_ = _))

theorem StatFlowop.Master.not_worker {f : StatFlowop} (h : f.Master) : ¬ f.Worker := by
  rw [StatFlowop.Worker, h]
  decide

/-- The flowops with their statistics and the global ones, which are there from the first
`stats_clear` on. -/
structure StatsShm (V : Counter → Type) (ι : Type) where
  flowop : ι → StatFlowop
  foStats : ι → Flowstat V
  shmFlowoplist : List ι
  shmFAbort : FAbort
  globalstats : Option (FlowType → Flowstat V)

section

variable {V : Counter → Type} {ι : Type} [∀ c, AddMonoid (V c)]

def statsAdd (a b : Flowstat V) : Flowstat V :=
  { a with counter := fun c => a.counter c + b.counter c }

def Flowstat.zero : Flowstat V := ⟨0, 0, fun _ => 0⟩

/-! ## The commands -/

def StatsShm.flowopFindOne (s : StatsShm V ι) (name : CString) (inst : ℤ) : Option ι :=
  s.shmFlowoplist.find? fun f => (s.flowop f).foName = name ∧ (s.flowop f).foInstance = inst

def StatsShm.addGlobal (s : StatsShm V ι) (t : FlowType) (b : Flowstat V) :
    StatsShm V ι :=
  { s with globalstats := s.globalstats.map fun gs => Function.update gs t (statsAdd (gs t) b) }

variable [DecidableEq ι]

def StatsShm.setFoStats (s : StatsShm V ι) (f : ι) (st : Flowstat V) : StatsShm V ι :=
  { s with foStats := Function.update s.foStats f st }

/-- `IS_FLOW_ACTIVE` -/
def Flowstat.active [DecidableEq (V .count)] (st : Flowstat V) : BitVec 32 :=
  if st.counter .count = 0 then 0 else 1

/-- The statistics of a flowop rolled into those of its master. -/
def rollMaster [DecidableEq (V .count)] (master b : Flowstat V) : Flowstat V :=
  statsAdd { master with
    fsActive := master.fsActive + b.active
    fsChildren := master.fsChildren + 1 } b

/-- One pass of the loop of `stats_snap`. -/
def snapFlowop [DecidableEq (V .count)] (s : StatsShm V ι) (f : ι) : StatsShm V ι :=
  if (s.flowop f).foInstance ≤ flowDefinition then s
  else
    let flowopMaster := s.flowopFindOne (s.flowop f).foName flowMaster
    let s := s.addGlobal (s.flowop f).foType (s.foStats f)
    let s := s.addGlobal .global (s.foStats f)
    match flowopMaster with
    | some m => s.setFoStats m (rollMaster (s.foStats m) (s.foStats f))
    | none => s

/-- No snapshot is taken before the first `stats_clear` and after a run that ended in error. -/
def StatsShm.Refused (s : StatsShm V ι) : Prop := s.globalstats = none ∨ s.shmFAbort = .error

instance (s : StatsShm V ι) : Decidable s.Refused := by
  unfold StatsShm.Refused
  cases s.globalstats <;> infer_instance

def statsSnap [DecidableEq (V .count)] (s : StatsShm V ι) : StatsShm V ι :=
  if s.Refused then s else s.shmFlowoplist.foldl snapFlowop s

def statsClear (s : StatsShm V ι) : StatsShm V ι :=
  { s with
    globalstats := some fun _ => .zero
    foStats := fun f => if f ∈ s.shmFlowoplist then .zero else s.foStats f }

end

/-! ## The end of an operation -/

/-- What `flowop_endop` measures: the latency and, where the system tells, the time on the
processor and the time waited. -/
structure OpTimes where
  lat : BitVec 64
  usage : Option (BitVec 64 × BitVec 64)

/-- The statistics of the flowop, of its thread and of the process. -/
structure OpStats where
  fo : Flowstat Word
  tf : Flowstat Word
  control : Flowstat Word

def Flowstat.add {V : Counter → Type} [∀ c, Add (V c)] (st : Flowstat V) (c : Counter) (v : V c) :
    Flowstat V :=
  { st with counter := Function.update st.counter c (st.counter c + v) }

def Flowstat.addTimes (st : Flowstat Word) (times : OpTimes) : Flowstat Word :=
  let st := st.add (.mstate .lat) times.lat
  match times.usage with
  | some (cpu, wait) => (st.add (.mstate .cpu) cpu).add (.mstate .wait) wait
  | none => st

/-- The tests of `flowop_endop` on the type and on the attributes. -/
def StatFlowop.counted (f : StatFlowop) : Bool :=
  f.foType.code &&& FlowType.io.code ≠ 0 || f.foType.code &&& FlowType.aio.code ≠ 0

def StatFlowop.reads (f : StatFlowop) : Bool := f.foAttrs &&& flowAttrRead ≠ 0
def StatFlowop.writes (f : StatFlowop) : Bool := f.foAttrs &&& flowAttrWrite ≠ 0

/-- The bytes read or written are not added to those of the flowop. -/
def flowopEndop (f : StatFlowop) (bytes : BitVec 64) (times : OpTimes) (s : OpStats) : OpStats :=
  let s := { s with fo := ((s.fo.addTimes times).add .count 1).add .bytes bytes }
  let s := if f.counted then { s with control := (s.control.add .count 1).add .bytes bytes } else s
  if f.reads then
    { fo := s.fo.add .rcount 1
      tf := (s.tf.add .rbytes bytes).add .rcount 1
      control := (s.control.add .rbytes bytes).add .rcount 1 }
  else if f.writes then
    { fo := s.fo.add .wcount 1
      tf := (s.tf.add .wbytes bytes).add .wcount 1
      control := (s.control.add .wbytes bytes).add .wcount 1 }
  else s

/-! ## Sequences of calls -/

/-- The statistics with those of the threads and those that each process keeps of itself. -/
structure StatsState (ι τ π : Type) where
  shm : StatsShm Word ι
  tfStats : τ → Flowstat Word
  controlstats : π → Flowstat Word

structure EndopCall (ι τ π : Type) where
  proc : π
  threadflow : τ
  flowop : ι
  bytes : BitVec 64
  times : OpTimes

inductive StatsEvent (ι τ π : Type) where
  | endop (call : EndopCall ι τ π)
  | clear
  | snap

section

variable {ι τ π : Type} [DecidableEq ι] [DecidableEq τ] [DecidableEq π]

def StatsState.opStats (s : StatsState ι τ π) (call : EndopCall ι τ π) : OpStats :=
  flowopEndop (s.shm.flowop call.flowop) call.bytes call.times
    ⟨s.shm.foStats call.flowop, s.tfStats call.threadflow, s.controlstats call.proc⟩

def StatsState.endop (s : StatsState ι τ π) (call : EndopCall ι τ π) : StatsState ι τ π where
  shm := s.shm.setFoStats call.flowop (s.opStats call).fo
  tfStats := Function.update s.tfStats call.threadflow (s.opStats call).tf
  controlstats := Function.update s.controlstats call.proc (s.opStats call).control

/-- Only workers run. -/
def StatsState.next (s : StatsState ι τ π) : StatsEvent ι τ π → Option (StatsState ι τ π)
  | .endop call => if (s.shm.flowop call.flowop).Worker then some (s.endop call) else none
  | .clear => some { s with shm := statsClear s.shm }
  | .snap => some { s with shm := statsSnap s.shm }

end

/-- Zeroed statistics. -/
structure StatsStart {ι τ π : Type} (s : StatsState ι τ π) : Prop where
  foStats : ∀ f, s.shm.foStats f = .zero
  tfStats : ∀ t, s.tfStats t = .zero
  controlstats : ∀ p, s.controlstats p = .zero
  globalstats : s.shm.globalstats = none

end Filebench
