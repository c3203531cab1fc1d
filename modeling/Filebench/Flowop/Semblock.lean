import Filebench.Lib.Semset
import Filebench.Lib.Trace
import Filebench.Lib.Owners

/-! # Semaphores of flowops

A semblock flowop has two semaphores of the one set that all processes share. The table of those in
use is searched under the lock of the flowop list, and entries of it are given back without that
lock, so that a search sees the table change. -/
namespace Filebench

/-- `FILEBENCH_NSEMS` -/
def filebenchNsems : ℕ := 128

/-- `(short)value` -/
def semShort (value : ℤ) : ℤ := value.bmod (2 ^ 16)

inductive SemKind where
  | lw
  | hw
  deriving DecidableEq

/-- Where a semblock flowop is in its life, down to the reads of the table. -/
inductive SemPhase where
  | defined
  | scan (k : SemKind) (semid : ℕ)
  | found (k : SemKind) (semid : ℕ)
  | alloced
  | ready
  | hwPost (value : ℤ)
  | lwWait (value : ℤ)
  | destructing
  | ended
  | shutdown (k : SemKind)
  deriving DecidableEq

structure SemState (τ : Type) where
  shmSemids : ℕ → Bool
  semval : ℕ → ℕ
  foSemid : τ → SemKind → ℕ
  phase : τ → SemPhase
  /-- The flowop that is set up under `shm_flowop_lock`. -/
  builder : Option τ

inductive SemEvent (τ : Type) where
  | init (f : τ)
  | read (f : τ)
  | store (f : τ)
  | highwater (f : τ) (highwater : ℤ)
  | highwaterFails (f : τ) (highwater : ℤ)
  | call (f : τ) (value : ℤ)
  | post (f : τ)
  | postFails (f : τ)
  | wait (f : τ)
  | waitFails (f : τ)
  | sempost (target : τ) (value : ℤ) (blocking : Bool)
  | destructLw (f : τ)
  | destructHw (f : τ)

/-- The parts that do not change: what semaphores the system has, and the values of the flowops. -/
structure SemEnv (τ : Type) where
  semvmx : ℕ
  foConstvalue : τ → ℤ

def SemEnv.lim {τ : Type} (env : SemEnv τ) : SemLimits := ⟨filebenchNsems, env.semvmx⟩

variable {τ : Type} [DecidableEq τ]

namespace SemState

def setPhase (s : SemState τ) (f : τ) (p : SemPhase) : SemState τ :=
  { s with phase := Function.update s.phase f p }

/-- The semaphore that the first post of the highwater goes to. -/
def highwaterNum (env : SemEnv τ) (s : SemState τ) (f : τ) : ℕ :=
  if s.foSemid f .hw = 0 then ((env.foConstvalue f) % 2 ^ 16).toNat else s.foSemid f .hw

def highwaterOps (env : SemEnv τ) (s : SemState τ) (f : τ) (highwater : ℤ) : List Sembuf :=
  [⟨s.highwaterNum env f, semShort highwater⟩]

def postOps (s : SemState τ) (f : τ) (value : ℤ) : List Sembuf :=
  [⟨s.foSemid f .hw, semShort value⟩]

def waitOps (s : SemState τ) (f : τ) (value : ℤ) : List Sembuf :=
  [⟨s.foSemid f .lw, semShort (-value)⟩]

/-- `semop(sys_semid, &sbuf[0], blocking + 1)` -/
def sempostOps (s : SemState τ) (target : τ) (value : ℤ) (blocking : Bool) : List Sembuf :=
  if blocking then
    [⟨s.foSemid target .lw, semShort value⟩, ⟨s.foSemid target .hw, semShort (-value)⟩]
  else [⟨s.foSemid target .lw, semShort value⟩]

/-- The entry is marked, and the search for the other semaphore begins or is over. -/
def take (s : SemState τ) (f : τ) (k : SemKind) (semid : ℕ) : SemState τ :=
  { s with
    shmSemids := Function.update s.shmSemids semid true
    foSemid := Function.update s.foSemid f (Function.update (s.foSemid f) k semid)
    phase := Function.update s.phase f (if k = .lw then .scan .hw 0 else .alloced) }

def give (s : SemState τ) (f : τ) (k : SemKind) : SemState τ :=
  { s with
    shmSemids := Function.update s.shmSemids (s.foSemid f k) false
    phase := Function.update s.phase f (if k = .lw then .destructing else .ended) }

end SemState

/-- The flowop has its record filled in, and other flowops can find it. -/
def SemPhase.Targeted : SemPhase → Bool
  | .ready | .hwPost _ | .lwWait _ | .destructing | .ended => true
  | _ => false

def semNext (env : SemEnv τ) (s : SemState τ) : SemEvent τ → Option (SemState τ)
  | .init f =>
    if s.phase f = .defined ∧ s.builder = none then
      some { s.setPhase f (.scan .lw 0) with builder := some f }
    else none
  | .read f =>
    match s.phase f with
    | .scan k semid =>
      if semid = filebenchNsems then some { s.setPhase f (.shutdown k) with builder := none }
      else some (s.setPhase f (if s.shmSemids semid then .scan k (semid + 1) else .found k semid))
    | _ => none
  | .store f =>
    match s.phase f with
    | .found k semid => some (s.take f k semid)
    | _ => none
  | .highwater f highwater =>
    if s.phase f = .alloced then
      (semop env.lim (s.highwaterOps env f highwater) s.semval).value.map fun semval =>
        { s.setPhase f .ready with semval := semval, builder := none }
    else none
  | .highwaterFails f highwater =>
    -- the init that fails is only logged
    if s.phase f = .alloced ∧
        (semop env.lim (s.highwaterOps env f highwater) s.semval).failed = true then
      some { s.setPhase f .ready with builder := none }
    else none
  | .call f value =>
    if s.phase f = .ready then some (s.setPhase f (.hwPost value)) else none
  | .post f =>
    match s.phase f with
    | .hwPost value =>
      (semop env.lim (s.postOps f value) s.semval).value.map fun semval =>
        { s.setPhase f (.lwWait value) with semval := semval }
    | _ => none
  | .postFails f =>
    match s.phase f with
    | .hwPost value =>
      if (semop env.lim (s.postOps f value) s.semval).failed then
        some (s.setPhase f (.lwWait value))
      else none
    | _ => none
  | .wait f =>
    match s.phase f with
    | .lwWait value =>
      (semop env.lim (s.waitOps f value) s.semval).value.map fun semval =>
        { s.setPhase f .ready with semval := semval }
    | _ => none
  | .waitFails f =>
    match s.phase f with
    | .lwWait value =>
      if (semop env.lim (s.waitOps f value) s.semval).failed then some (s.setPhase f .ready)
      else none
    | _ => none
  | .sempost target value blocking =>
    if (s.phase target).Targeted then
      (semop env.lim (s.sempostOps target value blocking) s.semval).value.map fun semval =>
        { s with semval := semval }
    else none
  | .destructLw f => if s.phase f = .ready then some (s.give f .lw) else none
  | .destructHw f => if s.phase f = .destructing then some (s.give f .hw) else none

/-- No flowop runs and no semaphore is taken. The values are what earlier runs left. -/
structure SemStart (s : SemState τ) : Prop where
  shmSemids : ∀ i, s.shmSemids i = false
  phase : ∀ f, s.phase f = .defined
  builder : s.builder = none

abbrev SemRun (env : SemEnv τ) : List (SemState τ × SemEvent τ) → SemState τ → Prop :=
  Trace.Run (semNext env) SemStart

end Filebench
