import Filebench.Ipc.Pool
import Filebench.Lib.CString
import Filebench.Lib.Linked
import Filebench.Vars.Types

/-! # Flowops in shared memory

A thread starts with the list of flowops that the script defined and replaces it by copies of its
own, those of the inner flowops of composites included. All flowops are on one global list. -/
namespace Filebench

open Linked

abbrev ThreadPtr := ℕ
abbrev FilesetPtr := ℕ

/-- `fo_func`, `fo_init` and `fo_destruct` come from the library of flowops or are those of a
composite. -/
inductive FlowopMethods where
  | library
  | composite
  deriving DecidableEq, Repr

def flowMaster : ℤ := -2

/-- `A` are the attributes. -/
structure ShmFlowop (A : Type) (n : ℕ) where
  foName : CString
  foInstance : ℤ
  foMethods : FlowopMethods
  foAttrs : A
  foThread : Option ThreadPtr
  foFileset : Option FilesetPtr
  foConstvalue : FbInt
  foConstwss : FbInt
  foNext : Option (Fin n)
  foExecNext : Option (Fin n)
  foCompFops : Option (Fin n)

/-- A flowop without the links of lists of flowops. -/
def ShmFlowop.unlinked {A : Type} {n : ℕ} (f : ShmFlowop A n) : ShmFlowop A n :=
  { f with foExecNext := none, foCompFops := none }

structure FlowopShm (A : Type) (n : ℕ) where
  flowop : Fin n → ShmFlowop A n
  pool : Pool n
  shmFlowoplist : Option (Fin n)
  tfThrdFops : ThreadPtr → Option (Fin n)
  tfRunning : ThreadPtr → Bool

/-- A pointer to the head of a list of flowops: `tf_thrd_fops` or `fo_comp_fops`. -/
inductive FlowopList (n : ℕ) where
  | thread (t : ThreadPtr)
  | inner (p : Fin n)

theorem FlowopList.inner_ne_thread {n : ℕ} (p : Fin n) (t : ThreadPtr) :
    FlowopList.inner p ≠ .thread t := nofun

/-- What the attributes evaluate to. A name that is not there is the null pointer, the value of a
flowop is not looked at when it is a string, and random attributes can give every flowop another
value. `init` tells which of the library's initializations succeed. -/
structure FlowopEnv (A : Type) (n : ℕ) where
  filename : A → Option (Option CString)
  filesetFind : Option CString → Option FilesetPtr
  constvalue : Fin n → A → Option FbInt
  constwss : Fin n → A → FbInt
  init : Fin n → Bool

section memory

variable {A : Type} {n : ℕ} (s : FlowopShm A n)

def FlowopShm.next : Fin n → Option (Fin n) := fun p => (s.flowop p).foNext
def FlowopShm.execNext : Fin n → Option (Fin n) := fun p => (s.flowop p).foExecNext
def FlowopShm.compFops : Fin n → Option (Fin n) := fun p => (s.flowop p).foCompFops

def FlowopShm.modify (p : Fin n) (f : ShmFlowop A n → ShmFlowop A n) : FlowopShm A n :=
  { s with flowop := Function.update s.flowop p (f (s.flowop p)) }

def FlowopShm.hd : FlowopList n → Option (Fin n)
  | .thread t => s.tfThrdFops t
  | .inner p => s.compFops p

def FlowopShm.setHd (hdp : FlowopList n) (o : Option (Fin n)) : FlowopShm A n :=
  match hdp with
  | .thread t => { s with tfThrdFops := Function.update s.tfThrdFops t o }
  | .inner p => s.modify p fun f => { f with foCompFops := o }

def FlowopShm.setExecNext (p : Fin n) (o : Option (Fin n)) : FlowopShm A n :=
  s.modify p fun f => { f with foExecNext := o }

/-- Writes a new flowop at the head of the global list. -/
def FlowopShm.push (p : Fin n) (f : ShmFlowop A n) : FlowopShm A n :=
  { s with
    flowop := Function.update s.flowop p { f with foNext := s.shmFlowoplist }
    shmFlowoplist := some p }

/-- A flowop comes to the end of a list. -/
def FlowopShm.append (hdp : FlowopList n) (p : Fin n) : Option (FlowopShm A n) :=
  match s.hd hdp with
  | none => some (s.setHd hdp (some p))
  | some a => do
    let flowend ← endOf s.execNext n a
    some (s.setExecNext flowend (some p))

/-! ### Single writes -/

theorem FlowopShm.modify_flowop (p r : Fin n) (f : ShmFlowop A n → ShmFlowop A n) :
    (s.modify p f).flowop r = if r = p then f (s.flowop r) else s.flowop r := by
  change Function.update s.flowop p (f (s.flowop p)) r = _
  rw [Function.update_apply]
  split
  next h => rw [h]
  next => rfl

/-- A write that leaves a field alone. -/
theorem FlowopShm.modify_keeps {X : Type} (p : Fin n) (f : ShmFlowop A n → ShmFlowop A n)
    (g : ShmFlowop A n → X) (h : ∀ x, g (f x) = g x) (r : Fin n) :
    g ((s.modify p f).flowop r) = g (s.flowop r) := by
  rw [FlowopShm.modify_flowop]
  split
  next => exact h _
  next => rfl

theorem FlowopShm.setExecNext_execNext (p : Fin n) (o : Option (Fin n)) :
    (s.setExecNext p o).execNext = Function.update s.execNext p o := by
  funext r
  rw [FlowopShm.execNext, FlowopShm.setExecNext, FlowopShm.modify_flowop, Function.update_apply]
  split <;> rfl

theorem FlowopShm.setExecNext_keeps {X : Type} (p : Fin n) (o : Option (Fin n))
    (g : ShmFlowop A n → X) (h : ∀ x, g { x with foExecNext := o } = g x) (r : Fin n) :
    g ((s.setExecNext p o).flowop r) = g (s.flowop r) := s.modify_keeps p _ g h r

@[simp] theorem FlowopShm.setExecNext_hd (p : Fin n) (o : Option (Fin n)) (hdp : FlowopList n) :
    (s.setExecNext p o).hd hdp = s.hd hdp := by
  cases hdp with
  | thread t => rfl
  | inner q => exact s.setExecNext_keeps p o (·.foCompFops) (fun _ => rfl) q

@[simp] theorem FlowopShm.setExecNext_next (p : Fin n) (o : Option (Fin n)) :
    (s.setExecNext p o).next = s.next := funext (s.setExecNext_keeps p o (·.foNext) fun _ => rfl)

@[simp] theorem FlowopShm.setHd_hd (hdp : FlowopList n) (o : Option (Fin n)) :
    (s.setHd hdp o).hd hdp = o := by
  cases hdp with
  | thread t => exact Function.update_self ..
  | inner q =>
    rw [FlowopShm.hd, FlowopShm.compFops, FlowopShm.setHd, FlowopShm.modify_flowop, if_pos rfl]

theorem FlowopShm.setHd_compFops {hdp : FlowopList n} {r : Fin n} (h : hdp ≠ .inner r)
    (o : Option (Fin n)) : (s.setHd hdp o).compFops r = s.compFops r := by
  cases hdp with
  | thread t => rfl
  | inner q =>
    have hrq : r ≠ q := by
      rintro rfl
      exact h rfl
    rw [FlowopShm.compFops, FlowopShm.setHd, FlowopShm.modify_flowop, if_neg hrq]
    rfl

theorem FlowopShm.setHd_tfThrdFops {hdp : FlowopList n} {t : ThreadPtr} (h : hdp ≠ .thread t)
    (o : Option (Fin n)) : (s.setHd hdp o).tfThrdFops t = s.tfThrdFops t := by
  cases hdp with
  | thread t' =>
    have htt : t ≠ t' := by
      rintro rfl
      exact h rfl
    exact Function.update_of_ne htt ..
  | inner q => rfl

@[simp] theorem FlowopShm.setHd_pool (hdp : FlowopList n) (o : Option (Fin n)) :
    (s.setHd hdp o).pool = s.pool := by cases hdp <;> rfl

@[simp] theorem FlowopShm.setHd_shmFlowoplist (hdp : FlowopList n) (o : Option (Fin n)) :
    (s.setHd hdp o).shmFlowoplist = s.shmFlowoplist := by cases hdp <;> rfl

theorem FlowopShm.setHd_keeps {X : Type} (hdp : FlowopList n) (o : Option (Fin n))
    (g : ShmFlowop A n → X) (h : ∀ x, g { x with foCompFops := o } = g x) (r : Fin n) :
    g ((s.setHd hdp o).flowop r) = g (s.flowop r) := by
  cases hdp with
  | thread t => rfl
  | inner q => exact s.modify_keeps q _ g h r

@[simp] theorem FlowopShm.setHd_next (hdp : FlowopList n) (o : Option (Fin n)) :
    (s.setHd hdp o).next = s.next := funext (s.setHd_keeps hdp o (·.foNext) fun _ => rfl)

@[simp] theorem FlowopShm.setHd_execNext (hdp : FlowopList n) (o : Option (Fin n)) :
    (s.setHd hdp o).execNext = s.execNext := funext (s.setHd_keeps hdp o (·.foExecNext) fun _ => rfl)

end memory

/-! ## Creation -/

inductive CreateRet where
  | ok
  | error
  | shutdown
  deriving DecidableEq, Repr

section create

variable {A : Type} {n : ℕ} (env : FlowopEnv A n)

/-- `flowop_define_common` with a flowop to inherit from. -/
def flowopDefineCommon (threadflow : Option ThreadPtr) (name : CString) (inherit : Fin n)
    (hdp : FlowopList n) (inst : ℤ) (s : FlowopShm A n) :
    Option (Option (Fin n) × FlowopShm A n) :=
  match s.pool.ipcMalloc with
  | (none, pool) => some (none, { s with pool := pool })
  | (some p, pool) => do
    let s := { s with pool := pool }.push p
      { s.flowop inherit with
        foExecNext := none
        foThread := threadflow
        foName := name
        foInstance := inst }
    let s ← s.append hdp p
    some (some p, s)

/-- The inner flowops are still those of the prototype. -/
def flowopCompositeInit
    (create : Option ThreadPtr → FlowopList n → FlowopShm A n →
      Option (CreateRet × FlowopShm A n))
    (flowop : Fin n) (s : FlowopShm A n) : Option (CreateRet × FlowopShm A n) :=
  create (s.flowop flowop).foThread (.inner flowop) s

def flowopInitflow
    (create : Option ThreadPtr → FlowopList n → FlowopShm A n →
      Option (CreateRet × FlowopShm A n))
    (flowop : Fin n) (s : FlowopShm A n) : Option (CreateRet × FlowopShm A n) :=
  let s := s.modify flowop fun f =>
    { f with
      foConstvalue := (env.constvalue flowop f.foAttrs).getD f.foConstvalue
      foConstwss := env.constwss flowop f.foAttrs }
  match (s.flowop flowop).foMethods with
  | .composite => flowopCompositeInit create flowop s
  | .library => some (if env.init flowop then .ok else .error, s)

/-- The file of a flowop by its name. There is none when the file is missing. -/
def attachFileset (a : A) (p : Fin n) (s : FlowopShm A n) : Option (FlowopShm A n) :=
  match env.filename a with
  | none => some s
  | some name =>
    (env.filesetFind name).map fun fileset =>
      s.modify p fun f => { f with foFileset := some fileset }

/-- The loop over the prototypes. A missing file shuts the program down, a failed initialization
is only logged. -/
def createLoop : ℕ → Option ThreadPtr → FlowopList n → Option (Fin n) → FlowopShm A n →
    Option (CreateRet × FlowopShm A n)
  | _, _, _, none, s => some (.ok, s)
  | 0, _, _, some _, _ => none
  | fuel + 1, threadflow, hdp, some flowop, s => do
    let s := if s.hd hdp = some flowop then s.setHd hdp none else s
    match ← flowopDefineCommon threadflow (s.flowop flowop).foName flowop hdp 1 s with
    | (none, s) => some (.error, s)
    | (some p, s) =>
      match attachFileset env (s.flowop flowop).foAttrs p s with
      | none => some (.shutdown, s)
      | some s =>
        match ← flowopInitflow env
          (fun threadflow hdp s => createLoop fuel threadflow hdp (s.hd hdp) s) p s with
        | (.shutdown, s) => some (.shutdown, s)
        | (_, s) => createLoop fuel threadflow hdp (s.flowop flowop).foExecNext s

def flowopCreateRuntimeFlowops (fuel : ℕ) (threadflow : Option ThreadPtr) (opsListPtr : FlowopList n)
    (s : FlowopShm A n) : Option (CreateRet × FlowopShm A n) :=
  createLoop env fuel threadflow opsListPtr (s.hd opsListPtr) s

end create

end Filebench
