import Filebench.Flowop.Library
import Filebench.Procflow.Locks

/-! # Thread ids

Every thread that is defined gets the next id of the session, in the script as well as in each of
its runs. An open in rotation passes the id on as the index of a rotor of the fileset, of which
there are `FSE_MAXTID`. -/
namespace Filebench

open Linked Prog

variable {α β A : Type} {n m k : ℕ}

/-- Shared memory, with `shm_utid` and the `tf_utid` of every thread. -/
structure UtidShm (α β A : Type) (n m k : ℕ) where
  work : WorkShm α β A n m k
  shmUtid : ℕ
  tfUtid : Fin m → ℕ

/-- The arguments of `threadflow_define_common`. -/
structure ThreadDefinition (β : Type) (n m : ℕ) where
  procflow : Fin n
  name : Option CString
  inherit : Option (Fin m)
  zero : β
  inst : ℤ

/-- `INT_MAX` -/
def intMax : ℕ := 2 ^ 31 - 1

/-- `threadflow_define_common` with the id, which is an `int`. -/
def UtidShm.threadflowDefine (s : UtidShm α β A n m k) (d : ThreadDefinition β n m) :
    Option (Option (Fin m) × UtidShm α β A n m k) :=
  match threadflowDefineAny d.procflow d.name d.inherit d.zero d.inst s.work with
  | none => none
  | some (none, work) => some (none, { s with work := work })
  | some (some t, work) =>
    if s.shmUtid < intMax then
      some (some t, ⟨work, s.shmUtid + 1, Function.update s.tfUtid t (s.shmUtid + 1)⟩)
    else none

/-- A definition of a thread by the script or of an instance by a run; and what else happens in
shared memory, which never concerns the ids. -/
inductive UtidEvent (α β A : Type) (n m k : ℕ) where
  | define (d : ThreadDefinition β n m)
  | other (work : WorkShm α β A n m k)

def UtidShm.next (s : UtidShm α β A n m k) : UtidEvent α β A n m k → Option (UtidShm α β A n m k)
  | .define d => (s.threadflowDefine d).map Prod.snd
  | .other work => some { s with work := work }

/-- The thread that an event defines. -/
def UtidShm.defined (s : UtidShm α β A n m k) : UtidEvent α β A n m k → Option (Fin m)
  | .define d => (s.threadflowDefine d).bind Prod.fst
  | .other _ => none

/-- Shared memory as it was cleared. -/
structure UtidStart (s : UtidShm α β A n m k) : Prop where
  shmUtid : s.shmUtid = 0
  tfUtid : ∀ t, s.tfUtid t = 0

abbrev UtidRun : List (UtidShm α β A n m k × UtidEvent α β A n m k) → UtidShm α β A n m k → Prop :=
  Trace.Run UtidShm.next UtidStart

/-- How many threads a session has defined. -/
def threadsDefined (trace : List (UtidShm α β A n m k × UtidEvent α β A n m k)) : ℕ :=
  trace.countP fun x => (x.1.defined x.2).isSome

/-- The place of a thread among all that were defined, by its last definition. -/
def threadNumber : List (UtidShm α β A n m k × UtidEvent α β A n m k) → Fin m → ℕ
  | [], _ => 0
  | x :: trace, t =>
    if x.1.defined x.2 = some t then threadsDefined (x :: trace) else threadNumber trace t

/-- A thread with this id passes only indexes of rotors. -/
def rotorIndexes (utid : ℕ) : Protocol Request Reply Unit where
  allow _ o :=
    match o with
    | .pick args => args.flags = ⟨.file, false, false, false⟩ → args.tid < fseMaxtid
    | _ => True
  next _ o r _ :=
    match o, r with
    | .get, tf => Threadflow.tfUtid tf = utid
    | _, _ => True

/-! ## The ids of a session -/

structure UtidInv (trace : List (UtidShm α β A n m k × UtidEvent α β A n m k))
    (s : UtidShm α β A n m k) : Prop where
  shmUtid : s.shmUtid = threadsDefined trace
  tfUtid : s.tfUtid = threadNumber trace

section

variable {trace : List (UtidShm α β A n m k × UtidEvent α β A n m k)} {s s' : UtidShm α β A n m k}
  {e : UtidEvent α β A n m k} {t : Fin m}

theorem threadsDefined_none (h : s.defined e = none) :
    threadsDefined ((s, e) :: trace) = threadsDefined trace := by
  simp [threadsDefined, h]

theorem threadsDefined_some (h : s.defined e = some t) :
    threadsDefined ((s, e) :: trace) = threadsDefined trace + 1 := by
  simp [threadsDefined, h]

theorem threadNumber_none (h : s.defined e = none) :
    threadNumber ((s, e) :: trace) = threadNumber trace := by
  funext u
  simp [threadNumber, h]

theorem threadNumber_some (h : s.defined e = some t) : threadNumber ((s, e) :: trace) =
    Function.update (threadNumber trace) t (threadsDefined trace + 1) := by
  funext u
  by_cases hu : u = t
  · rw [hu, Function.update_self, threadNumber, if_pos h, threadsDefined_some h]
  · have hne : s.defined e ≠ some u := by
      rw [h]
      exact fun heq => hu (Option.some.inj heq).symm
    rw [Function.update_of_ne hu, threadNumber, if_neg hne]

theorem UtidShm.next_cases (h : s.next e = some s') :
    (s.defined e = none ∧ s'.shmUtid = s.shmUtid ∧ s'.tfUtid = s.tfUtid) ∨
    ∃ t, s.defined e = some t ∧ s'.shmUtid = s.shmUtid + 1 ∧
      s'.tfUtid = Function.update s.tfUtid t (s.shmUtid + 1) := by
  cases e with
  | other work =>
    obtain rfl := Option.some.inj h
    exact .inl ⟨rfl, rfl, rfl⟩
  | define d =>
    obtain ⟨⟨r, s₁⟩, hdef, rfl⟩ := Option.map_eq_some_iff.mp h
    have hdefined : s.defined (.define d) = r := by
      rw [UtidShm.defined, hdef, Option.bind_some]
    rw [UtidShm.threadflowDefine] at hdef
    split at hdef
    next => cases hdef
    next work _ =>
      obtain ⟨rfl, rfl⟩ := Prod.mk.inj (Option.some.inj hdef)
      exact .inl ⟨hdefined, rfl, rfl⟩
    next t work _ =>
      obtain ⟨-, hdef⟩ := Option.ite_none_right_eq_some.mp hdef
      obtain ⟨rfl, rfl⟩ := Prod.mk.inj (Option.some.inj hdef)
      exact .inr ⟨t, hdefined, rfl, rfl⟩

theorem UtidInv.step (h : UtidInv trace s) (hnext : s.next e = some s') :
    UtidInv ((s, e) :: trace) s' := by
  rcases UtidShm.next_cases hnext with ⟨hnone, hutid, htf⟩ | ⟨t, hsome, hutid, htf⟩
  · exact ⟨by rw [hutid, h.shmUtid, threadsDefined_none hnone],
      by rw [htf, h.tfUtid, threadNumber_none hnone]⟩
  · exact ⟨by rw [hutid, h.shmUtid, threadsDefined_some hsome],
      by rw [htf, h.tfUtid, h.shmUtid, threadNumber_some hsome]⟩

theorem UtidRun.inv (h : UtidRun trace s) : UtidInv trace s :=
  h.invariant (P := fun _ _ => True) (fun _ _ => trivial)
    (fun _ hs => ⟨hs.shmUtid, funext hs.tfUtid⟩) fun _ _ _ _ hI _ hnext => hI.step hnext

theorem threadNumber_le (trace : List (UtidShm α β A n m k × UtidEvent α β A n m k)) (t : Fin m) :
    threadNumber trace t ≤ threadsDefined trace := by
  induction trace with
  | nil => exact le_rfl
  | cons x trace ih =>
    rw [threadNumber]
    split_ifs
    · exact le_rfl
    · exact ih.trans ((List.sublist_cons_self x trace).countP_le)

end

/-! ## The index that an open passes on -/

section

variable {utid : ℕ}

/-- The program passes only indexes of rotors, whatever the replies. -/
abbrev InRotor (utid : ℕ) {γ : Type} (p : Flow γ) : Prop :=
  Obeys (rotorIndexes utid) (fun _ _ => True) () p

theorem InRotor.call {γ : Type} {c : SysCall} {f : ℤ → Flow γ} (h : ∀ r, InRotor utid (f r)) :
    InRotor utid (sysCall c >>= f) := ⟨trivial, fun r _ _ => h r⟩

theorem InRotor.get {γ : Type} {f : Threadflow → Flow γ}
    (h : ∀ tf, tf.tfUtid = utid → InRotor utid (f tf)) : InRotor utid (getTf >>= f) :=
  ⟨trivial, fun tf _ htf => h tf htf⟩

theorem InRotor.of_get {γ : Type} {tf : Threadflow} {f : Threadflow → Flow γ}
    (h : InRotor utid (getTf >>= f)) (htf : tf.tfUtid = utid) : InRotor utid (f tf) := h.2 tf () htf

theorem InRotor.set {γ : Type} {tf : Threadflow} {f : Unit → Flow γ} (h : InRotor utid (f ())) :
    InRotor utid (setTf tf >>= f) := ⟨trivial, fun _ _ _ => h⟩

theorem InRotor.unbusy {γ : Type} {e : Entry} {newExist : Option Bool} {n : ℤ} {f : Unit → Flow γ}
    (h : InRotor utid (f ())) : InRotor utid (filesetUnbusyReq e newExist n >>= f) :=
  ⟨trivial, fun _ _ _ => h⟩

theorem inRotor_mkdir (creat : Bool) : InRotor utid (do
    if creat then
      let r ← sysCall .stat64
      if r ≠ 0 then sysCall .filesetMkdir else return 0
    else return 0) := by
  cases creat with
  | false => exact trivial
  | true =>
    refine InRotor.call fun r => ?_
    by_cases hr : r ≠ 0
    · rw [if_pos hr]
      exact ⟨trivial, fun _ _ _ => trivial⟩
    · rw [if_neg hr]
      exact trivial

theorem inRotor_filesetOpenfile (fd : ℕ) (e : Entry) (creat : Bool) :
    InRotor utid (filesetOpenfile fd e creat) := by
  refine (inRotor_mkdir creat).bind fun _ mkdir _ => ?_
  by_cases hmkdir : mkdir < 0
  · rw [if_pos hmkdir]
    exact trivial
  · rw [if_neg hmkdir]
    refine InRotor.call fun r => InRotor.get fun tf _ => InRotor.set ?_
    by_cases hr : r < 0
    · rw [if_pos hr]
      exact InRotor.unbusy trivial
    · rw [if_neg hr]
      exact InRotor.unbusy trivial

theorem inRotor_openPicked (fd : ℕ) (creat : Bool) (picked : Except FlowopRet Entry) :
    InRotor utid (openPicked fd creat picked) := by
  cases picked with
  | error err => exact trivial
  | ok e => exact InRotor.get fun tf _ => InRotor.set (inRotor_filesetOpenfile fd e creat)

/-- Only a pick in rotation uses the id. -/
theorem inRotor_flowoplibPick {flowop : Flowop} {tid : ℕ}
    (h : flowop.foFileset = true → flowop.foFileindex = none → tid < fseMaxtid) :
    InRotor utid (flowoplibPick flowop .file false tid) := by
  unfold flowoplibPick
  by_cases hset : flowop.foFileset = true
  · rw [if_neg (by simp [hset])]
    refine ⟨fun hflags => h hset ?_, fun r _ _ => ?_⟩
    · simpa using congrArg PickFlags.byindex hflags
    · cases r <;> exact trivial
  · rw [if_pos (by simp [hset])]
    exact trivial

/-- All attributes that make an open pick in rotation with an id of its own. -/
def Flowop.Rotates (flowop : Flowop) : Prop :=
  flowop.foFileset ∧ flowop.fsName ∧ flowop.foFileindex = none ∧ flowop.foRotatefd

theorem inRotor_flowoplibOpenfileCommon (flowop : Flowop) (fd : ℕ) :
    InRotor utid (flowoplibOpenfileCommon flowop fd) ↔
      (flowop.Rotates → utid < fseMaxtid) := by
  unfold flowoplibOpenfileCommon
  constructor
  · rintro h ⟨hset, hname, hindex, hrotate⟩
    rw [if_neg (by simp [hset, hname])] at h
    have hget := h.of_get
      (show Threadflow.tfUtid ⟨utid, fun _ => 0, fun _ => none, 0⟩ = utid from rfl)
    rw [if_neg (by simp), flowoplibPick, if_neg (by simp [hset]), if_pos hrotate, hindex] at hget
    exact hget.1 rfl
  · intro h
    by_cases hset : (!flowop.foFileset || !flowop.fsName) = true
    · rw [if_pos hset]
      exact trivial
    · rw [if_neg hset]
      rw [Bool.or_eq_true, not_or, Bool.not_eq_true', Bool.not_eq_true'] at hset
      refine InRotor.get fun tf htf => ?_
      by_cases hfd : tf.tfFd fd ≠ 0
      · rw [if_pos hfd]
        exact trivial
      · rw [if_neg hfd]
        refine (inRotor_flowoplibPick fun hfs hindex => ?_).bind fun _ picked _ =>
          inRotor_openPicked fd false picked
        split_ifs with hrotate
        · rw [htf]
          exact h ⟨hfs, by simpa using hset.2, hindex, hrotate⟩
        · decide

end

/-! ## A session -/

/-- An open passes an index of a rotor exactly if it does not rotate or its thread was one of the
first that the session defined; in particular every open does while not more were defined. -/
theorem utidRun_rotor {trace : List (UtidShm α β A n m k × UtidEvent α β A n m k)}
    {s : UtidShm α β A n m k} (h : UtidRun trace s) :
    (∀ t flowop fd, InRotor (s.tfUtid t) (flowoplibOpenfileCommon flowop fd) ↔
      (flowop.Rotates → threadNumber trace t < fseMaxtid)) ∧
    (threadsDefined trace < fseMaxtid →
      ∀ t flowop fd, InRotor (s.tfUtid t) (flowoplibOpenfileCommon flowop fd)) := by
  have hiff : ∀ t flowop fd, InRotor (s.tfUtid t) (flowoplibOpenfileCommon flowop fd) ↔
      (flowop.Rotates → threadNumber trace t < fseMaxtid) := by
    intro t flowop fd
    rw [inRotor_flowoplibOpenfileCommon, h.inv.tfUtid]
  refine ⟨hiff, fun hfew t flowop fd => (hiff t flowop fd).mpr fun _ => ?_⟩
  exact (threadNumber_le trace t).trans_lt hfew

/-! ## One thread with many instances -/

theorem threadflowDefineAny_allocates {work : WorkShm α β A n m k} {t : Fin m} {pool : Pool m}
    {d : ThreadDefinition β n m} {name : CString} (hname : d.name = some name)
    (hlength : name.length < tfNameSize) (hpool : work.threadPool.ipcMalloc = (some t, pool)) :
    ∃ work', threadflowDefineAny d.procflow d.name d.inherit d.zero d.inst work =
      some (some t, work') ∧ work'.threadPool = pool := by
  cases hinherit : d.inherit with
  | none =>
    simp only [threadflowDefineAny, hname, hpool, if_pos hlength]
    exact ⟨_, rfl, rfl⟩
  | some inherit =>
    simp only [threadflowDefineAny, hname, threadflowDefineCommon, hpool, if_pos hlength]
    exact ⟨_, rfl, rfl⟩

/-- Shared memory of a session without attributes. -/
abbrev PlainShm := UtidShm Unit Unit Unit nprocflows nthreadflows nflowops

abbrev PlainEvent := UtidEvent Unit Unit Unit nprocflows nthreadflows nflowops

def clearedWork : WorkShm Unit Unit Unit nprocflows nthreadflows nflowops where
  procs :=
    { workerScript.procs with procflow := fun _ => ⟨['p'], flowMaster, (), false, none, none⟩ }
  threadflow _ := ⟨[], 0, (), none⟩
  threadPool := filledTo nthreadflows 0 nthreadflows_pos
  flowops := workerScript.flowops

def clearedUtids : PlainShm := ⟨clearedWork, 0, fun _ => 0⟩

/-- The thread of the script comes first, and then its instances. -/
def instanceDefinition (i : ℕ) : ThreadDefinition Unit nprocflows nthreadflows where
  procflow := scriptProc
  name := some ['t']
  inherit := if i = 0 then none else some ⟨1, by decide⟩
  zero := ()
  inst := if i = 0 then flowMaster else i

theorem exists_instances (i : ℕ) (hi : i < nthreadflows) :
    ∃ (trace : List (PlainShm × PlainEvent)) (s : PlainShm),
      UtidRun trace s ∧ threadsDefined trace = i ∧
        s.work.threadPool = filledTo nthreadflows i hi ∧ threadNumber trace ⟨i, hi⟩ = i := by
  induction i with
  | zero => exact ⟨[], clearedUtids, .start ⟨rfl, fun _ => rfl⟩, rfl, rfl, rfl⟩
  | succ i ih =>
    obtain ⟨trace, s, hrun, hdefined, hpool, -⟩ := ih (Nat.lt_of_succ_lt hi)
    have hmalloc : s.work.threadPool.ipcMalloc =
        (some ⟨i + 1, hi⟩, filledTo nthreadflows (i + 1) hi) := by
      rw [hpool, Pool.ipcMalloc_eq]
      exact filledTo_malloc hi
    obtain ⟨work, hdefine, hpool'⟩ := threadflowDefineAny_allocates (d := instanceDefinition i) rfl
      (by decide) hmalloc
    have hmax : s.shmUtid < intMax := by
      have hlt : nthreadflows < intMax := by decide
      rw [hrun.inv.shmUtid, hdefined]
      omega
    have hsome : s.threadflowDefine (instanceDefinition i) = some (some ⟨i + 1, hi⟩,
        ⟨work, s.shmUtid + 1, Function.update s.tfUtid ⟨i + 1, hi⟩ (s.shmUtid + 1)⟩) := by
      rw [UtidShm.threadflowDefine, hdefine]
      exact if_pos hmax
    have hevent : s.defined (.define (instanceDefinition i)) = some ⟨i + 1, hi⟩ := by
      rw [UtidShm.defined, hsome, Option.bind_some]
    refine ⟨_, _, hrun.step (e := .define (instanceDefinition i)) (by
      rw [UtidShm.next, hsome, Option.map_some]), ?_, hpool', ?_⟩
    · rw [threadsDefined_some hevent, hdefined]
    · rw [threadNumber_some hevent, Function.update_self, hdefined]

/-- The flowop `openfile` with `rotatefd`. -/
def rotatingOpen : Flowop := ⟨0, true, true, none, true, false, 1⟩

theorem rotatingOpen_rotates : rotatingOpen.Rotates := ⟨rfl, rfl, rfl, rfl⟩

/-- The thread that is defined after 16383 others. -/
theorem openfile_passes_maxtid :
    ¬ ∀ (trace : List (PlainShm × PlainEvent)) (s : PlainShm), UtidRun trace s →
      ∀ t flowop fd, InRotor (s.tfUtid t) (flowoplibOpenfileCommon flowop fd) := by
  intro h
  obtain ⟨trace, s, hrun, -, -, hnumber⟩ := exists_instances fseMaxtid (by decide)
  have hopen := h trace s hrun ⟨fseMaxtid, by decide⟩ rotatingOpen 1
  rw [inRotor_flowoplibOpenfileCommon, hrun.inv.tfUtid, hnumber] at hopen
  exact lt_irrefl _ (hopen rotatingOpen_rotates)

/-- A thread of the script and one instance. -/
theorem utidRun_rotor_two : ∃ (trace : List (PlainShm × PlainEvent)) (s : PlainShm),
    threadsDefined trace = 2 ∧
    (∀ t flowop fd, InRotor (s.tfUtid t) (flowoplibOpenfileCommon flowop fd) ↔
      (flowop.Rotates → threadNumber trace t < fseMaxtid)) ∧
    (threadsDefined trace < fseMaxtid →
      ∀ t flowop fd, InRotor (s.tfUtid t) (flowoplibOpenfileCommon flowop fd)) := by
  obtain ⟨trace, s, hrun, hdefined, -, -⟩ := exists_instances 2 (by decide)
  exact ⟨trace, s, hdefined, utidRun_rotor hrun⟩

end Filebench
