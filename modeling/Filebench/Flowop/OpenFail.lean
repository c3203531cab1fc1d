import Filebench.Flowop.Library

/-! # Failed opens

An open writes the entry that it picked and the reply of the file system into the slots of its
descriptor, and takes neither back when it fails. -/
namespace Filebench

open Prog

/-- What the fileset and the file system reply to a thread. -/
structure FlowEnv where
  pick : PickArgs → Option Entry
  openCnt : Entry → ℤ
  call : SysCall → ℤ

/-- The run of a program, with the thread that it leaves behind. A crash has no result. -/
def runFlow {α : Type} (env : FlowEnv) : Flow α → Threadflow → Option (α × Threadflow)
  | .pure a, tf => some (a, tf)
  | .request (.pick args) k, tf => runFlow env (k (env.pick args)) tf
  | .request (.grab _ _) k, tf => runFlow env (k ()) tf
  | .request (.unbusy _ _ _) k, tf => runFlow env (k ()) tf
  | .request (.openCnt e) k, tf => runFlow env (k (env.openCnt e)) tf
  | .request (.call c) k, tf => runFlow env (k (env.call c)) tf
  | .request .get k, tf => runFlow env (k tf) tf
  | .request (.set tf) k, _ => runFlow env (k ()) tf
  | .request .crash _, _ => none

/-- A call that fails leaves the entry alone, and a closed descriptor closed. -/
def LeavesSlots (fd : ℕ) (tf tf' : Threadflow) (ret : FlowopRet) : Prop :=
  ret ≠ .ok → tf'.tfFse fd = tf.tfFse fd ∧ (tf.tfFd fd = 0 → tf'.tfFd fd = 0)

section run

variable {α β : Type} (env : FlowEnv) (tf : Threadflow)

@[simp] theorem runFlow_pure (a : α) : runFlow env (.pure a) tf = some (a, tf) := rfl

@[simp] theorem runFlow_getTf : runFlow env getTf tf = some (tf, tf) := rfl

@[simp] theorem runFlow_setTf (tf' : Threadflow) :
    runFlow env (setTf tf') tf = some ((), tf') := rfl

@[simp] theorem runFlow_sysCall (c : SysCall) :
    runFlow env (sysCall c) tf = some (env.call c, tf) := rfl

@[simp] theorem runFlow_filesetPickReq (args : PickArgs) :
    runFlow env (filesetPickReq args) tf = some (env.pick args, tf) := rfl

@[simp] theorem runFlow_filesetUnbusyReq (e : Entry) (newExist : Option Bool) (n : ℤ) :
    runFlow env (filesetUnbusyReq e newExist n) tf = some ((), tf) := rfl

@[simp] theorem runFlow_bind (p : Flow α) (f : α → Flow β) :
    runFlow env (p >>= f) tf = (runFlow env p tf).bind fun r => runFlow env (f r.1) r.2 := by
  induction p generalizing tf with
  | pure a => rfl
  | request o k ih =>
    cases o with
    | crash => rfl
    | set tf' => exact ih () tf'
    | _ => exact ih _ tf

end run

section slots

variable (env : FlowEnv) (fd : ℕ) (tf : Threadflow) (flowop : Flowop)

/-- The parent directories are not there and cannot be made. -/
def FlowEnv.mkdirFails : Bool := env.call .stat64 ≠ 0 && env.call .filesetMkdir < 0

/-- What `fileset_openfile` returns, with the thread that it leaves. -/
def openResult (creat : Bool) (file : Entry) : FlowopRet × Threadflow :=
  if creat && env.mkdirFails then (.error, tf)
  else (if env.call (.fbOpen fd file) < 0 then .error else .ok,
    { tf with tfFd := Function.update tf.tfFd fd (env.call (.fbOpen fd file)) })

/-- The thread with an entry in the slot of the descriptor. -/
def Threadflow.setFse (file : Entry) : Threadflow :=
  { tf with tfFse := Function.update tf.tfFse fd (some file) }

def Flowop.pickArgs (noexist : Bool) (tid : ℕ) : PickArgs :=
  ⟨⟨.file, false, noexist, flowop.foFileindex.isSome⟩, tid, flowop.foFileindex.getD 0⟩

/-- The open does not fail before it picks an entry. -/
def mayOpen : Bool := flowop.foFileset && flowop.fsName && tf.tfFd fd = 0

/-- The create does not fail before it picks an entry. -/
def mayCreate : Bool := tf.tfFd flowop.foFdnumber = 0 && flowop.foFileset && !flowop.fsReadonly

/-- The entry that an open gets. -/
def openPick : Option Entry :=
  if mayOpen fd tf flowop then
    env.pick (flowop.pickArgs false (if flowop.foRotatefd then tf.tfUtid else 0))
  else none

/-- The entry that a create gets. -/
def createPick : Option Entry :=
  if mayCreate tf flowop then env.pick (flowop.pickArgs true 0) else none

theorem runFlow_filesetOpenfile (creat : Bool) (file : Entry) :
    runFlow env (filesetOpenfile fd file creat) tf = some (openResult env fd tf creat file) := by
  unfold filesetOpenfile openResult FlowEnv.mkdirFails
  cases creat with
  | false => by_cases hopen : env.call (.fbOpen fd file) < 0 <;> simp [hopen]
  | true =>
    by_cases hstat : env.call .stat64 = 0
    · by_cases hopen : env.call (.fbOpen fd file) < 0 <;> simp [hstat, hopen]
    · by_cases hmkdir : env.call .filesetMkdir < 0
      · simp [hstat, hmkdir]
      · by_cases hopen : env.call (.fbOpen fd file) < 0 <;> simp [hstat, hmkdir, hopen]

theorem runFlow_openPicked {flowop : Flowop} (hset : flowop.foFileset = true) (creat noexist : Bool)
    (tid : ℕ) :
    runFlow env (flowoplibPick flowop .file noexist tid >>= openPicked fd creat) tf =
      some ((env.pick (flowop.pickArgs noexist tid)).elim (.norsc, tf) fun file =>
        openResult env fd (tf.setFse fd file) creat file) := by
  rw [runFlow_bind, flowoplibPick, Flowop.pickArgs]
  generalize hargs : (⟨⟨.file, false, noexist, flowop.foFileindex.isSome⟩, tid,
    flowop.foFileindex.getD 0⟩ : PickArgs) = args
  cases hpick : env.pick args with
  | none => simp [hset, hpick, openPicked]
  | some file =>
    simp only [hset, hpick, openPicked, runFlow_bind, runFlow_filesetPickReq, Bool.not_true,
      Bool.false_eq_true, if_false, Option.bind_some]
    exact runFlow_filesetOpenfile env fd (tf.setFse fd file) creat file

theorem runFlow_openfileCommon :
    runFlow env (flowoplibOpenfileCommon flowop fd) tf =
      some ((openPick env fd tf flowop).elim
        (if mayOpen fd tf flowop then .norsc else .error, tf) fun file =>
          openResult env fd (tf.setFse fd file) false file) := by
  unfold flowoplibOpenfileCommon openPick
  by_cases hmay : mayOpen fd tf flowop = true
  · have hmay' := hmay
    simp only [mayOpen, Bool.and_eq_true, decide_eq_true_eq] at hmay'
    obtain ⟨⟨hset, hname⟩, hfd⟩ := hmay'
    simp only [hmay, hset, hname, hfd, Bool.not_true, Bool.or_false, Bool.false_eq_true, if_false,
      if_true, runFlow_bind, runFlow_getTf, Option.bind_some, ne_eq, not_true_eq_false]
    rw [← runFlow_bind]
    exact runFlow_openPicked env fd tf hset false false _
  · rw [if_neg hmay, if_neg hmay]
    by_cases hset : flowop.foFileset = true ∧ flowop.fsName = true
    · have hfd : tf.tfFd fd ≠ 0 := fun hfd => hmay (by simp [mayOpen, hset, hfd])
      simp [hset, hfd]
    · have hset' : (!flowop.foFileset || !flowop.fsName) = true := by
        by_contra h
        exact hset (by simpa using h)
      simp only [hset', if_true]
      rfl

theorem runFlow_createfile :
    runFlow env (flowoplibCreatefile flowop) tf =
      some ((createPick env tf flowop).elim
        (if mayCreate tf flowop then .norsc else .error, tf) fun file =>
          openResult env flowop.foFdnumber (tf.setFse flowop.foFdnumber file) true file) := by
  unfold flowoplibCreatefile createPick
  by_cases hmay : mayCreate tf flowop = true
  · have hmay' := hmay
    simp only [mayCreate, Bool.and_eq_true, decide_eq_true_eq, Bool.not_eq_true'] at hmay'
    obtain ⟨⟨hfd, hset⟩, hro⟩ := hmay'
    simp only [hmay, hset, hro, hfd, Bool.not_true, Bool.false_eq_true, if_false, if_true,
      runFlow_bind, runFlow_getTf, Option.bind_some, ne_eq, not_true_eq_false]
    rw [← runFlow_bind]
    exact runFlow_openPicked env flowop.foFdnumber tf hset true true 0
  · rw [if_neg hmay, if_neg hmay]
    by_cases hfd : tf.tfFd flowop.foFdnumber = 0
    · cases hset : flowop.foFileset with
      | false => simp [hfd, hset]
      | true =>
        have hro : flowop.fsReadonly = true := by
          by_contra hro
          exact hmay (by simp [mayCreate, hfd, hset, hro])
        simp [hfd, hset, hro]
    · simp [hfd]

/-- An entry that was picked is opened, or stays in a slot that it was in before. -/
def OpensWell (creat : Bool) (file : Entry) : Prop :=
  if creat && env.mkdirFails then tf.tfFse fd = some file else 0 ≤ env.call (.fbOpen fd file)

theorem leavesSlots_openResult (creat : Bool) (file : Entry) (hclosed : tf.tfFd fd = 0) :
    LeavesSlots fd tf (openResult env fd (tf.setFse fd file) creat file).2
      (openResult env fd (tf.setFse fd file) creat file).1 ↔ OpensWell env fd tf creat file := by
  unfold LeavesSlots openResult OpensWell
  by_cases hmkdir : (creat && env.mkdirFails) = true
  · rw [if_pos hmkdir, if_pos hmkdir]
    simp [Threadflow.setFse, eq_comm]
  · rw [if_neg hmkdir, if_neg hmkdir]
    by_cases hopen : env.call (.fbOpen fd file) < 0
    · rw [if_pos hopen]
      refine iff_of_false (fun h => ?_) (not_le.mpr hopen)
      have hfd := (h fun heq => by cases heq).2 hclosed
      dsimp only at hfd
      rw [Function.update_self] at hfd
      omega
    · rw [if_neg hopen]
      exact iff_of_true (fun h => absurd rfl h) (not_lt.mp hopen)

/-- An open that picked nothing leaves the thread alone, and the others do so when all goes well. -/
theorem leavesSlots_elim (creat : Bool) {pick : Option Entry} {ret : FlowopRet}
    (hclosed : ∀ file ∈ pick, tf.tfFd fd = 0) :
    LeavesSlots fd tf
      (pick.elim (ret, tf) fun file => openResult env fd (tf.setFse fd file) creat file).2
      (pick.elim (ret, tf) fun file => openResult env fd (tf.setFse fd file) creat file).1 ↔
        ∀ file ∈ pick, OpensWell env fd tf creat file := by
  cases pick with
  | none => exact iff_of_true (fun _ => ⟨rfl, id⟩) fun file h => by cases h
  | some file =>
    rw [Option.elim_some, leavesSlots_openResult env fd tf creat file (hclosed file rfl)]
    simp

end slots

/-- A failed open or create leaves the slots of its descriptor alone exactly when it did not get as
far as the open of a file: no entry was picked, or the directories of one that was in the slot
before could not be made. -/
theorem openfile_leavesSlots_iff (env : FlowEnv) (flowop : Flowop) (tf : Threadflow) :
    (∀ fd, ∃ ret tf', runFlow env (flowoplibOpenfileCommon flowop fd) tf = some (ret, tf') ∧
      (LeavesSlots fd tf tf' ret ↔
        ∀ file ∈ openPick env fd tf flowop, OpensWell env fd tf false file)) ∧
    ∃ ret tf', runFlow env (flowoplibCreatefile flowop) tf = some (ret, tf') ∧
      (LeavesSlots flowop.foFdnumber tf tf' ret ↔
        ∀ file ∈ createPick env tf flowop, OpensWell env flowop.foFdnumber tf true file) := by
  constructor
  · intro fd
    refine ⟨_, _, runFlow_openfileCommon env fd tf flowop, leavesSlots_elim env fd tf false ?_⟩
    intro file hfile
    have hmay := (Option.ite_none_right_eq_some.mp hfile).1
    simp only [mayOpen, Bool.and_eq_true, decide_eq_true_eq] at hmay
    exact hmay.2
  · refine ⟨_, _, runFlow_createfile env tf flowop, leavesSlots_elim env _ tf true ?_⟩
    intro file hfile
    have hmay := (Option.ite_none_right_eq_some.mp hfile).1
    simp only [mayCreate, Bool.and_eq_true, decide_eq_true_eq] at hmay
    exact hmay.1.1

/-- After a failed open of a file the descriptor is refused, whatever is tried with it. -/
theorem openfile_refused {env : FlowEnv} {fd : ℕ} {tf : Threadflow} {flowop : Flowop}
    {file : Entry} (hpick : openPick env fd tf flowop = some file)
    (hfail : env.call (.fbOpen fd file) < 0) :
    ∃ tf', runFlow env (flowoplibOpenfileCommon flowop fd) tf = some (.error, tf') ∧
      ∀ env' flowop',
        runFlow env' (flowoplibOpenfileCommon flowop' fd) tf' = some (.error, tf') := by
  refine ⟨(openResult env fd (tf.setFse fd file) false file).2, ?_, fun env' flowop' => ?_⟩
  · rw [runFlow_openfileCommon, hpick]
    simp [openResult, hfail]
  · have hmay :
        mayOpen fd (openResult env fd (tf.setFse fd file) false file).2 flowop' = false := by
      have hne : env.call (.fbOpen fd file) ≠ 0 := by omega
      simp [mayOpen, openResult, hne]
    rw [runFlow_openfileCommon]
    simp [openPick, hmay]

/-- The file with number five cannot be opened. -/
theorem openfile_leavesSlots_five :
    runFlow ⟨fun _ => some 5, fun _ => 0, fun _ => -1⟩
      (flowoplibOpenfileCommon ⟨1, false, true, none, true, false, 1⟩ 1)
      ⟨1, fun _ => 0, fun _ => none, 0⟩ = some (.error, ⟨1, Function.update (fun _ => 0) 1 (-1),
        Function.update (fun _ => none) 1 (some 5), 0⟩) ∧
    ¬ LeavesSlots 1 ⟨1, fun _ => 0, fun _ => none, 0⟩ ⟨1, Function.update (fun _ => 0) 1 (-1),
      Function.update (fun _ => none) 1 (some 5), 0⟩ .error := by
  refine ⟨rfl, fun h => ?_⟩
  have hfse := (h (by decide)).1
  simp at hfse

end Filebench
