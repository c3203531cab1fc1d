import Filebench.Fileset.Pick
import Filebench.Lib.Program

/-! # Flowops on the entries of a fileset

The flowops that create, open, close, delete and list, as programs over the critical sections of
the fileset and the calls to the file system. The reply to a call is its return value; the calls
that only read or build path strings have no other effect here. -/
namespace Filebench

open Prog

/-- The arguments of a pick. -/
structure PickArgs where
  flags : PickFlags
  tid : ℕ
  index : ℤ

/-- The two flowops that wait for a certain entry and mark it busy themselves. -/
inductive Grab where
  | delete
  | close
  deriving DecidableEq, Repr

inductive SysCall where
  | stat64
  | filesetMkdir
  | getdirpath
  | fbOpen (fd : ℕ) (e : Entry)
  | fbClose (fd : ℕ)
  | fbUnlink (e : Entry)
  | fbMkdir (e : Entry)
  | fbRmdir (e : Entry)
  | fbOpendir
  | fbReaddir
  | fbStat
  | fbFstat
  deriving DecidableEq, Repr

/-- The part of a thread that the flowops read and write. A descriptor is the integer `fd_num`;
`fd_ptr` of the union is NULL when it is zero. -/
structure Threadflow where
  tfUtid : ℕ
  tfFd : ℕ → ℤ
  tfFse : ℕ → Option Entry
  tfFdrotor : ℕ

inductive Request where
  | pick (args : PickArgs)
  | grab (kind : Grab) (e : Entry)
  | unbusy (e : Entry) (newExist : Option Bool) (openCntIncr : ℤ)
  | openCnt (e : Entry)
  | call (c : SysCall)
  | get
  | set (tf : Threadflow)
  | crash

/-- A crash, the use of a NULL pointer, has no reply. -/
def Reply : Request → Type
  | .pick _ => Option Entry
  | .grab _ _ => Unit
  | .unbusy _ _ _ => Unit
  | .openCnt _ => ℤ
  | .call _ => ℤ
  | .get => Threadflow
  | .set _ => Unit
  | .crash => Empty

abbrev Flow := Program Request Reply

def filesetPickReq (args : PickArgs) : Flow (Option Entry) := Program.send (Request.pick args)

def filesetGrab (kind : Grab) (e : Entry) : Flow Unit := Program.send (Request.grab kind e)

def filesetUnbusyReq (e : Entry) (newExist : Option Bool) (openCntIncr : ℤ) : Flow Unit :=
  Program.send (Request.unbusy e newExist openCntIncr)

def fseOpenCnt (e : Entry) : Flow ℤ := Program.send (Request.openCnt e)

def sysCall (c : SysCall) : Flow ℤ := Program.send (Request.call c)

def getTf : Flow Threadflow := Program.send Request.get

def setTf (tf : Threadflow) : Flow Unit := Program.send (Request.set tf)

inductive FlowopRet where
  | ok
  | error
  | norsc
  deriving DecidableEq, Repr

/-- The attributes of a flowop. `foFileset` and `fsName` tell whether the pointers are set,
`foFileindex` is the index that the random attribute delivers. -/
structure Flowop where
  foFdnumber : ℕ
  foRotatefd : Bool
  foFileset : Bool
  foFileindex : Option ℤ
  fsName : Bool
  fsReadonly : Bool
  fsConstentries : ℕ

/-- `THREADFLOW_MAXFD` -/
def threadflowMaxfd : ℕ := 128

/-- The descriptor to use, with the rotor that goes with it. -/
def flowoplibFdnum (flowop : Flowop) (tf : Threadflow) : Option ℕ × Threadflow :=
  if 0 < flowop.foFdnumber then (some flowop.foFdnumber, tf)
  else if !flowop.foRotatefd then (some flowop.foFdnumber, tf)
  else if !flowop.foFileset then (none, tf)
  else if threadflowMaxfd / 2 < flowop.fsConstentries then (none, tf)
  else
    let rotor := if tf.tfFdrotor = 0 then threadflowMaxfd else tf.tfFdrotor
    let rotor := if flowop.fsConstentries = threadflowMaxfd - rotor then threadflowMaxfd else rotor
    (some (rotor - 1), { tf with tfFdrotor := rotor - 1 })

/-- `flowoplib_pickfile` and `flowoplib_pickleafdir`. -/
def flowoplibPick (flowop : Flowop) (type : FseType) (noexist : Bool) (tid : ℕ) :
    Flow (Except FlowopRet Entry) := do
  if !flowop.foFileset then return .error .error
  else
    match ← filesetPickReq ⟨⟨type, false, noexist, flowop.foFileindex.isSome⟩, tid,
      flowop.foFileindex.getD 0⟩ with
    | none => return .error .norsc
    | some e => return .ok e

/-- Opens the file of an entry that was picked, and releases the entry. When the parent
directories cannot be made the entry is not released. -/
def filesetOpenfile (fd : ℕ) (entry : Entry) (creat : Bool) : Flow FlowopRet := do
  let mkdir ← (do
    if creat then
      let r ← sysCall .stat64
      if r ≠ 0 then sysCall .filesetMkdir else return 0
    else return 0)
  if mkdir < 0 then return .error
  else
    let r ← sysCall (.fbOpen fd entry)
    let tf ← getTf
    setTf { tf with tfFd := Function.update tf.tfFd fd r }
    if r < 0 then
      filesetUnbusyReq entry none 0
      return .error
    else
      filesetUnbusyReq entry (if creat then some true else none) 1
      return .ok

/-- The end of an open or a create, with an entry that was picked. -/
def openPicked (fd : ℕ) (creat : Bool) : Except FlowopRet Entry → Flow FlowopRet
  | .error err => return err
  | .ok file => do
    let tf ← getTf
    setTf { tf with tfFse := Function.update tf.tfFse fd (some file) }
    filesetOpenfile fd file creat

def flowoplibOpenfileCommon (flowop : Flowop) (fd : ℕ) : Flow FlowopRet := do
  if !flowop.foFileset || !flowop.fsName then return .error
  else
    let tf ← getTf
    if tf.tfFd fd ≠ 0 then return .error
    else
      let picked ← flowoplibPick flowop .file false (if flowop.foRotatefd then tf.tfUtid else 0)
      openPicked fd false picked

def flowoplibOpenfile (flowop : Flowop) : Flow FlowopRet := do
  let tf ← getTf
  match flowoplibFdnum flowop tf with
  | (none, _) => return .error
  | (some fd, tf) =>
    setTf tf
    flowoplibOpenfileCommon flowop fd

def flowoplibCreatefile (flowop : Flowop) : Flow FlowopRet := do
  let tf ← getTf
  if tf.tfFd flowop.foFdnumber ≠ 0 then return .error
  else if !flowop.foFileset then return .error
  else if flowop.fsReadonly then return .error
  else
    let picked ← flowoplibPick flowop .file true 0
    openPicked flowop.foFdnumber true picked

/-- A file is left alone while others than the calling thread may have it open. -/
def deletePicked (fd : ℕ) : Except FlowopRet Entry → Flow FlowopRet
  | .error err => return err
  | .ok file => do
    let tf ← getTf
    let cnt ← fseOpenCnt file
    if (if 0 < fd ∧ 0 < tf.tfFd fd then 1 < cnt else 0 < cnt) then
      filesetUnbusyReq file none 0
      return .ok
    else
      let _ ← sysCall (.fbUnlink file)
      let cnt ← fseOpenCnt file
      filesetUnbusyReq file (some false) (-cnt)
      return .ok

/-- The file in the slot of a positive descriptor, or else an arbitrary one. -/
def flowoplibDeletefile (flowop : Flowop) : Flow FlowopRet := do
  let fd := flowop.foFdnumber
  let tf ← getTf
  match (if 0 < fd then tf.tfFse fd else none) with
  | some file =>
    setTf { tf with tfFse := Function.update tf.tfFse fd none }
    filesetGrab .delete file
    deletePicked fd (.ok file)
  | none =>
    let picked ← flowoplibPick flowop .file false 0
    deletePicked fd picked

def flowoplibClosefile (flowop : Flowop) : Flow FlowopRet := do
  let fd := flowop.foFdnumber
  let tf ← getTf
  if tf.tfFd fd = 0 then return .error
  else
    match tf.tfFse fd with
    | none => Program.request Request.crash nofun
    | some file =>
      filesetGrab .close file
      let _ ← sysCall (.fbClose fd)
      filesetUnbusyReq file none (-1)
      let tf ← getTf
      setTf { tf with tfFd := Function.update tf.tfFd fd 0 }
      return .ok

/-- `flowoplib_makedir` and `flowoplib_removedir` -/
def leafdirFlowop (flowop : Flowop) (call : Entry → SysCall) (exists_ : Bool) :
    Flow FlowopRet := do
  match ← flowoplibPick flowop .leafdir exists_ 0 with
  | .error err => return err
  | .ok dir =>
    let r ← sysCall .getdirpath
    if r ≠ 0 then return .error
    else
      let _ ← sysCall (call dir)
      filesetUnbusyReq dir (some exists_) 0
      return .ok

def flowoplibMakedir (flowop : Flowop) : Flow FlowopRet := leafdirFlowop flowop .fbMkdir true

def flowoplibRemovedir (flowop : Flowop) : Flow FlowopRet := leafdirFlowop flowop .fbRmdir false

def flowoplibListdir (flowop : Flowop) : Flow FlowopRet := do
  if !flowop.foFileset then return .error
  else
    match ← filesetPickReq ⟨⟨.dir, false, false, false⟩, 0, 0⟩ with
    | none => return .error
    | some dir =>
      let r ← sysCall .getdirpath
      if r ≠ 0 then return .error
      else
        let handle ← sysCall .fbOpendir
        if handle = 0 then return .error
        else
          let _ ← sysCall .fbReaddir
          filesetUnbusyReq dir none 0
          return .ok

def flowoplibStatfile (flowop : Flowop) : Flow FlowopRet := do
  let fd := flowop.foFdnumber
  let tf ← getTf
  if 0 < fd ∧ 0 < tf.tfFd fd then
    if tf.tfFse fd = none then return .error
    else
      let _ ← sysCall .fbFstat
      return .ok
  else
    match ← flowoplibPick flowop .file false 0 with
    | .error err => return err
    | .ok file =>
      let _ ← sysCall .fbStat
      filesetUnbusyReq file none 0
      return .ok

/-- The flowops of this section of the library, as a thread runs them. -/
inductive FlowopFunc where
  | openfile
  | createfile
  | deletefile
  | closefile
  | makedir
  | removedir
  | listdir
  | statfile
  deriving DecidableEq, Repr

def FlowopFunc.run : FlowopFunc → Flowop → Flow FlowopRet
  | .openfile => flowoplibOpenfile
  | .createfile => flowoplibCreatefile
  | .deletefile => flowoplibDeletefile
  | .closefile => flowoplibClosefile
  | .makedir => flowoplibMakedir
  | .removedir => flowoplibRemovedir
  | .listdir => flowoplibListdir
  | .statfile => flowoplibStatfile

/-- The programs of the threads: a flowop with its attributes. -/
abbrev flowopCode (p : FlowopFunc × Flowop) : Flow FlowopRet := p.1.run p.2

end Filebench
