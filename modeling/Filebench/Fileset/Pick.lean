import Filebench.Fileset.Types

/-! # Picking an entry and releasing it

`fileset_pick` and `fileset_unbusy`, each as one critical section under `fs_pick_lock`. A pick
that finds the idle count at zero waits and is tried again when it is woken. -/
namespace Filebench

open Avl

/-- The flags of a pick; `FILESET_PICKEXISTS` is the absence of the other two. -/
structure PickFlags where
  type : FseType
  unique : Bool
  noexist : Bool
  byindex : Bool
  deriving DecidableEq, Repr

/-- Free, existing and nonexisting entries of one type. -/
def freeTree : FseType → FsTree
  | .file => .freeFiles
  | .dir => .dirs
  | .leafdir => .freeLeafDirs

def noexTree : FseType → FsTree
  | .file => .noexFiles
  | .dir => .dirs
  | .leafdir => .noexLeafDirs

def existTree : FseType → FsTree
  | .file => .existFiles
  | .dir => .dirs
  | .leafdir => .existLeafDirs

/-- The tree `atp` that a pick selects from. -/
def pickTree (flags : PickFlags) : FsTree :=
  if flags.unique then freeTree flags.type
  else if flags.noexist then noexTree flags.type
  else existTree flags.type

def maxEntries (fs : Fileset) : FseType → ℕ
  | .file => fs.fsConstentries
  | .dir => 1
  | .leafdir => fs.fsConstleafdirs

/-- `filebench_randomno64` on a random number from the system; `FILEBENCH_ERROR` is `none`. -/
def filebenchRandomno64 (random max round : ℕ) : Option ℕ :=
  if max ≤ round then if max = round then some 0 else none
  else
    let max := max - round
    let random := random / ((2 ^ 64 - 1) / max)
    let random := if round ≠ 0 then random / round * round else random
    some (if max < random then max else random)

/-- A C integer converted to `uint_t`. -/
def toUint (i : ℤ) : ℕ := (i % 2 ^ 32).toNat

/-- Finds an entry by index: that one, or the next higher one, or the lowest one. -/
def filesetFindEntry (fuel : ℕ) (fs : Fileset) (atp : FsTree) (index : ℕ) :
    Option (Option Entry) := do
  match ← avlFind fuel fs.fseLink (fs.fsTree atp) fs.key index with
  | .found e => some (some e)
  | .missing prev child =>
    match ← avlNearest fuel fs.fseLink prev child true with
    | some e => some (some e)
    | none => avlFirst fuel fs.fseLink (fs.fsTree atp)

/-- The rotor of a pick in rotation. The rotor of existing files is an array over thread ids. -/
def pickRotor (fs : Fileset) (flags : PickFlags) (tid : ℕ) : Option ℕ :=
  match flags.type with
  | .file =>
    if flags.noexist then some fs.fsFileNerotor
    else if tid < fseMaxtid then some (fs.fsFileExrotor tid) else none
  | .dir => some fs.fsDirrotor
  | .leafdir => some (if flags.noexist then fs.fsLeafdirNerotor else fs.fsLeafdirExrotor)

def setPickRotor (fs : Fileset) (flags : PickFlags) (tid : ℕ) (r : ℕ) : Fileset :=
  match flags.type with
  | .file =>
    if flags.noexist then { fs with fsFileNerotor := r }
    else { fs with fsFileExrotor := Function.update fs.fsFileExrotor tid r }
  | .dir => { fs with fsDirrotor := r }
  | .leafdir =>
    if flags.noexist then { fs with fsLeafdirNerotor := r } else { fs with fsLeafdirExrotor := r }

/-- The entry after a busy one: the next in the tree, or else the first. -/
def filesetPickNext (fuel : ℕ) (fs : Fileset) (atp : FsTree) (entry : Entry) :
    Option (Option Entry) := do
  match ← avlWalk fuel fs.fseLink entry true with
  | some e => some (some e)
  | none => avlFirst fuel fs.fseLink (fs.fsTree atp)

/-- From `entry` on, wrapping around once, to an entry that is not busy. -/
def filesetPickLoop (walk : ℕ) (fs : Fileset) (atp : FsTree) (startPoint : Entry) :
    ℕ → Entry → Option (Option Entry)
  | 0, _ => none
  | fuel + 1, entry =>
    if (fs.flags entry).busy then do
      match ← filesetPickNext walk fs atp entry with
      | none => some none
      | some e => if e = startPoint then some none else filesetPickLoop walk fs atp startPoint fuel e
    else some (some entry)

inductive PickResult where
  | wait
  | null
  | nullLocked
  | entry (e : Entry)
  deriving DecidableEq, Repr

/-- The end of a pick, from the entry where the search for an idle one starts. -/
def filesetPickFrom (fuel : ℕ) (fs : Fileset) (ty : FseType) (atp : FsTree) (entry : Option Entry) :
    Option (PickResult × Fileset) :=
  match entry with
  | none => some (.null, fs)
  | some startPoint => do
    match ← filesetPickLoop fuel fs atp startPoint fuel startPoint with
    | none => some (.null, fs)
    | some e => some (.entry e, (fs.addIdle ty (-1)).setFlags e fun f => { f with busy := true })

/-- A pick with the random number it may draw. `nullLocked` is the return on which the lock is
still held. -/
def filesetPick (fuel : ℕ) (fs : Fileset) (flags : PickFlags) (tid : ℕ) (index : ℤ) (random : ℕ) :
    Option (PickResult × Fileset) := do
  if fs.fsList flags.type = [] then some (.null, fs)
  else if fs.fsIdle flags.type = 0 then some (.wait, fs)
  else
    let atp := pickTree flags
    if avlIsEmpty (fs.fsTree atp) then some (.null, fs)
    else if flags.unique then
      if index ≠ 0 then
        filesetPickFrom fuel fs flags.type atp (← filesetFindEntry fuel fs atp (toUint index))
      else
        match filebenchRandomno64 random (maxEntries fs flags.type) 1 with
        | none => some (.nullLocked, fs)
        | some index64 =>
          filesetPickFrom fuel fs flags.type atp (← filesetFindEntry fuel fs atp (toUint index64))
    else if flags.byindex then
      filesetPickFrom fuel fs flags.type atp (← filesetFindEntry fuel fs atp (toUint index))
    else
      let e ← ← filesetFindEntry fuel fs atp (← pickRotor fs flags tid)
      let fs := setPickRotor fs flags tid (toUint (fs.key e + 1))
      filesetPickFrom fuel fs flags.type atp (some e)

/-! ## Release -/

/-- The flags after an update of the existence, and the move between trees that goes with it. -/
def existUpdate (flags : FseFlags) (newExistVal : Bool) : FseFlags × Option (FsTree × FsTree) :=
  let move (src dst : FseType → FsTree) : Option (FsTree × FsTree) :=
    match flags.type with
    | .dir => none
    | ty => some (src ty, dst ty)
  if newExistVal then
    if flags.free then
      ({ flags with exists_ := true, free := false }, move freeTree existTree)
    else if !flags.exists_ then ({ flags with exists_ := true }, move noexTree existTree)
    else (flags, none)
  else
    if flags.free then
      ({ flags with free := false, exists_ := false }, move freeTree noexTree)
    else if flags.exists_ then ({ flags with exists_ := false }, move existTree noexTree)
    else (flags, none)

/-- The condition variables that a release signals. -/
structure Signals where
  thrdWaitCv : Bool
  idleCv : Option FseType
  deriving DecidableEq, Repr

/-- Clears `FSE_BUSY` of a busy entry, raises the idle count and signals the waiting threads. -/
def clearBusy (fs : Fileset) (entry : Entry) : Fileset × Signals :=
  let flags := fs.flags entry
  if flags.busy then
    let fs := fs.setFlags entry fun f => { f with busy := false, thrdWaitng := false }
    let fs := fs.addIdle flags.type 1
    (fs, ⟨flags.thrdWaitng, if fs.fsIdle flags.type = 1 then some flags.type else none⟩)
  else (fs, ⟨false, none⟩)

/-- `update_exist` and `new_exist_val` together are an optional new existence. -/
def filesetUnbusy (fuel : ℕ) (fs : Fileset) (entry : Entry) (newExist : Option Bool)
    (openCntIncr : ℤ) : Option (Fileset × Signals) := do
  let fs ←
    match newExist with
    | none => some fs
    | some v =>
      let (flags, move) := existUpdate (fs.flags entry) v
      let fs := fs.setFlags entry fun _ => flags
      match move with
      | none => some fs
      | some (src, dst) => filesetMoveEntry fuel fs src dst entry
  let fs := fs.setFse entry fun n => { n with fseOpenCnt := n.fseOpenCnt + openCntIncr }
  some (clearBusy fs entry)

end Filebench
