import Filebench.Avl.Holds
import Filebench.Lib.CString

/-! # Filesets and their entries

The state of one fileset: its entries, the seven trees over their links, the three lists, the
idle counts and the rotors. Counters and indices of entries stay below the size of the entry
pool and are natural numbers; indices that a caller supplies are C integers. -/
namespace Filebench

open Avl

/-- The type of a fileset entry (`FSE_TYPE_MASK`), and that of a pick (`FILESET_PICKMASK`). -/
inductive FseType where
  | file
  | dir
  | leafdir
  deriving DecidableEq, Repr

structure FseFlags where
  type : FseType
  free : Bool
  exists_ : Bool
  busy : Bool
  reusing : Bool
  thrdWaitng : Bool
  deriving DecidableEq, Repr

/-- Addresses of entries. Address 0 is that of the entry on the stack of `avl_remove`. -/
abbrev Entry := ℕ

def stackEntry : Entry := 0

structure FilesetEntry where
  fseNext : Option Entry
  fseParent : Option Entry
  fseIndex : ℕ
  fsePath : Option CString
  fseSize : ℤ
  fseOpenCnt : ℤ
  fseFlags : FseFlags

/-- What `ipc_malloc` leaves in a new entry. -/
def FilesetEntry.zero : FilesetEntry :=
  ⟨none, none, 0, none, 0, 0, ⟨.file, false, false, false, false, false⟩⟩

inductive FsTree where
  | freeFiles
  | existFiles
  | noexFiles
  | dirs
  | freeLeafDirs
  | existLeafDirs
  | noexLeafDirs
  deriving DecidableEq, Repr

/-- `FSE_MAXTID` -/
def fseMaxtid : ℕ := 16384

/-- `fsIdle`, `fsList` and `fsTree` stand for three counts, three lists and seven trees. -/
structure Fileset where
  fsConstentries : ℕ
  fsConstleafdirs : ℕ
  fsRealfiles : ℕ
  fsRealleafdirs : ℕ
  fsBytes : ℤ
  fsIdle : FseType → ℤ
  fsTree : FsTree → AvlTree Entry
  fsList : FseType → List Entry
  fsFileExrotor : ℕ → ℕ
  fsFileNerotor : ℕ
  fsDirrotor : ℕ
  fsLeafdirExrotor : ℕ
  fsLeafdirNerotor : ℕ
  fse : Entry → FilesetEntry
  fseLink : Links Entry

/-- What `ipc_malloc` leaves in a new fileset. -/
def Fileset.zero : Fileset where
  fsConstentries := 0
  fsConstleafdirs := 0
  fsRealfiles := 0
  fsRealleafdirs := 0
  fsBytes := 0
  fsIdle := fun _ => 0
  fsTree := fun _ => ⟨none, 0⟩
  fsList := fun _ => []
  fsFileExrotor := fun _ => 0
  fsFileNerotor := 0
  fsDirrotor := 0
  fsLeafdirExrotor := 0
  fsLeafdirNerotor := 0
  fse := fun _ => FilesetEntry.zero
  fseLink := fun _ => none

/-- `fileset_entry_compare` orders entries by index. -/
def Fileset.key (fs : Fileset) (e : Entry) : ℕ := (fs.fse e).fseIndex

def Fileset.flags (fs : Fileset) (e : Entry) : FseFlags := (fs.fse e).fseFlags

def Fileset.setFse (fs : Fileset) (e : Entry) (f : FilesetEntry → FilesetEntry) : Fileset :=
  { fs with fse := Function.update fs.fse e (f (fs.fse e)) }

def Fileset.setFlags (fs : Fileset) (e : Entry) (f : FseFlags → FseFlags) : Fileset :=
  fs.setFse e fun n => { n with fseFlags := f n.fseFlags }

def Fileset.addIdle (fs : Fileset) (ty : FseType) (n : ℤ) : Fileset :=
  { fs with fsIdle := Function.update fs.fsIdle ty (fs.fsIdle ty + n) }

/-- Moves an entry from one tree to another. -/
def filesetMoveEntry (fuel : ℕ) (fs : Fileset) (src dst : FsTree) (entry : Entry) :
    Option Fileset := do
  let (h, tree) ← avlRemove stackEntry fuel fs.fseLink (fs.fsTree src) entry
  let fs := { fs with fseLink := h, fsTree := Function.update fs.fsTree src tree }
  let (h, tree) ← avlAdd fuel fs.fseLink (fs.fsTree dst) fs.key entry
  some { fs with fseLink := h, fsTree := Function.update fs.fsTree dst tree }

end Filebench
