import Filebench.Fileset.Pick
import Filebench.Lib.Double

/-! # Populating a fileset

The recursion of `fileset_populate_subdir` with its two loops. The random samples and the
outcomes of the allocations are streams. A directory consumes the depth and the width at its
own index, a file the size at the number of files before it. -/
namespace Filebench

open Avl Double

inductive FilebenchRet where
  | ok
  | error
  deriving DecidableEq, Repr

/-- The random choices of one populate: depths cast to `int`, widths as doubles, sizes, and
whether each request for shared memory succeeds. -/
structure Samples where
  randepth : ℕ → ℤ
  ranwidth : ℕ → ℚ
  fseSize : ℕ → ℤ
  alloc : ℕ → Bool

/-- A fileset together with the number of requests for shared memory made so far. -/
structure Shm where
  fs : Fileset
  requests : ℕ

/-- `"%08d"` -/
def fmt08d (n : ℕ) : CString :=
  let digits := Nat.toDigits 10 n
  List.replicate (8 - digits.length) '0' ++ digits

/-- The link of an entry that was just allocated. -/
def zeroLink : AvlNode Entry := ⟨fun _ => none, none, false, 0⟩

def zeroEntry (fs : Fileset) (entry : Entry) : Fileset :=
  { fs with
    fse := Function.update fs.fse entry FilesetEntry.zero
    fseLink := Function.update fs.fseLink entry (some zeroLink) }

/-- `ipc_malloc` of an entry. The address stands for the request. -/
def ipcMallocEntry (smp : Samples) (s : Shm) : Option Entry × Shm :=
  let entry := s.requests + 1
  if smp.alloc s.requests then (some entry, ⟨zeroEntry s.fs entry, s.requests + 1⟩)
  else (none, ⟨s.fs, s.requests + 1⟩)

/-- `ipc_pathalloc` of the path of an entry. -/
def ipcPathalloc (smp : Samples) (s : Shm) (entry : Entry) (path : CString) : Bool × Shm :=
  if smp.alloc s.requests then
    (true, ⟨s.fs.setFse entry fun n => { n with fsePath := some path }, s.requests + 1⟩)
  else (false, ⟨s.fs, s.requests + 1⟩)

/-- Adds an entry to the tree and to the list of its type, with its first flags. -/
def filesetInsList (fuel : ℕ) (fs : Fileset) (ty : FseType) (t : FsTree) (flags : FseFlags)
    (entry : Entry) : Option Fileset := do
  let fs := fs.setFlags entry fun _ => flags
  let (h, tree) ← avlAdd fuel fs.fseLink (fs.fsTree t) fs.key entry
  some { fs with
    fseLink := h
    fsTree := Function.update fs.fsTree t tree
    fsList := Function.update fs.fsList ty (entry :: fs.fsList ty) }

def filesetInsfilelist (fuel : ℕ) (fs : Fileset) (entry : Entry) : Option Fileset :=
  filesetInsList fuel fs .file .freeFiles ⟨.file, true, false, false, false, false⟩ entry

def filesetInsdirlist (fuel : ℕ) (fs : Fileset) (entry : Entry) : Option Fileset :=
  filesetInsList fuel fs .dir .dirs ⟨.dir, false, true, false, false, false⟩ entry

def filesetInsleafdirlist (fuel : ℕ) (fs : Fileset) (entry : Entry) : Option Fileset :=
  filesetInsList fuel fs .leafdir .freeLeafDirs ⟨.leafdir, true, false, false, false, false⟩ entry

/-- The index that a new entry takes from the idle count, and its parent. -/
def setIndex (fs : Fileset) (entry : Entry) (index : ℤ) (parent : Option Entry) : Fileset :=
  fs.setFse entry fun n => { n with fseIndex := index.toNat, fseParent := parent }

def filesetPopulateFile (smp : Samples) (fuel : ℕ) (s : Shm) (parent : Option Entry)
    (serial : ℕ) : Option (FilebenchRet × Shm) :=
  match ipcMallocEntry smp s with
  | (none, s) => some (.error, s)
  | (some entry, s) => do
    let index := s.fs.fsIdle .file
    let fs ← filesetInsfilelist fuel (setIndex (s.fs.addIdle .file 1) entry index parent) entry
    match ipcPathalloc smp ⟨fs, s.requests⟩ entry (fmt08d serial) with
    | (false, s) => some (.error, s)
    | (true, s) =>
      let size := smp.fseSize s.fs.fsRealfiles
      let fs := s.fs.setFse entry fun n => { n with fseSize := size }
      some (.ok, ⟨{ fs with fsBytes := fs.fsBytes + size, fsRealfiles := fs.fsRealfiles + 1 },
        s.requests⟩)

def filesetPopulateLeafdir (smp : Samples) (fuel : ℕ) (s : Shm) (parent : Option Entry)
    (serial : ℕ) : Option (FilebenchRet × Shm) :=
  match ipcMallocEntry smp s with
  | (none, s) => some (.error, s)
  | (some entry, s) => do
    let index := s.fs.fsIdle .leafdir
    let fs ←
      filesetInsleafdirlist fuel (setIndex (s.fs.addIdle .leafdir 1) entry index parent) entry
    match ipcPathalloc smp ⟨fs, s.requests⟩ entry (fmt08d serial) with
    | (false, s) => some (.error, s)
    | (true, s) =>
      some (.ok, ⟨{ s.fs with fsRealleafdirs := s.fs.fsRealleafdirs + 1 }, s.requests⟩)

/-- The creation of the directory node. -/
def filesetPopulateDirnode (smp : Samples) (fuel : ℕ) (s : Shm) (parent : Option Entry)
    (serial : ℕ) : Option (Option Entry × Shm) :=
  match ipcMallocEntry smp s with
  | (none, s) => some (none, s)
  | (some entry, s) =>
    let index := s.fs.fsIdle .dir
    match ipcPathalloc smp ⟨s.fs.addIdle .dir 1, s.requests⟩ entry (fmt08d serial) with
    | (false, s) => some (none, s)
    | (true, s) => do
      let fs ← filesetInsdirlist fuel (setIndex s.fs entry index parent) entry
      some (some entry, ⟨fs, s.requests⟩)

/-- `for (i = 1; cond; i++)` with a body that may return from the function. -/
def forLoop (cond : ℕ → Shm → Bool) (body : ℕ → Shm → Option (FilebenchRet × Shm)) :
    ℕ → ℕ → Shm → Option (FilebenchRet × Shm)
  | 0, _, _ => none
  | fuel + 1, i, s =>
    if cond i s then do
      match ← body i s with
      | (.error, s) => some (.error, s)
      | (.ok, s) => forLoop cond body fuel (i + 1) s
    else some (.ok, s)

/-- The depth and the width that a directory works with: zero counts as one. -/
def Samples.depthAt (smp : Samples) (k : ℕ) : ℤ :=
  if smp.randepth k = 0 then 1 else smp.randepth k

def Samples.widthAt (smp : Samples) (k : ℕ) : ℚ :=
  if smp.ranwidth k = 0 then 1 else smp.ranwidth k

/-- A directory other than the root that is deep enough takes files and leaf directories. -/
def Samples.isleaf (smp : Samples) (parent : Option Entry) (k depth : ℕ) : Bool :=
  parent.isSome && decide (smp.depthAt k ≤ depth)

/-- Whether the width admits an `i`-th member. The sum is one of doubles. -/
def Samples.admits (smp : Samples) (parent : Option Entry) (k i : ℕ) : Bool :=
  parent.isNone || decide ((i : ℚ) < addDouble (smp.widthAt k) 1)

/-- The creation of a directory with all that is below it. -/
def filesetPopulateSubdir (smp : Samples) :
    ℕ → Shm → Option Entry → ℕ → ℕ → Option (FilebenchRet × Shm)
  | 0, _, _, _, _ => none
  | fuel + 1, s, parent, serial, depth => do
    let depth := depth + 1
    match ← filesetPopulateDirnode smp fuel s parent serial with
    | (none, s) => some (.error, s)
    | (some entry, s) =>
      let k := s.fs.key entry
      match ← forLoop
          (fun i s => smp.admits parent k i && decide (s.fs.fsRealfiles < s.fs.fsConstentries))
          (fun i s =>
            if smp.isleaf parent k depth then filesetPopulateFile smp fuel s (some entry) i
            else filesetPopulateSubdir smp fuel s (some entry) i depth) fuel 1 s with
      | (.error, s) => some (.error, s)
      | (.ok, s) =>
        forLoop
          (fun i s =>
            smp.admits parent k i && decide (s.fs.fsRealleafdirs < s.fs.fsConstleafdirs))
          (fun i s =>
            if smp.isleaf parent k depth then filesetPopulateLeafdir smp fuel s (some entry) i
            else filesetPopulateSubdir smp fuel s (some entry) i depth) fuel 1 s

/-- What a populate resets before the recursion. -/
def resetFileset (fs : Fileset) (entries leafdirs : ℕ) : Fileset :=
  { fs with
    fsConstentries := entries
    fsConstleafdirs := leafdirs
    fsIdle := fun _ => 0
    fsTree := fun _ => avlCreate }

/-- `entries` and `leafdirs` are the values that the two attributes, possibly random, deliver. -/
def filesetPopulate (smp : Samples) (fuel : ℕ) (s : Shm) (entries leafdirs : ℕ) :
    Option (FilebenchRet × Shm) :=
  if 0 < s.fs.fsBytes then some (.ok, s)
  else filesetPopulateSubdir smp fuel ⟨resetFileset s.fs entries leafdirs, s.requests⟩ none 1 0

end Filebench
