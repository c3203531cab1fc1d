import Filebench.Fileset.Paths
import Filebench.Fileset.Run

/-! # Deleting all filesets

The pools of shared memory behind the filesets, and the loop that gives them back. It runs along
`fse_next`, which nothing sets, and begins with the list of files. The address of an entry in
the model is the number of its object in the pool. -/
namespace Filebench

open Fuel

/-- `FILEBENCH_FILESET` and `FILEBENCH_FILESETENTRY` -/
inductive IpcType where
  | fileset
  | filesetentry
  deriving DecidableEq, Repr

/-- The address of the first object of each pool, and the size of an object. -/
structure IpcLayout where
  base : IpcType → ℕ
  size : IpcType → ℕ
  size_pos : ∀ type, 0 < size type

def IpcLayout.addr (lay : IpcLayout) (type : IpcType) (item : ℕ) : ℕ :=
  lay.base type + item * lay.size type

/-- A fileset and the number of its object. -/
structure ShmFileset where
  item : ℕ
  fs : Fileset

/-- `freed` counts how often each object was given back. -/
structure FilebenchShm where
  shmFilesetlist : List ShmFileset
  shmBitmap : IpcType → ℕ → Bool
  freed : IpcType → ℕ → ℕ

/-- The number of the object comes from its address. -/
def ipcFree (lay : IpcLayout) (type : IpcType) (addr : Option ℕ) (shm : FilebenchShm) :
    FilebenchShm :=
  match addr with
  | none => shm
  | some addr =>
    let item := (addr - lay.base type) / lay.size type
    { shm with
      shmBitmap := fun ty i => if ty = type ∧ i = item then false else shm.shmBitmap ty i
      freed := fun ty i => shm.freed ty i + if ty = type ∧ i = item then 1 else 0 }

def filesetDeleteLoop (lay : IpcLayout) (fs : Fileset) :
    ℕ → Option Entry → FilebenchShm → Option FilebenchShm
  | _, none, shm => some shm
  | 0, some _, _ => none
  | fuel + 1, some entry, shm =>
    let nextEntry := (fs.fse entry).fseNext
    match (fs.flags entry).type with
    | .file | .leafdir | .dir =>
      filesetDeleteLoop lay fs fuel nextEntry
        (ipcFree lay .filesetentry (lay.addr .filesetentry entry) shm)

def filesetDeleteFileset (lay : IpcLayout) (fuel : ℕ) (fileset : ShmFileset)
    (shm : FilebenchShm) : Option FilebenchShm := do
  let shm ← filesetDeleteLoop lay fileset.fs fuel (fileset.fs.fsList .file).head? shm
  some (ipcFree lay .fileset (lay.addr .fileset fileset.item) shm)

def filesetDeleteFilesets (lay : IpcLayout) (fuel : ℕ) :
    List ShmFileset → FilebenchShm → Option FilebenchShm
  | [], shm => some shm
  | fileset :: list, shm => do
    let shm ← filesetDeleteFileset lay fuel fileset shm
    filesetDeleteFilesets lay fuel list shm

/-- The files on disk go as well, which is no matter of the pools. -/
def filesetDeleteAllFilesets (lay : IpcLayout) (fuel : ℕ) (shm : FilebenchShm) :
    Option FilebenchShm := do
  let shm ← filesetDeleteFilesets lay fuel shm.shmFilesetlist shm
  some { shm with shmFilesetlist := [] }

/-- Filesets that were populated one after the other, from `n` requests for shared memory on,
and used since. -/
inductive PopulatedList : ℕ → List ShmFileset → Prop where
  | nil (n : ℕ) : PopulatedList n []
  | cons {smp : Samples} {fuel n E L item : ℕ} {s : Shm} {fs : Fileset} {list : List ShmFileset}
      (hpop : filesetPopulate smp fuel (newShm n) E L = some (.ok, s)) (hrun : FsRun s.fs fs)
      (hlist : PopulatedList s.requests list) : PopulatedList n (⟨item, fs⟩ :: list)

/-- Every object behind the filesets and their entries is given back, each once. -/
structure FreedOnce (list : List ShmFileset) (shm : FilebenchShm) : Prop where
  fileset : ∀ f ∈ list, shm.freed .fileset f.item = 1 ∧ shm.shmBitmap .fileset f.item = false
  entry : ∀ f ∈ list, ∀ e ∈ f.fs.entries,
    shm.freed .filesetentry e = 1 ∧ shm.shmBitmap .filesetentry e = false

/-! ## What the loop gives back -/

theorem IpcLayout.item_addr (lay : IpcLayout) (type : IpcType) (item : ℕ) :
    (lay.addr type item - lay.base type) / lay.size type = item := by
  rw [addr, Nat.add_sub_cancel_left, Nat.mul_div_cancel _ (lay.size_pos type)]

theorem ipcFree_addr_freed (lay : IpcLayout) (type : IpcType) (item : ℕ) (shm : FilebenchShm)
    (ty : IpcType) (i : ℕ) :
    (ipcFree lay type (lay.addr type item) shm).freed ty i =
      shm.freed ty i + if ty = type ∧ i = item then 1 else 0 := by
  simp [ipcFree, lay.item_addr]

/-- How often the deletion of one fileset gives an object back: the fileset itself and the first
entry on its list of files, no other. -/
def ShmFileset.gives (f : ShmFileset) : IpcType → ℕ → ℕ
  | .fileset, i => if i = f.item then 1 else 0
  | .filesetentry, i => if some i = (f.fs.fsList .file).head? then 1 else 0

/-- Nothing has linked the entries through `fse_next`. -/
def NextNull (fs : Fileset) : Prop := ∀ e ∈ fs.entries, (fs.fse e).fseNext = none

section delete

variable (lay : IpcLayout)

theorem filesetDeleteLoop_returns {fs : Fileset} (hnext : NextNull fs) (shm : FilebenchShm) :
    ∃ shm', Returns
        (fun fuel => filesetDeleteLoop lay fs fuel (fs.fsList .file).head? shm) shm' ∧
      ∀ ty i, shm'.freed ty i = shm.freed ty i +
        if ty = .filesetentry ∧ some i = (fs.fsList .file).head? then 1 else 0 := by
  cases hhead : (fs.fsList .file).head? with
  | none => exact ⟨shm, returns_of_const fun fuel => by cases fuel <;> rfl, by simp⟩
  | some e =>
    have he : e ∈ fs.entries :=
      Fileset.mem_entries.mpr ⟨.file, List.mem_of_mem_head? (by rw [hhead]; rfl)⟩
    refine ⟨ipcFree lay .filesetentry (lay.addr .filesetentry e) shm, ⟨1, ?_⟩, ?_⟩
    · intro fuel hfuel
      obtain ⟨fuel, rfl⟩ := Nat.exists_eq_add_of_le' hfuel
      have hstop : ∀ s, filesetDeleteLoop lay fs fuel none s = some s := by
        cases fuel <;> exact fun _ => rfl
      simp only [filesetDeleteLoop, hnext e he, hstop]
      split <;> rfl
    · intro ty i
      rw [ipcFree_addr_freed]
      simp

theorem filesetDeleteFileset_returns {f : ShmFileset} (hnext : NextNull f.fs)
    (shm : FilebenchShm) :
    ∃ shm', Returns (fun fuel => filesetDeleteFileset lay fuel f shm) shm' ∧
      ∀ ty i, shm'.freed ty i = shm.freed ty i + f.gives ty i := by
  obtain ⟨shm₁, hret, hfreed⟩ := filesetDeleteLoop_returns lay hnext shm
  refine ⟨_, hret.bind (returns_of_const fun _ => rfl), ?_⟩
  intro ty i
  rw [ipcFree_addr_freed, hfreed]
  cases ty <;> simp [ShmFileset.gives]

theorem filesetDeleteFilesets_returns {list : List ShmFileset}
    (hnext : ∀ f ∈ list, NextNull f.fs) (shm : FilebenchShm) :
    ∃ shm', Returns (fun fuel => filesetDeleteFilesets lay fuel list shm) shm' ∧
      ∀ ty i, shm'.freed ty i = shm.freed ty i + (list.map fun f => f.gives ty i).sum := by
  induction list generalizing shm with
  | nil => exact ⟨shm, returns_of_const fun _ => rfl, by simp⟩
  | cons f list ih =>
    obtain ⟨shm₁, hret₁, hfreed₁⟩ :=
      filesetDeleteFileset_returns lay (hnext f List.mem_cons_self) shm
    obtain ⟨shm₂, hret₂, hfreed₂⟩ := ih (fun g hg => hnext g (List.mem_cons_of_mem f hg)) shm₁
    refine ⟨shm₂, hret₁.bind hret₂, ?_⟩
    intro ty i
    rw [hfreed₂, hfreed₁, List.map_cons, List.sum_cons, add_assoc]

end delete

/-! ## Populated filesets -/

theorem Adds.new_entry {s s' : Shm} (h : Adds s s') {e : Entry} (he : e ∈ s'.fs.entries) :
    e ∈ s.fs.entries ∨ s.requests < e := by
  induction h with
  | refl => exact .inl he
  | tail hrun hstep ih =>
    obtain ⟨ty, parent, serial, hadd, -⟩ := hstep
    rcases hadd.mem_entries.mp he with rfl | he
    · exact .inr (Nat.lt_succ_of_le (Adds.requests_le hrun))
    · exact ih he

theorem Adds.nextNull {s s' : Shm} (h : Adds s s') (hI : PopInv s) (hs : NextNull s.fs) :
    NextNull s'.fs := by
  induction h with
  | refl => exact hs
  | tail hrun hstep ih =>
    obtain ⟨ty, parent, serial, hadd, -⟩ := hstep
    intro e he
    rcases hadd.mem_entries.mp he with rfl | he
    · obtain ⟨size, hnew, -⟩ := hadd.new
      rw [hnew]
    · rw [hadd.old e ((hI.adds hrun).entries_ne he)]
      exact ih e he

section populated

variable {smp : Samples} {fuel n E L : ℕ} {s : Shm} {fs : Fileset}

theorem filesetPopulate_nextNull (hpop : filesetPopulate smp fuel (newShm n) E L = some (.ok, s))
    (hrun : FsRun s.fs fs) : NextNull fs := by
  have hsame := (hrun.inv (filesetPopulate_populated hpop).inv.fsInv).2
  have hnull := (filesetPopulate_adds hpop).nextNull (emptyShm_popInv n E L)
    fun e he => absurd he (emptyShm_entries n E L e)
  intro e he
  rw [hsame.next]
  exact hnull e (hsame.entries ▸ he)

theorem filesetPopulate_range (hpop : filesetPopulate smp fuel (newShm n) E L = some (.ok, s))
    (hrun : FsRun s.fs fs) {e : Entry} (he : e ∈ fs.entries) : n < e ∧ e ≤ s.requests := by
  have hP := (filesetPopulate_populated hpop).inv
  rw [(hrun.inv hP.fsInv).2.entries] at he
  rcases (filesetPopulate_adds hpop).new_entry he with h | h
  · exact absurd h (emptyShm_entries n E L e)
  · exact ⟨h, hP.le_requests he⟩

/-- The root directory is on the list of directories and on no other. -/
theorem filesetPopulate_root (hpop : filesetPopulate smp fuel (newShm n) E L = some (.ok, s))
    (hrun : FsRun s.fs fs) : ∃ e ∈ fs.fsList .dir, e ∉ fs.fsList .file := by
  have hP := (filesetPopulate_populated hpop).inv
  have hinv := (hrun.inv hP.fsInv)
  obtain ⟨s₁, hadd, hrest⟩ := filesetPopulateSubdir_adds smp fuel
    ((filesetPopulate_new smp fuel n E L).symm.trans hpop) (by simp)
  have hroot : n + 1 ∈ fs.fsList .dir := by
    rw [hinv.2.list]
    exact hrest.list_mono hadd.entry_mem
  refine ⟨n + 1, hroot, ?_⟩
  intro hfile
  have := (hinv.1.typed .dir _ hroot).symm.trans (hinv.1.typed .file _ hfile)
  cases this

end populated

theorem PopulatedList.nextNull {n : ℕ} {list : List ShmFileset} (h : PopulatedList n list) :
    ∀ f ∈ list, NextNull f.fs := by
  induction h with
  | nil => simp
  | cons hpop hrun _ ih =>
    intro f hf
    rcases List.mem_cons.mp hf with rfl | hf
    · exact filesetPopulate_nextNull hpop hrun
    · exact ih f hf

theorem PopulatedList.lt_entry {n : ℕ} {list : List ShmFileset} (h : PopulatedList n list) :
    ∀ f ∈ list, ∀ e ∈ f.fs.entries, n < e := by
  induction h with
  | nil => simp
  | cons hpop hrun _ ih =>
    intro f hf e he
    rcases List.mem_cons.mp hf with rfl | hf
    · exact (filesetPopulate_range hpop hrun he).1
    · have hn := (filesetPopulate_adds hpop).requests_le
      exact lt_of_le_of_lt hn (ih f hf e he)

/-- Entries that are the first of no list of files are not given back. -/
theorem gives_eq_zero {list : List ShmFileset} {e : Entry}
    (h : ∀ f ∈ list, e ∉ f.fs.fsList .file) :
    (list.map fun f => f.gives .filesetentry e).sum = 0 := by
  refine List.sum_eq_zero ?_
  intro k hk
  obtain ⟨f, hf, rfl⟩ := List.mem_map.mp hk
  refine if_neg fun hhead => h f hf (List.mem_of_mem_head? ?_)
  rw [← hhead]
  rfl

/-- The first of populated filesets keeps its root directory. -/
theorem PopulatedList.leaks {n : ℕ} {f : ShmFileset} {list : List ShmFileset}
    (h : PopulatedList n (f :: list)) :
    ∃ e ∈ f.fs.entries, ∀ g ∈ f :: list, e ∉ g.fs.fsList .file := by
  cases h with
  | cons hpop hrun hlist =>
    obtain ⟨e, hdir, hfile⟩ := filesetPopulate_root hpop hrun
    refine ⟨e, Fileset.mem_entries.mpr ⟨.dir, hdir⟩, ?_⟩
    intro g hg
    rcases List.mem_cons.mp hg with rfl | hg
    · exact hfile
    · intro he
      have hlt := hlist.lt_entry g hg e (Fileset.mem_entries.mpr ⟨.file, he⟩)
      have hle := (filesetPopulate_range hpop hrun (Fileset.mem_entries.mpr ⟨.dir, hdir⟩)).2
      exact absurd hle (not_le.mpr hlt)

theorem PopulatedList.not_freedOnce {n : ℕ} {f : ShmFileset} {list : List ShmFileset}
    (h : PopulatedList n (f :: list)) {shm : FilebenchShm}
    (hfreed : ∀ ty i, shm.freed ty i = ((f :: list).map fun g => g.gives ty i).sum) :
    ¬ FreedOnce (f :: list) shm := by
  intro hall
  obtain ⟨e, he, hnone⟩ := h.leaks
  have hone := (hall.entry f List.mem_cons_self e he).1
  have hzero := hfreed .filesetentry e
  rw [gives_eq_zero hnone, hone] at hzero
  cases hzero

/-- The deletion gives back exactly what populated filesets took when there are none. -/
theorem filesetDeleteAllFilesets_freedOnce (lay : IpcLayout) {shm : FilebenchShm} {n : ℕ}
    (hpop : PopulatedList n shm.shmFilesetlist)
    (hfreed : ∀ ty i, shm.freed ty i = 0) :
    ∃ shm', Returns (fun fuel => filesetDeleteAllFilesets lay fuel shm) shm' ∧
      shm'.shmFilesetlist = [] ∧
      (FreedOnce shm.shmFilesetlist shm' ↔ shm.shmFilesetlist = []) := by
  obtain ⟨shm₁, hret, hgives⟩ := filesetDeleteFilesets_returns lay hpop.nextNull shm
  refine ⟨_, hret.bind (returns_of_const fun _ => rfl), rfl, ?_⟩
  cases hlist : shm.shmFilesetlist with
  | nil =>
    constructor
    · intro _
      rfl
    · intro _
      constructor <;> simp
  | cons f list =>
    rw [hlist] at hpop hgives
    constructor
    · intro hall
      refine absurd hall (hpop.not_freedOnce fun ty i => ?_)
      rw [← zero_add (List.sum _), ← hfreed ty i]
      exact hgives ty i
    · intro hnil
      cases hnil

/-- A session in which nothing was given back yet. -/
def FilebenchShm.session (list : List ShmFileset) : FilebenchShm :=
  ⟨list, fun _ _ => true, fun _ _ => 0⟩

def unitLayout : IpcLayout := ⟨fun _ => 0, fun _ => 1, fun _ => Nat.one_pos⟩

theorem populatedList_three : ∃ s : Shm, PopulatedList 0 [⟨0, s.fs⟩] := by
  obtain ⟨fuel, s, hpop⟩ := filesetPopulate_const 3 1
  exact ⟨s, .cons hpop .refl (.nil _)⟩

theorem filesetDeleteAllFilesets_freedOnce_three : ∃ (s : Shm) (shm' : FilebenchShm),
    Returns (fun fuel => filesetDeleteAllFilesets unitLayout fuel (.session [⟨0, s.fs⟩])) shm' ∧
      shm'.shmFilesetlist = [] ∧
      (FreedOnce [⟨0, s.fs⟩] shm' ↔ ([⟨0, s.fs⟩] : List ShmFileset) = []) := by
  obtain ⟨s, hlist⟩ := populatedList_three
  exact ⟨s, @filesetDeleteAllFilesets_freedOnce unitLayout (.session [⟨0, s.fs⟩]) 0 hlist
    fun _ _ => rfl⟩

/-- Of a fileset with three files and a leaf directory, the root directory is lost. -/
theorem filesetDeleteAllFilesets_leak : ∃ f shm', PopulatedList 0 [f] ∧
    Returns (fun fuel => filesetDeleteAllFilesets unitLayout fuel (.session [f])) shm' ∧
    ¬ FreedOnce [f] shm' := by
  obtain ⟨s, hlist⟩ := populatedList_three
  obtain ⟨shm₁, hret, hgives⟩ :=
    filesetDeleteFilesets_returns unitLayout hlist.nextNull (.session [⟨0, s.fs⟩])
  refine ⟨_, _, hlist, hret.bind (returns_of_const fun _ => rfl), ?_⟩
  refine hlist.not_freedOnce fun ty i => ?_
  exact (hgives ty i).trans (zero_add _)

end Filebench
