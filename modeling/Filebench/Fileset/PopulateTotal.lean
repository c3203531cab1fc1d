import Filebench.Fileset.PopulateSpec

/-! # The first populate

A first populate that succeeds leaves exactly the numbers asked for. It succeeds when no
allocation fails, every width admits a first member and the depths are bounded: every directory
below the root then adds at least one file while files are missing, and at least one leaf
directory while those are missing. -/
namespace Filebench

open Avl Fuel Double

theorem Adds.consts {s s' : Shm} (h : Adds s s') :
    s'.fs.fsConstentries = s.fs.fsConstentries ∧ s'.fs.fsConstleafdirs = s.fs.fsConstleafdirs := by
  induction h with
  | refl => exact ⟨rfl, rfl⟩
  | tail _ hstep ih =>
    obtain ⟨ty, parent, serial, hadd, -⟩ := hstep
    exact ⟨hadd.entries.trans ih.1, hadd.leafdirs.trans ih.2⟩

theorem Adds.reals_le {s s' : Shm} (h : Adds s s') :
    s.fs.fsRealfiles ≤ s'.fs.fsRealfiles ∧ s.fs.fsRealleafdirs ≤ s'.fs.fsRealleafdirs := by
  induction h with
  | refl => exact ⟨le_rfl, le_rfl⟩
  | tail _ hstep ih =>
    obtain ⟨ty, parent, serial, hadd, -⟩ := hstep
    rw [hadd.realfiles, hadd.realleafdirs]
    omega

/-- A new fileset, after any number of earlier requests for shared memory. -/
def newShm (requests : ℕ) : Shm := ⟨Fileset.zero, requests⟩

/-- The state in which the first populate starts its recursion. -/
def emptyShm (requests entries leafdirs : ℕ) : Shm :=
  ⟨resetFileset Fileset.zero entries leafdirs, requests⟩

theorem emptyShm_popInv (requests entries leafdirs : ℕ) :
    PopInv (emptyShm requests entries leafdirs) where
  held t := ⟨[], holds_create _ _, by simp [Fileset.entries, emptyShm, resetFileset, Fileset.zero]⟩
  stack := rfl
  address ty e he := by simp [emptyShm, resetFileset, Fileset.zero] at he
  index ty := rfl
  idle ty := rfl
  flags ty e he := by simp [emptyShm, resetFileset, Fileset.zero] at he
  openCnt e he := by simp [Fileset.entries, emptyShm, resetFileset, Fileset.zero] at he
  parent e he := by simp [Fileset.entries, emptyShm, resetFileset, Fileset.zero] at he
  realfiles := rfl
  realleafdirs := rfl
  files_le := Nat.zero_le _
  leafdirs_le := Nat.zero_le _
  bytes := rfl

theorem filesetPopulate_new (smp : Samples) (fuel n E L : ℕ) :
    filesetPopulate smp fuel (newShm n) E L =
      filesetPopulateSubdir smp fuel (emptyShm n E L) none 1 0 := if_neg (lt_irrefl _)

/-- What a successful first populate leaves. -/
structure Populated (s : Shm) (E L : ℕ) : Prop where
  inv : PopInv s
  constentries : s.fs.fsConstentries = E
  constleafdirs : s.fs.fsConstleafdirs = L
  files : (s.fs.fsList .file).length = E
  leafdirs : (s.fs.fsList .leafdir).length = L

section firstPopulate

variable {smp : Samples} {fuel n E L : ℕ} {s : Shm}

theorem filesetPopulate_adds (h : filesetPopulate smp fuel (newShm n) E L = some (.ok, s)) :
    Adds (emptyShm n E L) s := by
  rw [filesetPopulate_new] at h
  obtain ⟨s₁, hadd, hrest⟩ := filesetPopulateSubdir_adds smp fuel h (by simp)
  exact .head ⟨_, _, _, hadd, by simp, by simp, by simp⟩ hrest

theorem filesetPopulate_populated (h : filesetPopulate smp fuel (newShm n) E L = some (.ok, s)) :
    Populated s E L := by
  have hadds := filesetPopulate_adds h
  have hinv := (emptyShm_popInv n E L).adds hadds
  have hE : s.fs.fsConstentries = E := hadds.consts.1
  have hL : s.fs.fsConstleafdirs = L := hadds.consts.2
  rw [filesetPopulate_new] at h
  obtain ⟨m, s₁, s₂, -, hadd, hfiles, hleaf⟩ := filesetPopulateSubdir_ok h
  have hadds₂ := leafdirLoop_adds (filesetPopulateSubdir_adds smp m)
    ((fileLoop_adds (filesetPopulateSubdir_adds smp m) hadd.entry_mem hfiles).list_mono
      hadd.entry_mem) hleaf
  -- the loops of the root end only when the numbers are reached
  obtain ⟨_, -, -, hf⟩ := forLoop_ok (P := fun _ _ => True) (fun _ _ _ _ _ _ => trivial) hfiles
    trivial
  obtain ⟨_, -, -, hl⟩ := forLoop_ok (P := fun _ _ => True) (fun _ _ _ _ _ _ => trivial) hleaf
    trivial
  simp only [Samples.admits, Option.isNone_none, Bool.true_or, Bool.true_and,
    decide_eq_false_iff_not, not_lt] at hf hl
  refine ⟨hinv, hE, hL, ?_, ?_⟩
  · have hconst := hadds₂.consts.1
    have hmono := hadds₂.reals_le.1
    have hle := hinv.files_le
    rw [← hinv.realfiles]
    omega
  · have hle := hinv.leafdirs_le
    rw [← hinv.realleafdirs]
    omega

end firstPopulate

/-! ## Progress -/

/-- Every width admits a first member. -/
def Samples.Wide (smp : Samples) : Prop := ∀ k, 1 < addDouble (smp.widthAt k) 1

theorem Samples.Wide.admits_one {smp : Samples} (h : smp.Wide) (parent : Option Entry) (k : ℕ) :
    smp.admits parent k 1 = true := by
  simp [Samples.admits, h k]

/-- A loop that increases a number while it is too small leaves it increased. -/
theorem forLoop_progress {cond : ℕ → Shm → Bool} {body : ℕ → Shm → Option (FilebenchRet × Shm)}
    {f : Shm → ℕ} (hstep : ∀ i u u', cond i u = true → body i u = some (.ok, u') → f u < f u')
    {fuel i : ℕ} {s s' : Shm} (h : forLoop cond body fuel i s = some (.ok, s'))
    (hfirst : cond i s = true) : f s < f s' := by
  obtain ⟨i', -, hP, hc⟩ := forLoop_ok (P := fun j u => (j = i ∧ u = s) ∨ f s < f u)
    (fun j u u' hP hcond hbody => .inr (by
      have := hstep j u u' hcond hbody
      rcases hP with ⟨-, rfl⟩ | hlt
      · exact this
      · exact hlt.trans this)) h (.inl ⟨rfl, rfl⟩)
  rcases hP with ⟨rfl, rfl⟩ | hlt
  · rw [hfirst] at hc
    cases hc
  · exact hlt

/-- A call below the root adds a file while files are missing, and a leaf directory while leaf
directories are missing. -/
theorem filesetPopulateSubdir_progress {smp : Samples} (hw : smp.Wide) {fuel : ℕ} {s s' : Shm}
    {parent : Option Entry} {serial depth : ℕ}
    (h : filesetPopulateSubdir smp fuel s parent serial depth = some (.ok, s')) :
    (s.fs.fsRealfiles < s.fs.fsConstentries → s.fs.fsRealfiles < s'.fs.fsRealfiles) ∧
    (s.fs.fsRealleafdirs < s.fs.fsConstleafdirs →
      s.fs.fsRealleafdirs < s'.fs.fsRealleafdirs) := by
  induction fuel generalizing s s' parent serial depth with
  | zero => cases h
  | succ fuel ih =>
    obtain ⟨n, s₁, s₂, hn, hadd, hfiles, hleaf⟩ := filesetPopulateSubdir_ok h
    obtain rfl : fuel = n := by omega
    have hsub : SubdirAdds smp fuel := filesetPopulateSubdir_adds smp fuel
    have hadds := fileLoop_adds hsub hadd.entry_mem hfiles
    have hadds₂ := leafdirLoop_adds hsub (hadds.list_mono hadd.entry_mem) hleaf
    have hreal : s₁.fs.fsRealfiles = s.fs.fsRealfiles := by simp [hadd.realfiles]
    have hrealleaf : s₁.fs.fsRealleafdirs = s.fs.fsRealleafdirs := by simp [hadd.realleafdirs]
    constructor
    · intro hlt
      rw [← hreal, ← hadd.entries] at hlt
      rw [← hreal]
      refine lt_of_lt_of_le ?_ hadds₂.reals_le.1
      refine forLoop_progress (f := fun u => u.fs.fsRealfiles) (fun i u u' hc hbody => ?_) hfiles
        (by simp [hw.admits_one, hlt])
      simp only [Bool.and_eq_true, decide_eq_true_eq] at hc
      split_ifs at hbody with hl
      · simp [(filesetPopulateFile_ok hbody).realfiles]
      · exact (ih hbody).1 hc.2
    · intro hlt
      have hle := hadds.reals_le.2
      rw [← hrealleaf, ← hadd.leafdirs] at hlt
      rw [← hrealleaf]
      by_cases hmore : s₂.fs.fsRealleafdirs < s₂.fs.fsConstleafdirs
      · refine lt_of_le_of_lt hle ?_
        refine forLoop_progress (f := fun u => u.fs.fsRealleafdirs) (fun i u u' hc hbody => ?_)
          hleaf (by simp [hw.admits_one, hmore])
        simp only [Bool.and_eq_true, decide_eq_true_eq] at hc
        split_ifs at hbody with hl
        · simp [(filesetPopulateLeafdir_ok hbody).realleafdirs]
        · exact (ih hbody).2 hc.2
      · rw [not_lt, hadds.consts.2] at hmore
        exact (hlt.trans_le hmore).trans_le hadds₂.reals_le.2

/-! ## Termination -/

theorem ipcMallocEntry_of_alloc {smp : Samples} {s : Shm} (h : smp.alloc s.requests = true) :
    ipcMallocEntry smp s =
      (some (s.requests + 1), ⟨zeroEntry s.fs (s.requests + 1), s.requests + 1⟩) := by
  simp [ipcMallocEntry, h]

theorem ipcPathalloc_of_alloc {smp : Samples} {s : Shm} {e : Entry} {p : CString}
    (h : smp.alloc s.requests = true) :
    ipcPathalloc smp s e p =
      (true, ⟨s.fs.setFse e fun n => { n with fsePath := some p }, s.requests + 1⟩) := by
  simp [ipcPathalloc, h]

theorem filesetInsList_returns {fs : Fileset} {ty : FseType} {t : FsTree} {flags : FseFlags}
    {entry : Entry} {r : Links Entry × AvlTree Entry}
    (h : Returns (fun fuel => avlAdd fuel fs.fseLink (fs.fsTree t) fs.key entry) r) :
    ∃ fs', Returns (fun fuel => filesetInsList fuel fs ty t flags entry) fs' := by
  refine ⟨_, Returns.bind (f := fun fuel => avlAdd fuel (fs.setFlags entry fun _ => flags).fseLink
    ((fs.setFlags entry fun _ => flags).fsTree t) (fs.setFlags entry fun _ => flags).key entry)
    (b := r) ?_ (returns_of_const fun _ => rfl)⟩
  rw [setFlags_key]
  exact h

/-- The insertion of an entry that was just allocated and indexed. -/
theorem PopInv.filesetInsList_returns {s : Shm} (hI : PopInv s) (fs : Fileset) (ty : FseType)
    (hlink : fs.fseLink = Function.update s.fs.fseLink (s.requests + 1) (some zeroLink))
    (htree : fs.fsTree = s.fs.fsTree)
    (hkey : fs.key = Function.update s.fs.key (s.requests + 1) (s.fs.fsIdle ty).toNat) :
    ∃ fs', Returns (fun fuel => filesetInsList fuel fs ty (homeTree (firstFlags ty))
      (firstFlags ty) (s.requests + 1)) fs' := by
  obtain ⟨h', tree', -, -, hret, -⟩ := hI.avlAdd_new ty
  rw [← hlink, ← htree, ← hkey] at hret
  exact Filebench.filesetInsList_returns hret

section total

variable {smp : Samples} {s : Shm}

theorem filesetPopulateFile_returns (hA : ∀ n, smp.alloc n = true) (hI : PopInv s)
    (parent : Option Entry) (serial : ℕ) :
    ∃ s', Returns (fun fuel => filesetPopulateFile smp fuel s parent serial) (.ok, s') := by
  obtain ⟨fs, hins⟩ := hI.filesetInsList_returns
    (setIndex ((zeroEntry s.fs (s.requests + 1)).addIdle .file 1) (s.requests + 1)
      (s.fs.fsIdle .file) parent) .file rfl rfl (setIndex_zeroEntry_key ..)
  simp only [filesetPopulateFile, ipcMallocEntry_of_alloc (hA _), ipcPathalloc_of_alloc (hA _)]
  exact ⟨_, Returns.bind hins (returns_of_const fun _ => rfl)⟩

theorem filesetPopulateLeafdir_returns (hA : ∀ n, smp.alloc n = true) (hI : PopInv s)
    (parent : Option Entry) (serial : ℕ) :
    ∃ s', Returns (fun fuel => filesetPopulateLeafdir smp fuel s parent serial) (.ok, s') := by
  obtain ⟨fs, hins⟩ := hI.filesetInsList_returns
    (setIndex ((zeroEntry s.fs (s.requests + 1)).addIdle .leafdir 1) (s.requests + 1)
      (s.fs.fsIdle .leafdir) parent) .leafdir rfl rfl (setIndex_zeroEntry_key ..)
  simp only [filesetPopulateLeafdir, ipcMallocEntry_of_alloc (hA _), ipcPathalloc_of_alloc (hA _)]
  exact ⟨_, Returns.bind hins (returns_of_const fun _ => rfl)⟩

theorem filesetPopulateDirnode_returns (hA : ∀ n, smp.alloc n = true) (hI : PopInv s)
    (parent : Option Entry) (serial : ℕ) :
    ∃ s', Returns (fun fuel => filesetPopulateDirnode smp fuel s parent serial)
      (some (s.requests + 1), s') := by
  obtain ⟨fs, hins⟩ := hI.filesetInsList_returns
    (setIndex (((zeroEntry s.fs (s.requests + 1)).addIdle .dir 1).setFse (s.requests + 1)
      fun n => { n with fsePath := some (fmt08d serial) }) (s.requests + 1)
      (s.fs.fsIdle .dir) parent) .dir rfl rfl (setIndex_pathalloc_key ..)
  simp only [filesetPopulateDirnode, ipcMallocEntry_of_alloc (hA _), ipcPathalloc_of_alloc (hA _)]
  exact ⟨_, Returns.bind hins (returns_of_const fun _ => rfl)⟩

/-- A loop whose body always returns and decreases a number returns. -/
theorem forLoop_returns {cond : ℕ → Shm → Bool}
    {body : ℕ → ℕ → Shm → Option (FilebenchRet × Shm)} {P : Shm → Prop} {f : Shm → ℕ}
    (hstep : ∀ i u, P u → cond i u = true →
      ∃ u', Returns (fun fuel => body fuel i u) (.ok, u') ∧ P u' ∧ f u' < f u)
    (i : ℕ) (hP : P s) :
    ∃ s', P s' ∧ Returns (fun fuel => forLoop cond (body fuel) fuel i s) (.ok, s') := by
  -- the loop takes its own fuel apart from the fuel of the body
  suffices h : ∀ n i u, f u < n → P u → ∃ u', P u' ∧
      ∃ N, ∀ fb, N ≤ fb → ∀ fl, N ≤ fl → forLoop cond (body fb) fl i u = some (.ok, u') by
    obtain ⟨s', hs', N, hN⟩ := h (f s + 1) i s (Nat.lt_succ_self _) hP
    exact ⟨s', hs', N, fun fuel hfuel => hN fuel hfuel fuel hfuel⟩
  intro n
  induction n with
  | zero => intro i u hn; omega
  | succ n ih =>
    intro i u hn hu
    cases hc : cond i u with
    | false =>
      refine ⟨u, hu, 1, fun fb _ fl hfl => ?_⟩
      obtain ⟨fl, rfl⟩ := Nat.exists_eq_add_of_le' hfl
      simp [forLoop, hc]
    | true =>
      obtain ⟨u₁, ⟨M, hM⟩, hu₁, hlt⟩ := hstep i u hu hc
      obtain ⟨u', hu', N, hN⟩ := ih (i + 1) u₁ (by omega) hu₁
      refine ⟨u', hu', max M N + 1, fun fb hfb fl hfl => ?_⟩
      obtain ⟨fl, rfl⟩ := Nat.exists_eq_add_of_le' (m := 1) (n := fl) (by omega)
      simp [forLoop, hc, hM fb (by omega), hN fb (by omega) fl (by omega)]

/-- The calls below `entry` at the depth after `depth` return. -/
def SubdirReturns (smp : Samples) (depth : ℕ) : Prop :=
  ∀ u entry i, PopInv u → entry ∈ u.fs.fsList .dir →
    ∃ u', Returns (fun fuel => filesetPopulateSubdir smp fuel u (some entry) i depth) (.ok, u')

variable {parent : Option Entry} {k depth : ℕ} {entry : Entry}

theorem fileLoop_returns (hA : ∀ n, smp.alloc n = true) (hw : smp.Wide)
    (hrec : smp.isleaf parent k depth = false → SubdirReturns smp depth) (hI : PopInv s)
    (hentry : entry ∈ s.fs.fsList .dir) :
    ∃ s', (PopInv s' ∧ entry ∈ s'.fs.fsList .dir) ∧
      Returns (fun fuel => fileLoop smp fuel parent k depth entry s) (.ok, s') := by
  refine forLoop_returns (P := fun u => PopInv u ∧ entry ∈ u.fs.fsList .dir)
    (f := fun u => u.fs.fsConstentries - u.fs.fsRealfiles) (fun i u hu hc => ?_) 1 ⟨hI, hentry⟩
  simp only [Bool.and_eq_true, decide_eq_true_eq] at hc
  obtain ⟨u', hret⟩ : ∃ u', Returns (fun fuel =>
      if smp.isleaf parent k depth then filesetPopulateFile smp fuel u (some entry) i
      else filesetPopulateSubdir smp fuel u (some entry) i depth) (.ok, u') := by
    cases hl : smp.isleaf parent k depth with
    | true => simpa using filesetPopulateFile_returns hA hu.1 (some entry) i
    | false => simpa using hrec hl u entry i hu.1 hu.2
  obtain ⟨fuel, hrun⟩ := hret.run
  obtain ⟨hadds, hlt⟩ : Adds u u' ∧ u.fs.fsRealfiles < u'.fs.fsRealfiles := by
    split_ifs at hrun with hl
    · have hadd := filesetPopulateFile_ok hrun
      exact ⟨.single ⟨_, _, _, hadd, by simpa using hu.2, fun _ => hc.2, by simp⟩,
        by simp [hadd.realfiles]⟩
    · exact ⟨Adds.subdir (filesetPopulateSubdir_adds smp fuel) .refl hu.2 hrun,
        (filesetPopulateSubdir_progress hw hrun).1 hc.2⟩
  refine ⟨u', hret, ⟨hu.1.adds hadds, hadds.list_mono hu.2⟩, ?_⟩
  rw [hadds.consts.1]
  omega

theorem leafdirLoop_returns (hA : ∀ n, smp.alloc n = true) (hw : smp.Wide)
    (hrec : smp.isleaf parent k depth = false → SubdirReturns smp depth) (hI : PopInv s)
    (hentry : entry ∈ s.fs.fsList .dir) :
    ∃ s', (PopInv s' ∧ entry ∈ s'.fs.fsList .dir) ∧
      Returns (fun fuel => leafdirLoop smp fuel parent k depth entry s) (.ok, s') := by
  refine forLoop_returns (P := fun u => PopInv u ∧ entry ∈ u.fs.fsList .dir)
    (f := fun u => u.fs.fsConstleafdirs - u.fs.fsRealleafdirs) (fun i u hu hc => ?_) 1
    ⟨hI, hentry⟩
  simp only [Bool.and_eq_true, decide_eq_true_eq] at hc
  obtain ⟨u', hret⟩ : ∃ u', Returns (fun fuel =>
      if smp.isleaf parent k depth then filesetPopulateLeafdir smp fuel u (some entry) i
      else filesetPopulateSubdir smp fuel u (some entry) i depth) (.ok, u') := by
    cases hl : smp.isleaf parent k depth with
    | true => simpa using filesetPopulateLeafdir_returns hA hu.1 (some entry) i
    | false => simpa using hrec hl u entry i hu.1 hu.2
  obtain ⟨fuel, hrun⟩ := hret.run
  obtain ⟨hadds, hlt⟩ : Adds u u' ∧ u.fs.fsRealleafdirs < u'.fs.fsRealleafdirs := by
    split_ifs at hrun with hl
    · have hadd := filesetPopulateLeafdir_ok hrun
      exact ⟨.single ⟨_, _, _, hadd, by simpa using hu.2, by simp, fun _ => hc.2⟩,
        by simp [hadd.realleafdirs]⟩
    · exact ⟨Adds.subdir (filesetPopulateSubdir_adds smp fuel) .refl hu.2 hrun,
        (filesetPopulateSubdir_progress hw hrun).2 hc.2⟩
  refine ⟨u', hret, ⟨hu.1.adds hadds, hadds.list_mono hu.2⟩, ?_⟩
  rw [hadds.consts.2]
  omega

/-- A call returns when the calls it makes for subdirectories do. -/
theorem filesetPopulateSubdir_returns (hA : ∀ n, smp.alloc n = true) (hw : smp.Wide)
    (hI : PopInv s) (hparent : ∀ p, parent = some p → p ∈ s.fs.fsList .dir) (serial : ℕ)
    (hrec : smp.isleaf parent (s.fs.fsIdle .dir).toNat (depth + 1) = false →
      SubdirReturns smp (depth + 1)) :
    ∃ s', Returns (fun fuel => filesetPopulateSubdir smp fuel s parent serial depth) (.ok, s') := by
  obtain ⟨s₁, hnode⟩ := filesetPopulateDirnode_returns hA hI parent serial
  obtain ⟨m, hrun⟩ := hnode.run
  obtain ⟨-, hadd⟩ := filesetPopulateDirnode_some hrun
  have hI₁ : PopInv s₁ := hI.step ⟨_, _, _, hadd, hparent, by simp, by simp⟩
  have hkey : s₁.fs.key (s.requests + 1) = (s.fs.fsIdle .dir).toNat := by
    obtain ⟨size, hnew, -⟩ := hadd.new
    rw [Fileset.key, hnew]
  obtain ⟨s₂, ⟨hI₂, hentry₂⟩, hfiles⟩ := fileLoop_returns hA hw hrec hI₁ hadd.entry_mem
  obtain ⟨s₃, -, hleaf⟩ := leafdirLoop_returns hA hw hrec hI₂ hentry₂
  refine ⟨s₃, Returns.of_succ ?_⟩
  simp only [filesetPopulateSubdir]
  refine Returns.bind hnode ?_
  simp only [hkey]
  exact Returns.bind hfiles hleaf

/-- Below the root the recursion is bounded by the depths. -/
theorem subdirReturns_of_depth (hA : ∀ n, smp.alloc n = true) (hw : smp.Wide) {D : ℕ}
    (hD : ∀ k, smp.depthAt k ≤ D) (n : ℕ) : ∀ depth, D ≤ depth + n → SubdirReturns smp depth := by
  induction n with
  | zero =>
    intro depth hn u entry i hu hentry
    refine filesetPopulateSubdir_returns hA hw hu (by simpa using hentry) i fun hl => ?_
    have := hD (u.fs.fsIdle .dir).toNat
    simp only [Samples.isleaf, Option.isSome_some, Bool.true_and, decide_eq_false_iff_not] at hl
    omega
  | succ n ih =>
    intro depth hn u entry i hu hentry
    exact filesetPopulateSubdir_returns hA hw hu (by simpa using hentry) i
      fun _ => ih (depth + 1) (by omega)

theorem filesetPopulate_returns (hA : ∀ n, smp.alloc n = true) (hw : smp.Wide) {D : ℕ}
    (hD : ∀ k, smp.depthAt k ≤ D) (n E L : ℕ) :
    ∃ s', Returns (fun fuel => filesetPopulate smp fuel (newShm n) E L) (.ok, s') := by
  simp only [filesetPopulate_new]
  exact filesetPopulateSubdir_returns hA hw (emptyShm_popInv n E L) (by simp) 1
    fun _ => subdirReturns_of_depth hA hw hD D 1 (by omega)

end total

/-! ## The counts -/

/-- The entries of one type as a first populate leaves them: `n` of them, each index once, all
free and in the free tree, and the idle count at `n`. -/
structure AllFree (fs : Fileset) (ty : FseType) (n : ℕ) : Prop where
  length : (fs.fsList ty).length = n
  nodup : (fs.fsList ty).Nodup
  indexes : ((fs.fsList ty).map fs.key).Perm (List.range n)
  free : ∀ e ∈ fs.fsList ty, (fs.flags e).free = true
  tree : ∃ l, fs.TreeHolds (freeTree ty) l ∧ l.Perm (fs.fsList ty)
  idle : fs.fsIdle ty = n

theorem PopInv.allFree {s : Shm} (hI : PopInv s) {ty : FseType} (hty : ty ≠ .dir) :
    AllFree s.fs ty (s.fs.fsList ty).length where
  length := rfl
  nodup := hI.fsInv.nodup ty
  indexes := by
    rw [hI.index]
    exact List.reverse_perm _
  free e he := by
    rw [hI.flags ty e he]
    cases ty
    · rfl
    · exact absurd rfl hty
    · rfl
  tree := by
    obtain ⟨l, hl, hmem⟩ := hI.held (freeTree ty)
    refine ⟨l, hl, (List.perm_ext_iff_of_nodup hl.nodup (hI.fsInv.nodup ty)).mpr fun e => ?_⟩
    rw [hmem]
    constructor
    · rintro ⟨he, hhome⟩
      have htype : (s.fs.flags e).type = ty := by
        rw [← homeTree_type, hhome]
        cases ty <;> rfl
      exact htype ▸ hI.fsInv.mem_list he
    · intro he
      refine ⟨Fileset.mem_entries.mpr ⟨ty, he⟩, ?_⟩
      rw [hI.flags ty e he]
      cases ty
      · rfl
      · exact absurd rfl hty
      · rfl
  idle := hI.idle ty

theorem Populated.allFree {s : Shm} {E L : ℕ} (h : Populated s E L) :
    AllFree s.fs .file E ∧ AllFree s.fs .leafdir L :=
  ⟨h.files ▸ h.inv.allFree (by decide), h.leafdirs ▸ h.inv.allFree (by decide)⟩

theorem Samples.wide_of_ranwidth {smp : Samples} (hw : ∀ k, 1 / 2 ^ 53 < smp.ranwidth k) :
    smp.Wide := by
  intro k
  have hk : (0 : ℚ) < smp.ranwidth k := lt_trans (by norm_num) (hw k)
  rw [Samples.widthAt, if_neg hk.ne']
  exact one_lt_addDouble_one (hw k)

/-- A first populate whose widths exceed half a unit in the last place of one returns, with the
exact numbers of free entries. -/
theorem filesetPopulate_counts (smp : Samples) (hA : ∀ n, smp.alloc n = true)
    (hw : ∀ k, 1 / 2 ^ 53 < smp.ranwidth k) (D : ℤ) (hD : ∀ k, smp.randepth k ≤ D)
    (n E L : ℕ) : ∃ s, Returns (fun fuel => filesetPopulate smp fuel (newShm n) E L) (.ok, s) ∧
      AllFree s.fs .file E ∧ AllFree s.fs .leafdir L := by
  have hdepth : ∀ k, smp.depthAt k ≤ ((max D 1).toNat : ℤ) := by
    intro k
    have := hD k
    rw [Samples.depthAt]
    split_ifs <;> omega
  obtain ⟨s, hret⟩ := filesetPopulate_returns hA (Samples.wide_of_ranwidth hw) hdepth n E L
  obtain ⟨fuel, hrun⟩ := hret.run
  exact ⟨s, hret, (filesetPopulate_populated hrun).allFree⟩

/-- The samples of constant attributes. -/
def Samples.const (depth : ℤ) (width : ℚ) (size : ℤ) : Samples :=
  ⟨fun _ => depth, fun _ => width, fun _ => size, fun _ => true⟩

theorem filesetPopulate_const (E L : ℕ) : ∃ fuel s,
    filesetPopulate (.const 2 2 100) fuel (newShm 0) E L = some (.ok, s) := by
  have hw : (Samples.const 2 2 100).Wide :=
    Samples.wide_of_ranwidth fun _ => by norm_num [Samples.const]
  obtain ⟨s, hret⟩ := filesetPopulate_returns (fun _ => rfl) hw (D := 2) (fun _ => le_rfl) 0 E L
  obtain ⟨fuel, hrun⟩ := hret.run
  exact ⟨fuel, s, hrun⟩

theorem filesetPopulate_counts_three : ∃ s, Returns
    (fun fuel => filesetPopulate (.const 2 2 100) fuel (newShm 0) 3 1) (.ok, s) ∧
      AllFree s.fs .file 3 ∧ AllFree s.fs .leafdir 1 :=
  filesetPopulate_counts (.const 2 2 100) (fun _ => rfl) (fun _ => by norm_num [Samples.const]) 2
    (fun _ => le_rfl) 0 3 1

/-- A directory whose width admits no member gets none. -/
theorem filesetPopulateSubdir_narrow {smp : Samples} (hw : ∀ k, ¬ 1 < addDouble (smp.widthAt k) 1)
    {fuel : ℕ} {s s' : Shm} {p : Entry} {serial depth : ℕ}
    (h : filesetPopulateSubdir smp fuel s (some p) serial depth = some (.ok, s')) :
    Added s s' .dir (some p) serial := by
  have hone : ∀ k, smp.admits (some p) k 1 = false := by
    intro k
    simpa [Samples.admits] using hw k
  obtain ⟨n, s₁, s₂, -, hadd, hfiles, hleaf⟩ := filesetPopulateSubdir_ok h
  cases n with
  | zero => cases hfiles
  | succ n =>
    rw [fileLoop, forLoop, hone, Bool.false_and, if_neg (by decide)] at hfiles
    rw [leafdirLoop, forLoop, hone, Bool.false_and, if_neg (by decide)] at hleaf
    obtain ⟨-, rfl⟩ := Prod.mk.inj (Option.some.inj hfiles)
    obtain ⟨-, rfl⟩ := Prod.mk.inj (Option.some.inj hleaf)
    exact hadd

/-- The root of such a fileset never gets its first file. -/
theorem filesetPopulate_narrow {smp : Samples} (hw : ∀ k, ¬ 1 < addDouble (smp.widthAt k) 1)
    {n E L fuel : ℕ} (hE : 0 < E) (s : Shm) :
    filesetPopulate smp fuel (newShm n) E L ≠ some (.ok, s) := by
  intro h
  rw [filesetPopulate_new] at h
  obtain ⟨m, s₁, s₂, -, hadd, hfiles, -⟩ := filesetPopulateSubdir_ok h
  obtain ⟨i, -, ⟨hreal, hconst⟩, hc⟩ := forLoop_ok
    (P := fun _ u => u.fs.fsRealfiles = 0 ∧ u.fs.fsConstentries = E)
    (fun i u u' hu _ hbody => by
      have hbody' := filesetPopulateSubdir_narrow hw hbody
      exact ⟨by simp [hbody'.realfiles, hu.1], hbody'.entries.trans hu.2⟩) hfiles
    ⟨by simp [hadd.realfiles, emptyShm, resetFileset, Fileset.zero], hadd.entries⟩
  simp [Samples.admits, hreal, hconst, hE] at hc

/-- A positive width can be too small to change one, and then the populate does not succeed. -/
theorem filesetPopulate_narrow_width :
    (∀ n, (Samples.const 2 (1 / 2 ^ 70) 100).alloc n = true) ∧
    (∀ k, 0 < (Samples.const 2 (1 / 2 ^ 70) 100).ranwidth k) ∧
    (∀ k, (Samples.const 2 (1 / 2 ^ 70) 100).randepth k ≤ 2) ∧
    ∀ s, ¬ Returns (fun fuel => filesetPopulate (.const 2 (1 / 2 ^ 70) 100) fuel (newShm 0) 1 0)
      (.ok, s) := by
  refine ⟨fun _ => rfl, fun _ => by norm_num [Samples.const], fun _ => le_rfl, fun s hret => ?_⟩
  obtain ⟨fuel, hrun⟩ := hret.run
  refine filesetPopulate_narrow (fun k => ?_) (Nat.one_pos) s hrun
  rw [Samples.widthAt, if_neg (by norm_num [Samples.const]), not_lt]
  exact (addDouble_one_of_le (by norm_num [Samples.const]) (by norm_num [Samples.const])).le

end Filebench
