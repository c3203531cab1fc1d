import Filebench.Fileset.Populate
import Filebench.Fileset.Invariant

/-! # What populating adds

A successful populate only adds entries. Each addition has one shape for the three types of
entries, and every loop and every recursive call is a sequence of additions. -/
namespace Filebench

open Avl Fuel Double

/-- The flags of an entry when it is added. -/
def firstFlags : FseType → FseFlags
  | .file => ⟨.file, true, false, false, false, false⟩
  | .dir => ⟨.dir, false, true, false, false, false⟩
  | .leafdir => ⟨.leafdir, true, false, false, false, false⟩

/-- One successful addition: the entry takes the address of the next request. -/
structure Added (s s' : Shm) (ty : FseType) (parent : Option Entry) (serial : ℕ) : Prop where
  requests : s'.requests = s.requests + 2
  list : s'.fs.fsList = Function.update s.fs.fsList ty ((s.requests + 1) :: s.fs.fsList ty)
  idle : s'.fs.fsIdle = Function.update s.fs.fsIdle ty (s.fs.fsIdle ty + 1)
  old : ∀ x, x ≠ s.requests + 1 → s'.fs.fse x = s.fs.fse x
  new : ∃ size, s'.fs.fse (s.requests + 1) =
      ⟨none, parent, (s.fs.fsIdle ty).toNat, some (fmt08d serial), size, 0, firstFlags ty⟩ ∧
    s'.fs.fsBytes = s.fs.fsBytes + if ty = .file then size else 0
  entries : s'.fs.fsConstentries = s.fs.fsConstentries
  leafdirs : s'.fs.fsConstleafdirs = s.fs.fsConstleafdirs
  realfiles : s'.fs.fsRealfiles = s.fs.fsRealfiles + if ty = .file then 1 else 0
  realleafdirs : s'.fs.fsRealleafdirs = s.fs.fsRealleafdirs + if ty = .leafdir then 1 else 0
  tree : ∃ fuel tree, avlAdd fuel (Function.update s.fs.fseLink (s.requests + 1) (some zeroLink))
      (s.fs.fsTree (homeTree (firstFlags ty)))
      (Function.update s.fs.key (s.requests + 1) (s.fs.fsIdle ty).toNat) (s.requests + 1) =
        some (s'.fs.fseLink, tree) ∧
    s'.fs.fsTree = Function.update s.fs.fsTree (homeTree (firstFlags ty)) tree

theorem setIndex_zeroEntry_key (fs : Fileset) (e : Entry) (i : ℤ) (p : Option Entry) (ty n) :
    (setIndex ((zeroEntry fs e).addIdle ty n) e i p).key = Function.update fs.key e i.toNat := by
  funext x
  by_cases hx : x = e
  · simp [Fileset.key, setIndex, hx]
  · simp [Fileset.key, setIndex, zeroEntry, setFse_fse, hx]

/-- The directory node has its path before its index. -/
theorem setIndex_pathalloc_key (fs : Fileset) (e : Entry) (i : ℤ) (p : Option Entry) (ty n)
    (path : CString) :
    (setIndex (((zeroEntry fs e).addIdle ty n).setFse e fun n => { n with fsePath := some path })
      e i p).key = Function.update fs.key e i.toNat := by
  funext x
  by_cases hx : x = e
  · simp [Fileset.key, setIndex, hx]
  · simp [Fileset.key, setIndex, zeroEntry, setFse_fse, hx]

theorem filesetInsList_eq {fuel : ℕ} {fs fs' : Fileset} {ty : FseType} {t : FsTree}
    {flags : FseFlags} {entry : Entry} (h : filesetInsList fuel fs ty t flags entry = some fs') :
    ∃ link tree, avlAdd fuel fs.fseLink (fs.fsTree t) fs.key entry = some (link, tree) ∧
      fs' = { (fs.setFlags entry fun _ => flags) with
        fseLink := link
        fsTree := Function.update fs.fsTree t tree
        fsList := Function.update fs.fsList ty (entry :: fs.fsList ty) } := by
  simp only [filesetInsList, Option.bind_eq_bind, setFlags_key] at h
  obtain ⟨⟨link, tree⟩, hadd, h⟩ := Option.bind_eq_some_iff.mp h
  exact ⟨link, tree, hadd, (Option.some.inj h).symm⟩

theorem ipcMallocEntry_some {smp : Samples} {s s' : Shm} {e : Entry}
    (h : ipcMallocEntry smp s = (some e, s')) :
    e = s.requests + 1 ∧ s' = ⟨zeroEntry s.fs (s.requests + 1), s.requests + 1⟩ := by
  unfold ipcMallocEntry at h
  dsimp only at h
  split_ifs at h
  · obtain ⟨he, rfl⟩ := Prod.mk.inj h
    exact ⟨(Option.some.inj he).symm, rfl⟩
  · cases (Prod.mk.inj h).1

theorem ipcPathalloc_true {smp : Samples} {s s' : Shm} {e : Entry} {p : CString}
    (h : ipcPathalloc smp s e p = (true, s')) :
    s' = ⟨s.fs.setFse e fun n => { n with fsePath := some p }, s.requests + 1⟩ := by
  unfold ipcPathalloc at h
  split_ifs at h
  · exact (Prod.mk.inj h).2.symm
  · cases (Prod.mk.inj h).1

theorem filesetPopulateFile_ok {smp : Samples} {fuel : ℕ} {s s' : Shm} {parent : Option Entry}
    {serial : ℕ} (h : filesetPopulateFile smp fuel s parent serial = some (.ok, s')) :
    Added s s' .file parent serial := by
  unfold filesetPopulateFile at h
  split at h
  · cases h
  next e s₁ hm =>
  obtain ⟨rfl, rfl⟩ := ipcMallocEntry_some hm
  obtain ⟨fs, hins, h⟩ := Option.bind_eq_some_iff.mp h
  obtain ⟨link, tree, hadd, rfl⟩ := filesetInsList_eq hins
  rw [setIndex_zeroEntry_key] at hadd
  split at h
  · cases h
  next s₂ hp =>
  obtain rfl := ipcPathalloc_true hp
  obtain ⟨-, hs'⟩ := Prod.mk.inj (Option.some.inj h)
  simp only [setIndex, zeroEntry, Fileset.setFse, Fileset.setFlags, Fileset.addIdle] at hs'
  subst hs'
  refine ⟨rfl, rfl, rfl, fun x hx => ?_, ⟨smp.fseSize s.fs.fsRealfiles, ?_, rfl⟩, rfl, rfl, rfl,
    rfl, fuel, tree, hadd, rfl⟩
  · simp [hx]
  · simp [firstFlags, FilesetEntry.zero]

theorem filesetPopulateLeafdir_ok {smp : Samples} {fuel : ℕ} {s s' : Shm} {parent : Option Entry}
    {serial : ℕ} (h : filesetPopulateLeafdir smp fuel s parent serial = some (.ok, s')) :
    Added s s' .leafdir parent serial := by
  unfold filesetPopulateLeafdir at h
  split at h
  · cases h
  next e s₁ hm =>
  obtain ⟨rfl, rfl⟩ := ipcMallocEntry_some hm
  obtain ⟨fs, hins, h⟩ := Option.bind_eq_some_iff.mp h
  obtain ⟨link, tree, hadd, rfl⟩ := filesetInsList_eq hins
  rw [setIndex_zeroEntry_key] at hadd
  split at h
  · cases h
  next s₂ hp =>
  obtain rfl := ipcPathalloc_true hp
  obtain ⟨-, hs'⟩ := Prod.mk.inj (Option.some.inj h)
  simp only [setIndex, zeroEntry, Fileset.setFse, Fileset.setFlags, Fileset.addIdle] at hs'
  subst hs'
  refine ⟨rfl, rfl, rfl, fun x hx => ?_, ⟨0, ?_, (add_zero _).symm⟩, rfl, rfl, rfl, rfl, fuel, tree,
    hadd, rfl⟩
  · simp [hx]
  · simp [firstFlags, FilesetEntry.zero]

theorem filesetPopulateDirnode_some {smp : Samples} {fuel : ℕ} {s s' : Shm}
    {parent : Option Entry} {serial : ℕ} {e : Entry}
    (h : filesetPopulateDirnode smp fuel s parent serial = some (some e, s')) :
    e = s.requests + 1 ∧ Added s s' .dir parent serial := by
  unfold filesetPopulateDirnode at h
  split at h
  · cases h
  next e₁ s₁ hm =>
  obtain ⟨rfl, rfl⟩ := ipcMallocEntry_some hm
  dsimp only at h
  split at h
  · cases h
  next s₂ hp =>
  obtain rfl := ipcPathalloc_true hp
  obtain ⟨fs, hins, h⟩ := Option.bind_eq_some_iff.mp h
  obtain ⟨link, tree, hadd, rfl⟩ := filesetInsList_eq hins
  obtain ⟨he, hs'⟩ := Prod.mk.inj (Option.some.inj h)
  rw [setIndex_pathalloc_key] at hadd
  simp only [setIndex, zeroEntry, Fileset.setFse, Fileset.setFlags, Fileset.addIdle] at hs'
  subst hs'
  refine ⟨(Option.some.inj he).symm, rfl, rfl, rfl, fun x hx => ?_, ⟨0, ?_, (add_zero _).symm⟩, rfl,
    rfl, rfl, rfl, fuel, tree, hadd, rfl⟩
  · simp [hx]
  · simp [firstFlags, FilesetEntry.zero]

/-! ## Loops and recursion -/

/-- The rule for a loop that runs to its end. -/
theorem forLoop_ok {cond : ℕ → Shm → Bool} {body : ℕ → Shm → Option (FilebenchRet × Shm)}
    {P : ℕ → Shm → Prop}
    (hstep : ∀ i s s', P i s → cond i s = true → body i s = some (.ok, s') → P (i + 1) s')
    {fuel i : ℕ} {s s' : Shm} (h : forLoop cond body fuel i s = some (.ok, s')) (hP : P i s) :
    ∃ i', i ≤ i' ∧ P i' s' ∧ cond i' s' = false := by
  induction fuel generalizing i s with
  | zero => cases h
  | succ fuel ih =>
    rw [forLoop] at h
    split_ifs at h with hc
    · obtain ⟨⟨ret, s₁⟩, hb, h⟩ := Option.bind_eq_some_iff.mp h
      cases ret with
      | error => cases h
      | ok =>
        obtain ⟨i', hi, hrest⟩ := ih h (hstep i s s₁ hP hc hb)
        exact ⟨i', by omega, hrest⟩
    · obtain ⟨-, rfl⟩ := Prod.mk.inj (Option.some.inj h)
      exact ⟨i, le_rfl, hP, by simpa using hc⟩

/-- The loop over files of the `k`-th directory, at the address `entry`. -/
def fileLoop (smp : Samples) (fuel : ℕ) (parent : Option Entry) (k depth : ℕ) (entry : Entry)
    (s : Shm) : Option (FilebenchRet × Shm) :=
  forLoop (fun i s => smp.admits parent k i && decide (s.fs.fsRealfiles < s.fs.fsConstentries))
    (fun i s =>
      if smp.isleaf parent k depth then filesetPopulateFile smp fuel s (some entry) i
      else filesetPopulateSubdir smp fuel s (some entry) i depth) fuel 1 s

/-- The loop over leaf directories. -/
def leafdirLoop (smp : Samples) (fuel : ℕ) (parent : Option Entry) (k depth : ℕ) (entry : Entry)
    (s : Shm) : Option (FilebenchRet × Shm) :=
  forLoop
    (fun i s => smp.admits parent k i && decide (s.fs.fsRealleafdirs < s.fs.fsConstleafdirs))
    (fun i s =>
      if smp.isleaf parent k depth then filesetPopulateLeafdir smp fuel s (some entry) i
      else filesetPopulateSubdir smp fuel s (some entry) i depth) fuel 1 s

/-- The inversion of a successful call: the node, then the two loops. -/
theorem filesetPopulateSubdir_ok {smp : Samples} {fuel : ℕ} {s s' : Shm} {parent : Option Entry}
    {serial depth : ℕ}
    (h : filesetPopulateSubdir smp fuel s parent serial depth = some (.ok, s')) :
    ∃ n s₁ s₂, fuel = n + 1 ∧ Added s s₁ .dir parent serial ∧
      fileLoop smp n parent (s.fs.fsIdle .dir).toNat (depth + 1) (s.requests + 1) s₁ =
        some (.ok, s₂) ∧
      leafdirLoop smp n parent (s.fs.fsIdle .dir).toNat (depth + 1) (s.requests + 1) s₂ =
        some (.ok, s') := by
  cases fuel with
  | zero => cases h
  | succ n =>
    rw [filesetPopulateSubdir] at h
    obtain ⟨⟨e, s₁⟩, hd, h⟩ := Option.bind_eq_some_iff.mp h
    cases e with
    | none => cases h
    | some e =>
      obtain ⟨rfl, hadd⟩ := filesetPopulateDirnode_some hd
      have hkey : s₁.fs.key (s.requests + 1) = (s.fs.fsIdle .dir).toNat := by
        obtain ⟨size, hnew, -⟩ := hadd.new
        rw [Fileset.key, hnew]
      simp only [hkey] at h
      obtain ⟨⟨ret, s₂⟩, hl, h⟩ := Option.bind_eq_some_iff.mp h
      cases ret with
      | error => cases h
      | ok => exact ⟨n, s₁, s₂, rfl, hadd, hl, h⟩

/-- One addition as the recursion makes it: below a directory that is there, and within the
numbers that were asked for. -/
def AddStep (s s' : Shm) : Prop :=
  ∃ ty parent serial, Added s s' ty parent serial ∧
    (∀ p, parent = some p → p ∈ s.fs.fsList .dir) ∧
    (ty = .file → s.fs.fsRealfiles < s.fs.fsConstentries) ∧
    (ty = .leafdir → s.fs.fsRealleafdirs < s.fs.fsConstleafdirs)

abbrev Adds : Shm → Shm → Prop := Relation.ReflTransGen AddStep

theorem Added.mem_list {s s' : Shm} {ty : FseType} {parent : Option Entry} {serial : ℕ}
    (h : Added s s' ty parent serial) {ty' : FseType} {x : Entry} :
    x ∈ s'.fs.fsList ty' ↔ (ty' = ty ∧ x = s.requests + 1) ∨ x ∈ s.fs.fsList ty' := by
  rw [h.list, Function.update_apply]
  split_ifs with hty
  · subst hty
    simp
  · simp [hty]

theorem Added.mem_entries {s s' : Shm} {ty : FseType} {parent : Option Entry} {serial : ℕ}
    (h : Added s s' ty parent serial) {x : Entry} :
    x ∈ s'.fs.entries ↔ x = s.requests + 1 ∨ x ∈ s.fs.entries := by
  simp only [Fileset.mem_entries, h.mem_list]
  constructor
  · rintro ⟨ty', ⟨-, rfl⟩ | h⟩
    · exact .inl rfl
    · exact .inr ⟨ty', h⟩
  · rintro (rfl | ⟨ty', h⟩)
    · exact ⟨ty, .inl ⟨rfl, rfl⟩⟩
    · exact ⟨ty', .inr h⟩

theorem Adds.list_mono {s s' : Shm} (h : Adds s s') {ty : FseType} {x : Entry}
    (hx : x ∈ s.fs.fsList ty) : x ∈ s'.fs.fsList ty := by
  induction h with
  | refl => exact hx
  | tail _ hstep ih =>
    obtain ⟨ty', parent, serial, hadd, -⟩ := hstep
    exact hadd.mem_list.mpr (.inr ih)

theorem Adds.entries_mono {s s' : Shm} (h : Adds s s') {x : Entry} (hx : x ∈ s.fs.entries) :
    x ∈ s'.fs.entries := by
  obtain ⟨ty, hty⟩ := Fileset.mem_entries.mp hx
  exact Fileset.mem_entries.mpr ⟨ty, h.list_mono hty⟩

theorem Adds.requests_le {s s' : Shm} (h : Adds s s') : s.requests ≤ s'.requests := by
  induction h with
  | refl => exact le_rfl
  | tail _ hstep ih =>
    obtain ⟨ty', parent, serial, hadd, -⟩ := hstep
    rw [hadd.requests]
    omega

theorem Adds.old {s s' : Shm} (h : Adds s s') {x : Entry} (hx : x ≤ s.requests) :
    s'.fs.fse x = s.fs.fse x := by
  induction h with
  | refl => rfl
  | tail hrun hstep ih =>
    obtain ⟨ty', parent, serial, hadd, -⟩ := hstep
    have hlt : x < _ := Nat.lt_succ_of_le (hx.trans (Adds.requests_le hrun))
    rw [hadd.old x hlt.ne, ih]

theorem Adds.length_le {s s' : Shm} (h : Adds s s') (ty : FseType) :
    (s.fs.fsList ty).length ≤ (s'.fs.fsList ty).length := by
  induction h with
  | refl => exact le_rfl
  | tail _ hstep ih =>
    obtain ⟨ty', parent, serial, hadd, -⟩ := hstep
    refine ih.trans ?_
    rw [hadd.list, Function.update_apply]
    split_ifs with hty
    · simp [hty]
    · exact le_rfl

/-- What a call for a subdirectory must do for the loops around it to be additions. -/
def SubdirAdds (smp : Samples) (fuel : ℕ) : Prop :=
  ∀ {s s' : Shm} {parent : Option Entry} {serial depth : ℕ},
    filesetPopulateSubdir smp fuel s parent serial depth = some (.ok, s') →
    (∀ p, parent = some p → p ∈ s.fs.fsList .dir) →
    ∃ s₁, Added s s₁ .dir parent serial ∧ Adds s₁ s'

section loops

variable {smp : Samples} {fuel : ℕ} {s s' : Shm} {parent : Option Entry} {k depth : ℕ}
  {entry : Entry}

theorem Adds.subdir (hsub : SubdirAdds smp fuel) {u u' : Shm} {i : ℕ} (hu : Adds s u)
    (hentry : entry ∈ s.fs.fsList .dir)
    (h : filesetPopulateSubdir smp fuel u (some entry) i depth = some (.ok, u')) : Adds s u' := by
  have hmem : ∀ p, some entry = some p → p ∈ u.fs.fsList .dir := by
    rintro p ⟨⟩
    exact hu.list_mono hentry
  obtain ⟨u₁, hadd, hrest⟩ := hsub h hmem
  exact (hu.tail ⟨_, _, _, hadd, hmem, by simp, by simp⟩).trans hrest

theorem fileLoop_adds (hsub : SubdirAdds smp fuel) (hentry : entry ∈ s.fs.fsList .dir)
    (h : fileLoop smp fuel parent k depth entry s = some (.ok, s')) : Adds s s' := by
  obtain ⟨-, -, hrun, -⟩ := forLoop_ok (P := fun _ u => Adds s u) (fun i u u' hu hc hbody => by
    simp only [Bool.and_eq_true, decide_eq_true_eq] at hc
    split_ifs at hbody with hl
    · refine hu.tail ⟨_, _, _, filesetPopulateFile_ok hbody, ?_, fun _ => hc.2, by simp⟩
      rintro p ⟨⟩
      exact hu.list_mono hentry
    · exact hu.subdir hsub hentry hbody) h .refl
  exact hrun

theorem leafdirLoop_adds (hsub : SubdirAdds smp fuel) (hentry : entry ∈ s.fs.fsList .dir)
    (h : leafdirLoop smp fuel parent k depth entry s = some (.ok, s')) : Adds s s' := by
  obtain ⟨-, -, hrun, -⟩ := forLoop_ok (P := fun _ u => Adds s u) (fun i u u' hu hc hbody => by
    simp only [Bool.and_eq_true, decide_eq_true_eq] at hc
    split_ifs at hbody with hl
    · refine hu.tail ⟨_, _, _, filesetPopulateLeafdir_ok hbody, ?_, by simp, fun _ => hc.2⟩
      rintro p ⟨⟩
      exact hu.list_mono hentry
    · exact hu.subdir hsub hentry hbody) h .refl
  exact hrun

end loops

theorem Added.entry_mem {s s' : Shm} {ty : FseType} {parent : Option Entry} {serial : ℕ}
    (h : Added s s' ty parent serial) : s.requests + 1 ∈ s'.fs.fsList ty :=
  h.mem_list.mpr (.inl ⟨rfl, rfl⟩)

/-- A successful call is a sequence of additions that starts with the directory itself. -/
theorem filesetPopulateSubdir_adds (smp : Samples) (fuel : ℕ) : SubdirAdds smp fuel := by
  induction fuel with
  | zero => intro _ _ _ _ _ h; cases h
  | succ fuel ih =>
    intro s s' parent serial depth h _
    obtain ⟨n, s₁, s₂, hn, hadd, hfiles, hleaf⟩ := filesetPopulateSubdir_ok h
    obtain rfl : fuel = n := by omega
    have hfiles' := fileLoop_adds ih hadd.entry_mem hfiles
    exact ⟨s₁, hadd,
      hfiles'.trans (leafdirLoop_adds ih (hfiles'.list_mono hadd.entry_mem) hleaf)⟩

/-! ## The invariant of populating -/

structure PopInv (s : Shm) : Prop where
  held : ∀ t, ∃ l, s.fs.TreeHolds t l ∧
    ∀ e, e ∈ l ↔ e ∈ s.fs.entries ∧ homeTree (s.fs.flags e) = t
  stack : s.fs.fseLink stackEntry = none
  address : ∀ ty, ∀ e ∈ s.fs.fsList ty, 0 < e ∧ e ≤ s.requests
  index : ∀ ty, (s.fs.fsList ty).map s.fs.key = (List.range (s.fs.fsList ty).length).reverse
  idle : ∀ ty, s.fs.fsIdle ty = (s.fs.fsList ty).length
  flags : ∀ ty, ∀ e ∈ s.fs.fsList ty, s.fs.flags e = firstFlags ty
  openCnt : ∀ e ∈ s.fs.entries, (s.fs.fse e).fseOpenCnt = 0
  parent : ∀ e ∈ s.fs.entries, ∀ p, (s.fs.fse e).fseParent = some p →
    p ∈ s.fs.fsList .dir ∧ p < e
  realfiles : s.fs.fsRealfiles = (s.fs.fsList .file).length
  realleafdirs : s.fs.fsRealleafdirs = (s.fs.fsList .leafdir).length
  files_le : s.fs.fsRealfiles ≤ s.fs.fsConstentries
  leafdirs_le : s.fs.fsRealleafdirs ≤ s.fs.fsConstleafdirs
  bytes : s.fs.fsBytes = ((s.fs.fsList .file).map fun e => (s.fs.fse e).fseSize).sum

theorem PopInv.fsInv {s : Shm} (h : PopInv s) : FsInv s.fs where
  held := h.held
  typed ty e he := by rw [h.flags ty e he]; cases ty <;> rfl
  indexed ty := by
    have hn : ((s.fs.fsList ty).map s.fs.key).Nodup := by
      rw [h.index]
      exact List.nodup_reverse.mpr List.nodup_range
    exact fun e he e' he' => List.inj_on_of_nodup_map hn he he'
  nodup ty := by
    refine List.Nodup.of_map s.fs.key ?_
    rw [h.index]
    exact List.nodup_reverse.mpr List.nodup_range
  stack := h.stack

theorem PopInv.key_lt {s : Shm} (h : PopInv s) {ty : FseType} {e : Entry}
    (he : e ∈ s.fs.fsList ty) : s.fs.key e < (s.fs.fsList ty).length := by
  have := List.mem_map_of_mem (f := s.fs.key) he
  rw [h.index] at this
  simpa using this

theorem PopInv.le_requests {s : Shm} (h : PopInv s) {e : Entry} (he : e ∈ s.fs.entries) :
    e ≤ s.requests := (h.address _ e (h.fsInv.mem_list he)).2

theorem PopInv.entries_ne {s : Shm} (h : PopInv s) {e : Entry} (he : e ∈ s.fs.entries) :
    e ≠ s.requests + 1 :=
  (Nat.lt_succ_of_le (h.le_requests he)).ne

/-- The insertion into the tree of the first flags, on the links with the new entry. -/
theorem PopInv.avlAdd_new {s : Shm} (hI : PopInv s) (ty : FseType) :
    ∃ h' tree' l l', Returns (fun fuel => avlAdd fuel
        (Function.update s.fs.fseLink (s.requests + 1) (some zeroLink))
        (s.fs.fsTree (homeTree (firstFlags ty)))
        (Function.update s.fs.key (s.requests + 1) (s.fs.fsIdle ty).toNat) (s.requests + 1))
        (h', tree') ∧
      Holds h' tree' (Function.update s.fs.key (s.requests + 1) (s.fs.fsIdle ty).toNat) l' ∧
      l'.Perm ((s.requests + 1) :: l) ∧
      Avl.Frame (Function.update s.fs.fseLink (s.requests + 1) (some zeroLink)) h'
        ((s.requests + 1) :: l) ∧
      ∀ e, e ∈ l ↔ e ∈ s.fs.entries ∧ homeTree (s.fs.flags e) = homeTree (firstFlags ty) := by
  obtain ⟨l, hl, hmem⟩ := hI.held (homeTree (firstFlags ty))
  have hne : ∀ x ∈ l, x ≠ s.requests + 1 := fun x hx => hI.entries_ne ((hmem x).mp hx).1
  have hl₀ : Holds (Function.update s.fs.fseLink (s.requests + 1) (some zeroLink))
      (s.fs.fsTree (homeTree (firstFlags ty)))
      (Function.update s.fs.key (s.requests + 1) (s.fs.fsIdle ty).toNat) l :=
    (hl.frame fun x hx => Function.update_of_ne (hne x hx) _ _).rekey fun x hx =>
      Function.update_of_ne (hne x hx) _ _
  obtain ⟨h', tree', l', hret, hholds, hperm, hframe⟩ := hl₀.add (fun x hx => by
    obtain ⟨hxe, hxt⟩ := (hmem x).mp hx
    have hty : (s.fs.flags x).type = ty := by
      rw [← homeTree_type, hxt, homeTree_type]
      cases ty <;> rfl
    rw [Function.update_of_ne (hne x hx), Function.update_self, hI.idle, Int.toNat_natCast]
    exact (hI.key_lt (hty ▸ hI.fsInv.mem_list hxe)).ne) (by simp)
  exact ⟨h', tree', l, l', hret, hholds, hperm, hframe, hmem⟩

section added

variable {s s' : Shm} {ty : FseType} {parent : Option Entry} {serial : ℕ}

theorem Added.flags_new (h : Added s s' ty parent serial) :
    s'.fs.flags (s.requests + 1) = firstFlags ty := by
  obtain ⟨size, hnew, -⟩ := h.new
  rw [Fileset.flags, hnew]

/-- The new entry takes the next index of its type. -/
theorem Added.key (h : Added s s' ty parent serial) :
    s'.fs.key = Function.update s.fs.key (s.requests + 1) (s.fs.fsIdle ty).toNat := by
  obtain ⟨size, hnew, -⟩ := h.new
  funext x
  by_cases hx : x = s.requests + 1
  · simp [Fileset.key, hx, hnew]
  · simp [Fileset.key, h.old x hx, hx]

theorem PopInv.flags_old (hI : PopInv s) (h : Added s s' ty parent serial) {e : Entry}
    (he : e ∈ s.fs.entries) : s'.fs.flags e = s.fs.flags e := by
  rw [Fileset.flags, h.old e (hI.entries_ne he), Fileset.flags]

/-- The new entry is in the tree for its flags, and the other trees are as they were. -/
theorem PopInv.held_added (hI : PopInv s) (hadd : Added s s' ty parent serial) :
    (∀ t, ∃ l, s'.fs.TreeHolds t l ∧
      ∀ e, e ∈ l ↔ e ∈ s'.fs.entries ∧ homeTree (s'.fs.flags e) = t) ∧
    s'.fs.fseLink stackEntry = none := by
  obtain ⟨h', tree', l, l', hret, hholds, hperm, hframe, hlmem⟩ := hI.avlAdd_new ty
  obtain ⟨fuel, tree, hrun, htree⟩ := hadd.tree
  obtain ⟨rfl, rfl⟩ := Prod.mk.inj (((avlAdd_steady _ _ _ _).returns hrun).unique hret)
  rw [← hadd.key] at hholds
  have hnew0 : stackEntry ≠ s.requests + 1 := (Nat.succ_ne_zero _).symm
  refine ⟨fun t => ?_, ?_⟩
  · by_cases ht : t = homeTree (firstFlags ty)
    · subst ht
      refine ⟨l', ?_, fun e => ?_⟩
      · rw [Fileset.TreeHolds, htree, Function.update_self]
        exact hholds
      · rw [hperm.mem_iff, List.mem_cons, hlmem, hadd.mem_entries]
        constructor
        · rintro (rfl | ⟨he, hhome⟩)
          · exact ⟨.inl rfl, by rw [hadd.flags_new]⟩
          · exact ⟨.inr he, by rw [hI.flags_old hadd he, hhome]⟩
        · rintro ⟨rfl | he, hhome⟩
          · exact .inl rfl
          · exact .inr ⟨he, by rw [← hI.flags_old hadd he, hhome]⟩
    · obtain ⟨m, hm, hmmem⟩ := hI.held t
      have hmnew : ∀ x ∈ m, x ≠ s.requests + 1 := fun x hx => hI.entries_ne ((hmmem x).mp hx).1
      refine ⟨m, ?_, fun e => ?_⟩
      · rw [Fileset.TreeHolds, htree, Function.update_of_ne ht]
        refine (hm.frame fun x hx => ?_).rekey fun x hx => ?_
        · rw [hframe x, Function.update_of_ne (hmnew x hx)]
          simp only [List.mem_cons, not_or]
          refine ⟨hmnew x hx, fun hx' => ht ?_⟩
          rw [← ((hmmem x).mp hx).2, ((hlmem x).mp hx').2]
        · rw [hadd.key, Function.update_of_ne (hmnew x hx)]
      · rw [hmmem, hadd.mem_entries]
        constructor
        · rintro ⟨he, hhome⟩
          exact ⟨.inr he, by rw [hI.flags_old hadd he, hhome]⟩
        · rintro ⟨rfl | he, hhome⟩
          · rw [hadd.flags_new] at hhome
            exact absurd hhome.symm ht
          · exact ⟨he, by rw [← hI.flags_old hadd he, hhome]⟩
  · have hl0 : stackEntry ∉ l := fun hx =>
      absurd (hI.address _ _ (hI.fsInv.mem_list ((hlmem _).mp hx).1)).1 (lt_irrefl _)
    rw [hframe _ (by simpa using ⟨hnew0, hl0⟩), Function.update_of_ne hnew0, hI.stack]

end added

theorem PopInv.step {s s' : Shm} (hI : PopInv s) (hstep : AddStep s s') : PopInv s' := by
  obtain ⟨ty, parent, serial, hadd, hparent, hfile, hleaf⟩ := hstep
  have hold : ∀ ty', ∀ e ∈ s.fs.fsList ty', e ≠ s.requests + 1 := fun ty' e he =>
    hI.entries_ne (Fileset.mem_entries.mpr ⟨ty', he⟩)
  obtain ⟨size, hnew, hbytes⟩ := hadd.new
  have hlen : (s.fs.fsIdle ty).toNat = (s.fs.fsList ty).length := by simp [hI.idle ty]
  obtain ⟨hheld, hstack⟩ := hI.held_added hadd
  constructor
  case held => exact hheld
  case stack => exact hstack
  case address =>
    intro ty' e he
    rw [hadd.requests]
    rcases hadd.mem_list.mp he with ⟨-, rfl⟩ | he
    · exact ⟨Nat.succ_pos _, Nat.le_succ _⟩
    · have := hI.address ty' e he
      exact ⟨this.1, this.2.trans (Nat.le_add_right ..)⟩
  case index =>
    intro ty'
    rw [hadd.list, Function.update_apply]
    have hmap : (s.fs.fsList ty').map s'.fs.key = (s.fs.fsList ty').map s.fs.key :=
      List.map_congr_left fun e he => by
        rw [hadd.key, Function.update_of_ne (hold ty' e he)]
    split_ifs with hty
    · subst hty
      rw [List.map_cons, hmap, hI.index, List.length_cons, List.range_succ, List.reverse_append,
        hadd.key, Function.update_self, hlen]
      rfl
    · rw [hmap, hI.index]
  case idle =>
    intro ty'
    rw [hadd.idle, hadd.list, Function.update_apply, Function.update_apply]
    split_ifs with hty
    · subst hty
      rw [hI.idle, List.length_cons]
      push_cast
      rfl
    · exact hI.idle ty'
  case flags =>
    intro ty' e he
    rcases hadd.mem_list.mp he with ⟨rfl, rfl⟩ | he
    · exact hadd.flags_new
    · rw [hI.flags_old hadd (Fileset.mem_entries.mpr ⟨ty', he⟩), hI.flags ty' e he]
  case openCnt =>
    intro e he
    rcases hadd.mem_entries.mp he with rfl | he
    · rw [hnew]
    · rw [hadd.old e (hI.entries_ne he), hI.openCnt e he]
  case parent =>
    intro e he p hp
    rcases hadd.mem_entries.mp he with rfl | he
    · rw [hnew] at hp
      have hpd := hparent p hp
      exact ⟨hadd.mem_list.mpr (.inr hpd), Nat.lt_succ_of_le (hI.address _ p hpd).2⟩
    · rw [hadd.old e (hI.entries_ne he)] at hp
      obtain ⟨hpd, hlt⟩ := hI.parent e he p hp
      exact ⟨hadd.mem_list.mpr (.inr hpd), hlt⟩
  case realfiles =>
    rw [hadd.realfiles, hadd.list, Function.update_apply, hI.realfiles]
    cases ty <;> simp
  case realleafdirs =>
    rw [hadd.realleafdirs, hadd.list, Function.update_apply, hI.realleafdirs]
    cases ty <;> simp
  case files_le =>
    have := hI.files_le
    rw [hadd.realfiles, hadd.entries]
    split_ifs with hty
    · exact hfile hty
    · exact this
  case leafdirs_le =>
    have := hI.leafdirs_le
    rw [hadd.realleafdirs, hadd.leafdirs]
    split_ifs with hty
    · exact hleaf hty
    · exact this
  case bytes =>
    have hmap : (s.fs.fsList .file).map (fun e => (s'.fs.fse e).fseSize) =
        (s.fs.fsList .file).map fun e => (s.fs.fse e).fseSize :=
      List.map_congr_left fun e he => by rw [hadd.old e (hold .file e he)]
    rw [hbytes, hadd.list, Function.update_apply, hI.bytes]
    cases ty
    · simp [hmap, hnew, add_comm]
    · simp [hmap]
    · simp [hmap]

theorem PopInv.adds {s s' : Shm} (hI : PopInv s) (h : Adds s s') : PopInv s' := by
  induction h with
  | refl => exact hI
  | tail _ hstep ih => exact ih.step hstep

end Filebench
